/-
  OverlayCensus — finite sets of peers.

  A set is the list of its members in increasing order, each once, so two sets
  with the same members are equal.

  * `insert`, `erase`, `contains` and `ofList` are the operations, `mem_insert`,
    `mem_erase` and `mem_ofList` say what they do to the members;
  * `ext_mem`: a set is determined by its members.
-/
import OverlayCensus.PeerAddress

namespace OverlayCensus

/-- A finite set of peers, listed in increasing order. -/
@[ext] structure PeerSet where
  toList : List PeerAddress
  sorted : toList.Pairwise fun a b => compare a b = .lt

namespace PeerSet

instance : DecidableEq PeerSet := fun s t =>
  decidable_of_iff (s.toList = t.toList) PeerSet.ext_iff.symm

instance : Membership PeerAddress PeerSet := ⟨fun s a => a ∈ s.toList⟩

theorem mem_toList {a : PeerAddress} {s : PeerSet} : a ∈ s.toList ↔ a ∈ s := Iff.rfl

instance (a : PeerAddress) (s : PeerSet) : Decidable (a ∈ s) :=
  inferInstanceAs (Decidable (a ∈ s.toList))

/-- The set without members. -/
def empty : PeerSet := ⟨[], .nil⟩

instance : Inhabited PeerSet := ⟨empty⟩

/-- The number of members. -/
def size (s : PeerSet) : Nat :=
  s.toList.length

/-! ## Insertion -/

/-- An increasing list with `a` put where it belongs. -/
def insertSorted (a : PeerAddress) : List PeerAddress → List PeerAddress
  | [] => [a]
  | b :: bs =>
    match compare a b with
    | .lt => a :: b :: bs
    | .eq => b :: bs
    | .gt => b :: insertSorted a bs

theorem mem_insertSorted {a b : PeerAddress} {l : List PeerAddress} :
    b ∈ insertSorted a l ↔ b = a ∨ b ∈ l := by
  induction l with
  | nil => simp [insertSorted]
  | cons c l ih =>
    simp only [insertSorted]
    split
    · simp
    · next h =>
      have : a = c := Std.LawfulEqOrd.eq_of_compare h
      subst this
      simp
    · simp only [List.mem_cons, ih]
      exact or_left_comm

theorem sorted_insertSorted {a : PeerAddress} {l : List PeerAddress}
    (h : l.Pairwise fun a b => compare a b = .lt) :
    (insertSorted a l).Pairwise fun a b => compare a b = .lt := by
  induction l with
  | nil => simp [insertSorted]
  | cons c l ih =>
    obtain ⟨hc, hl⟩ := List.pairwise_cons.1 h
    simp only [insertSorted]
    split
    · next hlt =>
      refine List.pairwise_cons.2 ⟨fun b hb => ?_, h⟩
      rcases List.mem_cons.1 hb with rfl | hb
      · exact hlt
      · exact Std.TransCmp.lt_trans hlt (hc b hb)
    · exact h
    · next hgt =>
      refine List.pairwise_cons.2 ⟨fun b hb => ?_, ih hl⟩
      rcases mem_insertSorted.1 hb with rfl | hb
      · exact Std.OrientedCmp.lt_of_gt hgt
      · exact hc b hb

/-- The set with `a` added. -/
def insert (a : PeerAddress) (s : PeerSet) : PeerSet :=
  ⟨insertSorted a s.toList, sorted_insertSorted s.sorted⟩

@[simp] theorem mem_insert {a b : PeerAddress} {s : PeerSet} :
    b ∈ s.insert a ↔ b = a ∨ b ∈ s :=
  mem_insertSorted

/-- The set of the members of a list. -/
def ofList (as : List PeerAddress) : PeerSet :=
  as.foldl (fun s a => s.insert a) empty

/-- The set with one member. -/
def single (a : PeerAddress) : PeerSet :=
  empty.insert a

@[simp] theorem mem_single {a b : PeerAddress} : b ∈ single a ↔ b = a := by
  have hempty : ¬ b ∈ empty := List.not_mem_nil
  simp [single, hempty]

theorem mem_foldl_insert {b : PeerAddress} (as : List PeerAddress) (s : PeerSet) :
    b ∈ as.foldl (fun s a => s.insert a) s ↔ b ∈ as ∨ b ∈ s := by
  induction as generalizing s with
  | nil => simp
  | cons a as ih =>
    simp only [List.foldl_cons, ih, mem_insert, List.mem_cons]
    exact or_left_comm.trans or_assoc.symm

@[simp] theorem mem_ofList {b : PeerAddress} {as : List PeerAddress} :
    b ∈ ofList as ↔ b ∈ as := by
  have hempty : ¬ b ∈ empty := List.not_mem_nil
  simp [ofList, mem_foldl_insert, hempty]

/-! ## Removal -/

/-- The set without `a`. -/
def erase (a : PeerAddress) (s : PeerSet) : PeerSet :=
  ⟨s.toList.filter fun b => b ≠ a, s.sorted.filter _⟩

@[simp] theorem mem_erase {a b : PeerAddress} {s : PeerSet} :
    b ∈ s.erase a ↔ b ∈ s ∧ b ≠ a := by
  show b ∈ s.toList.filter _ ↔ _
  simp [mem_toList]

/-! ## Equality -/

/-- Sets with the same members are equal. -/
theorem ext_mem {s t : PeerSet} (h : ∀ a, a ∈ s ↔ a ∈ t) : s = t := by
  obtain ⟨l, hl⟩ := s
  obtain ⟨m, hm⟩ := t
  have h' : ∀ a, a ∈ l ↔ a ∈ m := h
  suffices l = m by subst this; rfl
  clear h
  induction l generalizing m with
  | nil =>
    cases m with
    | nil => rfl
    | cons b m => exact absurd ((h' b).2 List.mem_cons_self) List.not_mem_nil
  | cons a l ih =>
    cases m with
    | nil => exact absurd ((h' a).1 List.mem_cons_self) List.not_mem_nil
    | cons b m =>
      obtain ⟨ha, hl'⟩ := List.pairwise_cons.1 hl
      obtain ⟨hb, hm'⟩ := List.pairwise_cons.1 hm
      have hirr : ∀ c : PeerAddress, ¬ compare c c = .lt := by
        intro c hc
        have he : compare c c = .eq := Std.ReflCmp.compare_self
        rw [he] at hc
        cases hc
      have hab : a = b := by
        rcases List.mem_cons.1 ((h' a).1 List.mem_cons_self) with hab | ham
        · exact hab
        rcases List.mem_cons.1 ((h' b).2 List.mem_cons_self) with hba | hbl
        · exact hba.symm
        exact absurd (Std.TransCmp.lt_trans (ha b hbl) (hb a ham)) (hirr a)
      subst hab
      congr 1
      refine ih hl' m hm' fun c => ?_
      have hc := h' c
      simp only [List.mem_cons] at hc
      by_cases hca : c = a
      · subst hca
        exact ⟨fun hin => absurd (ha c hin) (hirr c), fun hin => absurd (hb c hin) (hirr c)⟩
      · simpa [hca] using hc

end PeerSet

end OverlayCensus
