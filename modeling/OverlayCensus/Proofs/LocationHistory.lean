/-
  OverlayCensus — what a location table keeps of all that it was told.

  A full table either skips a new location or pushes out the one that was told longest ago.
  If it always skips, it keeps the locations that were told first; if it never does, those that
  were told last; and in between it depends on the coins, but the table never shrinks.
  Locations are listed in the order in which they were told, calls in the order in which they
  were made.

  * `Binary64.chance_of_one_le`, `Binary64.chance_of_le_zero`: when a skip is certain, and when
    it is impossible;
  * `merge_of_skips`, `entries_merge`: a skipped location changes nothing, any other one goes in
    front;
  * `perm_mergeAll_of_certain`, `entries_mergeAll_of_impossible`: what is kept of a whole
    history;
  * `entries_of_notes`: the same for calls of both kinds, and what one more call does.
-/
import Mathlib
import OverlayCensus.Proofs.CacheInclusion
import OverlayCensus.Proofs.GossipTables
import OverlayCensus.Proofs.LocationKeys

namespace OverlayCensus

/-! ## Certain and impossible events -/

namespace Binary64

variable {x : Binary64}

theorem chance_of_one_le (h : one.le x = true) : x.chance = 2 ^ 64 :=
  if_pos h

theorem orderKey_le_of_le {y : Binary64} (h : x.le y = true) : x.orderKey ≤ y.orderKey := by
  rw [le, Bool.and_eq_true] at h
  exact of_decide_eq_true h.2

/-- A positive number has a positive key, and the key of a number that is not negative are its
    bits. -/
theorem bits_eq_zero (hkey : x.orderKey ≤ 0) (hsign : x.isNegative = false) : x.bits.toNat = 0 := by
  have hlt : x.bits.toNat < 2 ^ 63 := by simpa [isNegative] using hsign
  rw [orderKey, hsign] at hkey
  simp only [Bool.false_eq_true, if_false] at hkey
  omega

theorem chance_of_le_zero (h : x.le zero = true) : x.chance = 0 := by
  have hkey : x.orderKey ≤ 0 := orderKey_le_of_le h
  have hone : one.le x = false := by
    rw [Bool.eq_false_iff]
    intro hone
    have hpos : 0 < one.orderKey := by decide +kernel
    exact absurd ((orderKey_le_of_le hone).trans hkey) hpos.not_ge
  rw [chance, hone]
  cases hsign : x.isNegative with
  | true => rfl
  | false =>
    have hsignificand : x.significand = 0 := by
      rw [significand, exponentBits, fractionBits, bits_eq_zero hkey hsign]
      rfl
    rw [hsignificand, Nat.zero_mul, Nat.zero_div]
    exact ite_self _

end Binary64

/-! ## Lists without repeats -/

section
variable {α : Type} [DecidableEq α]

theorem eraseDups_cons_ne (a : α) (l : List α) :
    (a :: l).eraseDups = a :: (l.filter fun b => b ≠ a).eraseDups := by
  rw [List.eraseDups_cons]
  congr 2
  exact List.filter_congr fun b _ => by by_cases hb : b = a <;> simp [hb]

/-- The first ones of those that pass are those of the first ones that pass. -/
theorem eraseDups_filter (p : α → Bool) : ∀ l : List α,
    (l.filter p).eraseDups = l.eraseDups.filter p
  | [] => rfl
  | a :: l => by
    have ih := eraseDups_filter p (l.filter fun b => b ≠ a)
    rw [eraseDups_cons_ne, List.filter_cons, List.filter_cons, ← ih]
    split_ifs with ha
    · rw [eraseDups_cons_ne, List.filter_filter, List.filter_filter]
      simp only [Bool.and_comm]
    · rw [List.filter_filter]
      congr 1
      refine List.filter_congr fun b _ => ?_
      by_cases hb : b = a
      · simp [hb, ha]
      · simp [hb]
termination_by l => l.length
decreasing_by exact Nat.lt_succ_of_le (List.length_filter_le _ _)

theorem nodup_eraseDups : ∀ l : List α, l.eraseDups.Nodup
  | [] => List.nodup_nil
  | a :: l => by
    rw [eraseDups_cons_ne]
    exact List.nodup_cons.2 ⟨by simp, nodup_eraseDups _⟩
termination_by l => l.length
decreasing_by exact Nat.lt_succ_of_le (List.length_filter_le _ _)

/-- One more element stands behind the others, unless it is among them. -/
theorem eraseDups_concat (l : List α) (a : α) :
    (l ++ [a]).eraseDups = l.eraseDups ++ if a ∈ l then [] else [a] := by
  rw [List.eraseDups_append, List.removeAll, List.filter_singleton]
  by_cases ha : a ∈ l <;> simp [ha, List.eraseDups_cons]

end

/-! ## Entries that are counted -/

namespace Cache

variable {κ ν : Type} [DecidableEq κ]

/-- A use drops nothing that the used key does not make up for. -/
theorem size_le_size_use (c : Cache κ ν) (k : κ) (v : ν) : c.size ≤ (c.use k v).size := by
  have hle : c.keys.length ≤ c.capacity := c.length_keys.trans_le c.length_le
  rw [← length_keys, ← length_keys, keys_use, filter_ne_eq_erase c.nodup_keys, List.length_take,
    List.length_cons, List.length_erase]
  split_ifs <;> omega

end Cache

namespace LocationTable

variable {t : LocationTable} {l l' : Location} {ls : Set Location}

/-! ## One location -/

/-- Whether a location is new, the table full, and the coin such that it is not noted. -/
def skips (t : LocationTable) (l : Location) : Bool :=
  !t.cache.contains l.key && t.cache.isFull && (t.coins.coin t.skip).1

/-- A location that is skipped changes nothing but the coins. -/
theorem merge_of_skips (h : t.skips l = true) :
    (t.merge l).1 = false ∧ (t.merge l).2.cache = t.cache := by
  rw [skips, Bool.and_eq_true] at h
  simp only [merge, Cache.putSkipping, h.1, h.2, if_true]
  exact ⟨trivial, trivial⟩

/-- Any other location is used. -/
theorem merge_of_not_skips (h : t.skips l = false) :
    (t.merge l).1 = !t.cache.contains l.key ∧ (t.merge l).2.cache = t.cache.use l.key l := by
  rw [skips, Bool.and_eq_false_iff] at h
  simp only [merge, Cache.putSkipping]
  split
  · next hnew =>
    have hcoin : (t.coins.coin t.skip).1 = false := h.resolve_left (by simp [hnew])
    simp only [hcoin]
    exact ⟨rfl, rfl⟩
  · exact ⟨rfl, rfl⟩

/-- **No location makes the table smaller.** -/
theorem size_le_size_merge (t : LocationTable) (l : Location) : t.size ≤ (t.merge l).2.size := by
  rw [size, size]
  cases h : t.skips l with
  | true => rw [(merge_of_skips h).2]
  | false =>
    rw [(merge_of_not_skips h).2]
    exact t.cache.size_le_size_use l.key l

/-- All locations in the table belong to a set in which each has a key of its own. -/
structure FiledApart (t : LocationTable) (ls : Set Location) : Prop where
  known : ∀ l ∈ t.entries, l ∈ ls
  keys : Set.InjOn Location.key ls

theorem filedApart_empty (capacity : ℕ) (skip : Binary64) (coins : Draws)
    (hkeys : Set.InjOn Location.key ls) : (empty capacity skip coins).FiledApart ls :=
  ⟨fun _ hl => (List.not_mem_nil hl).elim, hkeys⟩

theorem length_entries (t : LocationTable) : t.entries.length = t.size :=
  List.length_map _

namespace FiledApart

variable (h : t.FiledApart ls) (hl : l ∈ ls)
include h hl

theorem contains_iff : t.cache.contains l.key = true ↔ l ∈ t.entries :=
  contains_key_iff fun l' hl' hkey => h.keys (h.known l' hl') hl hkey

theorem map_without : (Cache.without l.key t.cache.entries).map Prod.snd =
    t.entries.filter fun l' => l' ≠ l := by
  rw [Cache.without, entries, Cache.values, List.filter_map]
  congr 1
  refine List.filter_congr fun e he => ?_
  have hmem : e.2 ∈ t.entries := List.mem_map_of_mem he
  have hkey : e.1 = l.key ↔ e.2 = l := by
    rw [t.keyed e he]
    exact h.keys.eq_iff (h.known e.2 hmem) hl
  simp [hkey]

/-- **A location that is not skipped** goes in front, and what has no more room is dropped. -/
theorem entries_merge (hskip : t.skips l = false) : (t.merge l).2.entries =
    (l :: t.entries.filter fun l' => l' ≠ l).take t.cache.capacity := by
  rw [← h.map_without hl, entries, Cache.values, (merge_of_not_skips hskip).2, Cache.entries_use,
    List.map_take, List.map_cons]

theorem merge : (t.merge l).2.FiledApart ls := by
  refine ⟨fun l' hl' => ?_, h.keys⟩
  cases hskip : t.skips l with
  | true =>
    rw [entries, (merge_of_skips hskip).2] at hl'
    exact h.known l' hl'
  | false =>
    rw [h.entries_merge hl hskip] at hl'
    rcases List.mem_cons.1 (List.mem_of_mem_take hl') with rfl | hl'
    · exact hl
    · exact h.known l' (List.mem_of_mem_filter hl')

/-- A location that the table has comes to the front. -/
theorem perm_merge_of_mem (hmem : l ∈ t.entries) : (t.merge l).2.entries.Perm t.entries := by
  have hskip : t.skips l = false := by simp [skips, (h.contains_iff hl).2 hmem]
  have hfront : (l :: t.entries.erase l).Perm t.entries := (List.perm_cons_erase hmem).symm
  rw [h.entries_merge hl hskip, filter_ne_eq_erase t.nodup_entries, List.take_of_length_le]
  · exact hfront
  · rw [hfront.length_eq, length_entries]
    exact t.cache.length_le

/-- A location that is new comes in front of the others. -/
theorem entries_merge_of_new (hnew : l ∉ t.entries) (hskip : t.skips l = false) :
    (t.merge l).2.entries = (l :: t.entries).take t.cache.capacity := by
  have hothers : (t.entries.filter fun l' => l' ≠ l) = t.entries :=
    List.filter_eq_self.2 fun l' hl' => by simpa using fun heq : l' = l => hnew (heq ▸ hl')
  rw [h.entries_merge hl hskip, hothers]

/-- **One location** is new and inserted, or it changes nothing but the order of use. -/
theorem merge_cases :
    (t.merge l).1 = true ∧ l ∉ t.entries ∧
        (t.merge l).2.entries = (l :: t.entries).take t.cache.capacity ∨
      (t.merge l).1 = false ∧ (t.merge l).2.entries.Perm t.entries := by
  cases hskip : t.skips l with
  | true =>
    obtain ⟨hflag, hcache⟩ := merge_of_skips hskip
    exact Or.inr ⟨hflag, by rw [entries, hcache]; exact List.Perm.refl _⟩
  | false =>
    have hflag := (merge_of_not_skips hskip).1
    by_cases hmem : l ∈ t.entries
    · rw [(h.contains_iff hl).2 hmem] at hflag
      exact Or.inr ⟨hflag, h.perm_merge_of_mem hl hmem⟩
    · rw [Bool.eq_false_iff.2 (mt (h.contains_iff hl).1 hmem)] at hflag
      exact Or.inl ⟨hflag, hmem, h.entries_merge_of_new hl hmem hskip⟩

end FiledApart

/-! ## Histories -/

theorem mergeAll_append (t : LocationTable) (ls ls' : List Location) :
    (t.mergeAll (ls ++ ls')).2 = ((t.mergeAll ls).2.mergeAll ls').2 := by
  induction ls generalizing t with
  | nil => rfl
  | cons l ls ih => exact ih (t.merge l).2

theorem mergeAll_concat (t : LocationTable) (ls : List Location) (l : Location) :
    (t.mergeAll (ls ++ [l])).2 = ((t.mergeAll ls).2.merge l).2 :=
  mergeAll_append t ls [l]

theorem size_le_size_mergeAll (t : LocationTable) (ls : List Location) :
    t.size ≤ (t.mergeAll ls).2.size := by
  induction ls generalizing t with
  | nil => exact le_rfl
  | cons l ls ih => exact (t.size_le_size_merge l).trans (ih (t.merge l).2)

/-- The room and the probability of a skip stay. -/
theorem settings_mergeAll (t : LocationTable) (ls : List Location) :
    (t.mergeAll ls).2.cache.capacity = t.cache.capacity ∧ (t.mergeAll ls).2.skip = t.skip := by
  induction ls generalizing t with
  | nil => exact ⟨rfl, rfl⟩
  | cons l ls ih =>
    obtain ⟨hcapacity, hskip⟩ := ih (t.merge l).2
    exact ⟨hcapacity.trans (capacity_merge t l), hskip⟩

theorem FiledApart.mergeAll (h : t.FiledApart ls) {told : List Location} (htold : ∀ l ∈ told, l ∈ ls) :
    (t.mergeAll told).2.FiledApart ls := by
  induction told generalizing t with
  | nil => exact h
  | cons l told ih =>
    rw [List.forall_mem_cons] at htold
    exact ih (h.merge htold.1) htold.2

/-- Nothing is skipped if skips are impossible. -/
theorem skips_of_impossible (hskip : t.skip.chance = 0) (l : Location) : t.skips l = false := by
  have hcoin : (t.coins.coin t.skip).1 = false := by simp [Draws.coin, hskip]
  rw [skips, hcoin, Bool.and_false]

/-- If skips are certain, a location is skipped as soon as there is no room for it. -/
theorem skips_of_certain (hskip : t.skip.chance = 2 ^ 64) (l : Location) :
    t.skips l = (!t.cache.contains l.key && t.cache.isFull) := by
  have hcoin : (t.coins.coin t.skip).1 = true := by
    rw [Draws.coin, if_pos hskip]
  rw [skips, hcoin, Bool.and_true]

section
variable {told : List Location} (hempty : t.entries = []) (hfiled : t.FiledApart ls)
include hempty hfiled

/-- **A table that never skips** keeps the locations that were told last, the last one first. -/
theorem entries_mergeAll_of_impossible (hskip : t.skip.chance = 0) (htold : ∀ l ∈ told, l ∈ ls) :
    (t.mergeAll told).2.entries = told.reverse.eraseDups.take t.cache.capacity := by
  induction told using List.reverseRecOn with
  | nil => simpa [mergeAll] using hempty
  | append_singleton told l ih =>
    obtain ⟨htold, hl⟩ := List.forall_mem_append.1 htold
    obtain ⟨hcapacity, hskip'⟩ := t.settings_mergeAll told
    have hnoskip : (t.mergeAll told).2.skips l = false := skips_of_impossible (hskip' ▸ hskip) l
    rw [mergeAll_concat, (hfiled.mergeAll htold).entries_merge (List.forall_mem_singleton.1 hl) hnoskip,
      ih htold, hcapacity, List.reverse_append, List.reverse_singleton, List.singleton_append,
      eraseDups_cons_ne, eraseDups_filter]
    exact QueryLog.take_cons_filter_take (nodup_eraseDups told.reverse) l t.cache.capacity

/-- **A table that skips whenever it can** keeps the locations that were told first. -/
theorem perm_mergeAll_of_certain (hskip : t.skip.chance = 2 ^ 64) (htold : ∀ l ∈ told, l ∈ ls) :
    (t.mergeAll told).2.entries.Perm (told.eraseDups.take t.cache.capacity) := by
  induction told using List.reverseRecOn with
  | nil => simp [mergeAll, hempty]
  | append_singleton told l ih =>
    obtain ⟨htold, hl⟩ := List.forall_mem_append.1 htold
    replace hl : l ∈ ls := List.forall_mem_singleton.1 hl
    replace ih := ih htold
    obtain ⟨hcapacity, hskip'⟩ := t.settings_mergeAll told
    have hfiled' := hfiled.mergeAll htold
    have hcertain := skips_of_certain (t := (t.mergeAll told).2) (hskip' ▸ hskip) l
    rw [mergeAll_concat, eraseDups_concat]
    generalize (t.mergeAll told).2 = t' at *
    have hlength := ih.length_eq
    rw [length_entries, List.length_take] at hlength
    by_cases hmem : l ∈ t'.entries
    · have hold : l ∈ told := List.mem_eraseDups.1 (List.mem_of_mem_take (ih.subset hmem))
      rw [if_pos hold, List.append_nil]
      exact (hfiled'.perm_merge_of_mem hl hmem).trans ih
    · have hcontains : t'.cache.contains l.key = false :=
        Bool.eq_false_iff.2 (mt (hfiled'.contains_iff hl).1 hmem)
      rw [hcontains, Bool.not_false, Bool.true_and] at hcertain
      cases hfull : t'.cache.isFull with
      | true =>
        -- without room for another one, the first locations are complete
        have hroom : t.cache.capacity ≤ told.eraseDups.length := by
          have hsize : t'.cache.capacity ≤ t'.size := of_decide_eq_true hfull
          omega
        have hsame : (t'.merge l).2.entries = t'.entries := by
          rw [entries, (merge_of_skips (hcertain.trans hfull)).2, entries]
        rw [hsame, List.take_append_of_le_length hroom]
        exact ih
      | false =>
        have hroom : told.eraseDups.length + 1 ≤ t.cache.capacity := by
          have hsize : ¬ t'.cache.capacity ≤ t'.size := of_decide_eq_false hfull
          omega
        rw [List.take_of_length_le (Nat.le_of_succ_le hroom)] at ih
        have hnew : l ∉ told := fun hold => hmem (ih.symm.subset (List.mem_eraseDups.2 hold))
        rw [if_neg hnew, hfiled'.entries_merge_of_new hl hmem (hcertain.trans hfull),
          List.take_of_length_le, List.take_of_length_le]
        · exact (ih.cons l).trans (List.perm_append_singleton l _).symm
        · rwa [List.length_append, List.length_singleton]
        · rwa [List.length_cons, ih.length_eq, hcapacity]

end

/-! ## Calls -/

/-- A call that tells a table where metrics are. -/
inductive Note
  /-- One location. -/
  | one (l : Location)
  /-- Several locations at once. -/
  | batch (ls : List Location)

/-- The locations of a call. -/
def Note.locations : Note → List Location
  | one l => [l]
  | batch ls => ls

/-- Makes a call; tells whether anything is new in the table. -/
def note (t : LocationTable) : Note → Bool × LocationTable
  | .one l => t.merge l
  | .batch ls => t.mergeAll ls

/-- The table after some calls. -/
def afterNotes (t : LocationTable) : List Note → LocationTable
  | [] => t
  | n :: notes => (t.note n).2.afterNotes notes

/-- All locations that are told in some calls, in order. -/
def toldIn (notes : List Note) : List Location :=
  notes.flatMap Note.locations

theorem note_eq (t : LocationTable) (n : Note) : (t.note n).2 = (t.mergeAll n.locations).2 := by
  cases n <;> rfl

/-- It makes no difference in which calls locations are told. -/
theorem afterNotes_eq (t : LocationTable) (notes : List Note) :
    t.afterNotes notes = (t.mergeAll (toldIn notes)).2 := by
  induction notes generalizing t with
  | nil => rfl
  | cons n notes ih =>
    rw [afterNotes, ih, note_eq, ← mergeAll_append]
    rfl

/-- **What a table keeps of its history.**  Of locations with keys of their own, a table that
    skips whenever it can always has exactly those that were told first, as many as it has places,
    and a table that never skips those that were told last, the last one first.  With any coins,
    one more location is either new and goes in front, at most to the loss of the last one, or
    is reported as not new, and the table has the same locations as before.  No call makes the
    table smaller. -/
theorem entries_of_notes (capacity : ℕ) (skip : Binary64) (coins : Draws)
    (hkeys : Set.InjOn Location.key ls) {notes : List Note} (htold : ∀ l ∈ toldIn notes, l ∈ ls) :
    let t := (empty capacity skip coins).afterNotes notes
    (Binary64.one.le skip = true →
        t.entries.Perm ((toldIn notes).eraseDups.take (max capacity 1))) ∧
      (skip.le .zero = true →
        t.entries = (toldIn notes).reverse.eraseDups.take (max capacity 1)) ∧
      (∀ l ∈ ls,
        (t.merge l).1 = true ∧ l ∉ t.entries ∧
            (t.merge l).2.entries = (l :: t.entries).take (max capacity 1) ∨
          (t.merge l).1 = false ∧ (t.merge l).2.entries.Perm t.entries) ∧
      ∀ n, t.size ≤ (t.note n).2.size := by
  intro t
  have ht : t = ((empty capacity skip coins).mergeAll (toldIn notes)).2 := afterNotes_eq _ notes
  have hfiled := filedApart_empty capacity skip coins hkeys
  obtain ⟨hcapacity, -⟩ := (empty capacity skip coins).settings_mergeAll (toldIn notes)
  refine ⟨fun hskip => ?_, fun hskip => ?_, fun l hl => ?_, fun n => ?_⟩
  · rw [ht]
    exact perm_mergeAll_of_certain rfl hfiled (Binary64.chance_of_one_le hskip) htold
  · rw [ht]
    exact entries_mergeAll_of_impossible rfl hfiled (Binary64.chance_of_le_zero hskip) htold
  · have hcases := (hfiled.mergeAll htold).merge_cases hl
    rw [hcapacity, ← ht] at hcases
    exact hcases
  · rw [note_eq]
    exact t.size_le_size_mergeAll n.locations

namespace Sample

/-- The peer `a:1` has `x`. -/
def xAtA : Location :=
  ⟨⟨"a", 1⟩, "x"⟩

/-- The peer `b:1` has it too. -/
def xAtB : Location :=
  ⟨⟨"b", 1⟩, "x"⟩

/-- The first peer has `y` as well. -/
def yAtA : Location :=
  ⟨⟨"a", 1⟩, "y"⟩

/-- Three locations, the first of which is told again at the end. -/
def notes : List Note :=
  [.batch [xAtA, xAtB], .one yAtA, .one xAtA]

/-- A table for two locations keeps those that were told first, or those that were told last. -/
theorem entries_of_notes_three :
    Set.InjOn Location.key {l | l ∈ toldIn notes} ∧ Binary64.one.le .one = true ∧
      Binary64.zero.le .zero = true ∧
      ((empty 2 .one (.ofSeed 7)).afterNotes notes).entries.Perm [xAtA, xAtB] ∧
      ((empty 2 .zero (.ofSeed 7)).afterNotes notes).entries = [xAtA, yAtA] := by
  have hkeys : Set.InjOn Location.key {l | l ∈ toldIn notes} := by
    have hall : ∀ l ∈ toldIn notes, ∀ l' ∈ toldIn notes, l.key = l'.key → l = l' := by decide +kernel
    exact fun l hl l' hl' => hall l hl l' hl'
  have hone : Binary64.one.le .one = true := by decide +kernel
  have hzero : Binary64.zero.le .zero = true := by decide +kernel
  refine ⟨hkeys, hone, hzero, ?_, ?_⟩
  · have hfirst : (toldIn notes).eraseDups.take (max 2 1) = [xAtA, xAtB] := by decide +kernel
    exact hfirst ▸ (entries_of_notes 2 .one (.ofSeed 7) hkeys fun _ hl => hl).1 hone
  · have hlast : (toldIn notes).reverse.eraseDups.take (max 2 1) = [xAtA, yAtA] := by decide +kernel
    exact hlast ▸ (entries_of_notes 2 .zero (.ofSeed 7) hkeys fun _ hl => hl).2.1 hzero

end Sample

end LocationTable

end OverlayCensus
