/-
  OverlayCensus — the walk marks what links lead to.

  Between two steps of the walk every marked position is joined to the first one, and
  leads to marked positions only unless it is still on the stack (`Walked`).  A step takes
  one position from the stack, and what it puts there was unmarked, so the walk ends with
  an empty stack.

  * `Walked.step`, `Walked.walk`: one step, and all of them;
  * `getElem?_reached`, `isFullyReachable_iff`: the marks at the end.
-/
import Mathlib
import OverlayCensus.Overlay.Reachable
import OverlayCensus.Proofs.OverlayLinks

namespace OverlayCensus.Overlay

open Relation (ReflTransGen)

/-! ## Marking -/

section
variable {state : Array Bool × List ℕ} {i j : ℕ}

theorem getElem?_mark (state : Array Bool × List ℕ) (i j : ℕ) :
    (mark state i).1[j]? = if j = i then state.1[j]?.map fun _ => true else state.1[j]? := by
  cases hi : state.1[i]? with
  | none => grind [mark]
  | some b => cases b <;> grind [mark]

theorem size_mark (state : Array Bool × List ℕ) (i : ℕ) :
    (mark state i).1.size = state.1.size := by
  unfold mark
  split <;> simp

theorem mem_mark : j ∈ (mark state i).2 ↔ j ∈ state.2 ∨ j = i ∧ state.1[j]? = some false := by
  unfold mark
  split <;> grind

/-- The positions that a walk still has to mark or to go on from. -/
def pending (state : Array Bool × List ℕ) : ℕ :=
  state.1.toList.count false + state.2.length

theorem pending_mark (state : Array Bool × List ℕ) (i : ℕ) :
    pending (mark state i) = pending state := by
  unfold mark pending
  split
  · next h =>
    obtain ⟨hi, hfalse⟩ := Array.getElem?_eq_some_iff.1 h
    have hpos : 0 < state.1.toList.count false :=
      List.count_pos_iff.2 (Array.mem_toList_iff.2 (Array.mem_of_getElem hfalse))
    have hcount : (state.1.toList.set i true).count false = state.1.toList.count false - 1 := by
      rw [List.count_set (by simpa using hi)]
      simp [hfalse]
    simp only [Array.toList_setIfInBounds, List.length_cons, hcount]
    omega
  · rfl

theorem getElem?_markAll (ts : List ℕ) (state : Array Bool × List ℕ) (j : ℕ) :
    (ts.foldl mark state).1[j]? =
      if j ∈ ts then state.1[j]?.map fun _ => true else state.1[j]? := by
  induction ts generalizing state with
  | nil => simp
  | cons t ts ih =>
    rw [List.foldl_cons, ih, getElem?_mark]
    cases state.1[j]? <;> grind

theorem getElem?_markAll_of_marked (ts : List ℕ) (h : state.1[j]? = some true) :
    (ts.foldl mark state).1[j]? = some true := by
  rw [getElem?_markAll, h]
  simp

theorem size_markAll (ts : List ℕ) (state : Array Bool × List ℕ) :
    (ts.foldl mark state).1.size = state.1.size := by
  induction ts generalizing state with
  | nil => rfl
  | cons t ts ih => rw [List.foldl_cons, ih, size_mark]

theorem mem_markAll (ts : List ℕ) (state : Array Bool × List ℕ) :
    j ∈ (ts.foldl mark state).2 ↔ j ∈ state.2 ∨ j ∈ ts ∧ state.1[j]? = some false := by
  induction ts generalizing state with
  | nil => simp
  | cons t ts ih =>
    rw [List.foldl_cons, ih, getElem?_mark, mem_mark]
    cases state.1[j]? <;> grind

theorem pending_markAll (ts : List ℕ) (state : Array Bool × List ℕ) :
    pending (ts.foldl mark state) = pending state := by
  induction ts generalizing state with
  | nil => rfl
  | cons t ts ih => rw [List.foldl_cons, ih, pending_mark]

end

/-! ## The walk -/

variable {o : Overlay} {marked : Array Bool} {stack : List ℕ} {i j steps : ℕ}

/-- What holds of the marks and the stack between two steps. -/
structure Walked (o : Overlay) (state : Array Bool × List ℕ) : Prop where
  size_eq : state.1.size = o.size
  stacked : ∀ i ∈ state.2, state.1[i]? = some true
  sound : ∀ i, state.1[i]? = some true → ReflTransGen o.Adj 0 i
  closed : ∀ i j, state.1[i]? = some true → i ∉ state.2 → o.Adj i j → state.1[j]? = some true

theorem Walked.step (hin : ∀ a b, o.Adj a b → b < o.size) (h : o.Walked (marked, i :: stack)) :
    o.Walked ((o.targetsAt i).foldl mark (marked, stack)) := by
  have hkeeps : ∀ j : ℕ, marked[j]? = some true →
      ((o.targetsAt i).foldl mark (marked, stack)).1[j]? = some true :=
    fun _ hj => getElem?_markAll_of_marked _ hj
  refine ⟨?_, fun j hj => ?_, fun j hj => ?_, fun j k hj hout hjk => ?_⟩
  · rw [size_markAll]
    exact h.size_eq
  · rcases (mem_markAll _ _).1 hj with hj | ⟨hj, hfalse⟩
    · exact hkeeps j (h.stacked j (List.mem_cons_of_mem _ hj))
    · rw [getElem?_markAll, if_pos hj, hfalse]
      rfl
  · rw [getElem?_markAll] at hj
    split_ifs at hj with hij
    · exact (h.sound i (h.stacked i List.mem_cons_self)).tail hij
    · exact h.sound j hj
  · rw [mem_markAll, not_or] at hout
    have hk : k < marked.size := (hin j k hjk).trans_eq h.size_eq.symm
    by_cases hji : j = i
    · subst hji
      rw [getElem?_markAll, if_pos (show k ∈ o.targetsAt j from hjk)]
      exact congrArg (Option.map fun _ => true) (Array.getElem?_eq_getElem hk)
    · -- a position that is marked now and not on the stack was marked before
      have hold : marked[j]? = some true := by
        rw [getElem?_markAll] at hj
        split_ifs at hj with hij
        · cases hb : marked[j]? with
          | none => simp [hb] at hj
          | some b =>
            cases b with
            | false => exact absurd ⟨hij, hb⟩ hout.2
            | true => rfl
        · exact hj
      refine hkeeps k (h.closed j k hold ?_ hjk)
      exact fun hmem => (List.mem_cons.1 hmem).elim hji hout.1

/-- **The walk** keeps its marks and ends with an empty stack. -/
theorem Walked.walk (hin : ∀ a b, o.Adj a b → b < o.size) :
    ∀ (steps : ℕ) (state : Array Bool × List ℕ), o.Walked state → pending state ≤ steps →
      o.Walked (o.walk steps state, []) ∧
        ∀ j : ℕ, state.1[j]? = some true → (o.walk steps state)[j]? = some true
  | 0, (marked, []), h, _ => ⟨h, fun _ hj => hj⟩
  | _ + 1, (marked, []), h, _ => ⟨h, fun _ hj => hj⟩
  | 0, (marked, i :: stack), h, hsteps => by simp [pending] at hsteps
  | steps + 1, (marked, i :: stack), h, hsteps => by
    have hpending : pending ((o.targetsAt i).foldl mark (marked, stack)) ≤ steps := by
      rw [pending_markAll]
      simp only [pending, List.length_cons] at hsteps ⊢
      omega
    obtain ⟨hwalked, hkept⟩ := Walked.walk hin steps _ (h.step hin) hpending
    exact ⟨hwalked, fun j hj => hkept j (getElem?_markAll_of_marked _ hj)⟩

theorem pending_start (o : Overlay) :
    pending (mark (Array.replicate o.size false, []) 0) = o.size := by
  rw [pending_mark]
  simp [pending]

theorem walked_start (o : Overlay) : o.Walked (mark (Array.replicate o.size false, []) 0) := by
  have hmarked : ∀ i : ℕ,
      (mark (Array.replicate o.size false, []) 0).1[i]? = some true → i = 0 := by
    intro i hi
    by_contra hne
    rw [getElem?_mark, if_neg hne, Array.getElem?_replicate] at hi
    split_ifs at hi
    cases hi
  refine ⟨?_, fun i hi => ?_, fun i hi => ?_, fun i j hi hout hij => ?_⟩
  · rw [size_mark, Array.size_replicate]
  · rcases mem_mark.1 hi with hi | ⟨rfl, hfalse⟩
    · cases hi
    · rw [getElem?_mark, if_pos rfl, hfalse]
      rfl
  · rw [hmarked i hi]
  · obtain rfl := hmarked i hi
    refine absurd (mem_mark.2 (Or.inr ⟨rfl, ?_⟩)) hout
    rw [Array.getElem?_replicate, if_pos hij.lt_size]

theorem getElem?_start (hsize : 0 < o.size) :
    (mark (Array.replicate o.size false, []) 0).1[0]? = some true := by
  rw [getElem?_mark, if_pos rfl, Array.getElem?_replicate, if_pos hsize]
  rfl

/-- With an empty stack, the marks are on the positions that links join to the first one, if
    that one is marked. -/
theorem Walked.getElem?_iff (h : o.Walked (marked, []))
    (hfirst : 0 < o.size → marked[0]? = some true) :
    marked[i]? = some true ↔ i < o.size ∧ ReflTransGen o.Adj 0 i := by
  constructor
  · intro hi
    exact ⟨h.size_eq ▸ (Array.getElem?_eq_some_iff.1 hi).1, h.sound i hi⟩
  · rintro ⟨hi, hpath⟩
    induction hpath with
    | refl => exact hfirst hi
    | tail _ hab ih => exact h.closed _ _ (ih hab.lt_size) List.not_mem_nil hab

/-- **The marks at the end** are on the positions that links join to the first one. -/
theorem getElem?_reached (hin : ∀ a b, o.Adj a b → b < o.size) :
    o.reached[i]? = some true ↔ i < o.size ∧ ReflTransGen o.Adj 0 i := by
  obtain ⟨hwalked, hkept⟩ := Walked.walk hin o.size _ o.walked_start o.pending_start.le
  exact hwalked.getElem?_iff fun hsize => hkept 0 (getElem?_start hsize)

/-- **An overlay is reachable** if and only if links join all its vertices to the first. -/
theorem isFullyReachable_iff (hin : ∀ a b, o.Adj a b → b < o.size) :
    o.isFullyReachable = true ↔ ∀ i < o.size, ReflTransGen o.Adj 0 i := by
  have hsize : o.reached.size = o.size :=
    (Walked.walk hin o.size _ o.walked_start o.pending_start.le).1.size_eq
  rw [isFullyReachable, Array.all_eq_true]
  constructor
  · intro h i hi
    refine ((getElem?_reached hin).1 ?_).2
    rw [Array.getElem?_eq_getElem (hsize.symm ▸ hi)]
    exact congrArg some (h i (hsize.symm ▸ hi))
  · intro h i hi
    have hi' : i < o.size := hsize ▸ hi
    obtain ⟨_, htrue⟩ := Array.getElem?_eq_some_iff.1 ((getElem?_reached hin).2 ⟨hi', h i hi'⟩)
    exact htrue

end OverlayCensus.Overlay
