/-
  OverlayCensus — whether an overlay hangs together does not depend on how it is searched.

  A search marks the first position and goes on from marked ones, in any order
  (`SearchStep`): from the one that was marked last, as the walk does, or from the one that was
  marked first, level by level.  Every step takes a position that was put aside once, so there
  are at most as many steps as vertices, and all searches end with the same marks.

  * `Walked.searchStep`, `pending_searchStep`: what a step keeps, and what it uses up;
  * `length_le_of_search`: no search takes more steps than there are vertices;
  * `marks_of_search`, `search_walk`: where searches end, and that the walk is one of them;
  * `Simple.forall_path_iff`: paths to the first vertex make up paths between any two;
  * `isFullyReachable_spec`: the answer is right, whatever the search.
-/
import Mathlib
import OverlayCensus.Proofs.OverlayReachable

namespace OverlayCensus.Overlay

open Relation (ReflTransGen)

variable {o : Overlay} {s s' : Array Bool × List ℕ}

/-! ## Searches -/

/-- The first position is marked and put aside, if there is one. -/
def searchStart (o : Overlay) : Array Bool × List ℕ :=
  mark (Array.replicate o.size false, []) 0

/-- One of the positions that were put aside is taken, and those to which it is linked are
    marked.  What was not marked before is put aside in front of the others, so that always
    to take the last one is to search level by level. -/
def SearchStep (o : Overlay) (s s' : Array Bool × List ℕ) : Prop :=
  ∃ before i after, s.2 = before ++ i :: after ∧
    s' = (o.targetsAt i).foldl mark (s.1, before ++ after)

/-- It makes no difference in which order positions are put aside. -/
theorem Walked.perm {marked : Array Bool} {aside aside' : List ℕ} (h : o.Walked (marked, aside))
    (hperm : aside.Perm aside') : o.Walked (marked, aside') where
  size_eq := h.size_eq
  stacked i hi := h.stacked i (hperm.symm.subset hi)
  sound := h.sound
  closed i j hi hout := h.closed i j hi fun hmem => hout (hperm.subset hmem)

theorem Walked.searchStep (hin : ∀ a b, o.Adj a b → b < o.size) (h : o.Walked s)
    (hstep : o.SearchStep s s') : o.Walked s' := by
  obtain ⟨marked, aside⟩ := s
  obtain ⟨before, i, after, rfl, rfl⟩ := hstep
  exact (h.perm List.perm_middle).step hin

/-- A step uses up one position. -/
theorem pending_searchStep (hstep : o.SearchStep s s') : pending s' + 1 = pending s := by
  obtain ⟨marked, aside⟩ := s
  obtain ⟨before, i, after, rfl, rfl⟩ := hstep
  rw [pending_markAll]
  simp only [pending, List.length_append, List.length_cons]
  omega

theorem SearchStep.keeps {i : ℕ} (hstep : o.SearchStep s s') (hi : s.1[i]? = some true) :
    s'.1[i]? = some true := by
  obtain ⟨before, j, after, -, rfl⟩ := hstep
  exact getElem?_markAll_of_marked _ hi

theorem exists_searchStep (h : s.2 ≠ []) : ∃ s', o.SearchStep s s' := by
  obtain ⟨marked, aside⟩ := s
  obtain ⟨i, aside, rfl⟩ := List.exists_cons_of_ne_nil h
  exact ⟨_, [], i, aside, rfl, rfl⟩

/-! ## Where searches end -/

/-- **A search takes at most as many steps as there are vertices**, in whatever order. -/
theorem length_le_of_search {run : ℕ → Array Bool × List ℕ} {n : ℕ} (hstart : run 0 = o.searchStart)
    (hrun : ∀ k < n, o.SearchStep (run k) (run (k + 1))) : n ≤ o.size := by
  have hpending : ∀ k ≤ n, pending (run k) + k = o.size := by
    intro k hk
    induction k with
    | zero =>
      rw [hstart]
      exact o.pending_start
    | succ k ih =>
      have hstep := pending_searchStep (hrun k hk)
      have hbefore := ih (Nat.le_of_succ_le hk)
      omega
  have hend := hpending n le_rfl
  omega

theorem walked_of_search (hin : ∀ a b, o.Adj a b → b < o.size)
    (h : ReflTransGen o.SearchStep o.searchStart s) :
    o.Walked s ∧ (0 < o.size → s.1[0]? = some true) := by
  induction h with
  | refl => exact ⟨o.walked_start, getElem?_start⟩
  | tail _ hstep ih =>
    exact ⟨ih.1.searchStep hin hstep, fun hsize => hstep.keeps (ih.2 hsize)⟩

/-- **The marks at the end** are the same, whatever the search. -/
theorem marks_of_search (hin : ∀ a b, o.Adj a b → b < o.size)
    (h : ReflTransGen o.SearchStep o.searchStart s) (hend : s.2 = []) : s.1 = o.reached := by
  obtain ⟨marked, aside⟩ := s
  obtain rfl : aside = [] := hend
  obtain ⟨hwalked, hfirst⟩ := walked_of_search hin h
  have hsize : o.reached.size = o.size :=
    (Walked.walk hin o.size _ o.walked_start o.pending_start.le).1.size_eq
  refine Array.ext (hwalked.size_eq.trans hsize.symm) fun i hi hi' => ?_
  have hiff := (hwalked.getElem?_iff (i := i) hfirst).trans (getElem?_reached hin).symm
  rw [Array.getElem?_eq_getElem hi, Array.getElem?_eq_getElem hi', Option.some_inj,
    Option.some_inj] at hiff
  exact Bool.eq_iff_iff.2 hiff

/-- **The walk is a search** that is carried to its end. -/
theorem search_walk : ∀ (steps : ℕ) (s : Array Bool × List ℕ), pending s ≤ steps →
    ReflTransGen o.SearchStep s (o.walk steps s, [])
  | 0, (_, []), _ => .refl
  | _ + 1, (_, []), _ => .refl
  | 0, (_, _ :: _), hsteps => by simp [pending] at hsteps
  | steps + 1, (marked, i :: aside), hsteps => by
    have hstep : o.SearchStep (marked, i :: aside) ((o.targetsAt i).foldl mark (marked, aside)) :=
      ⟨[], i, aside, rfl, rfl⟩
    have huses := pending_searchStep hstep
    exact .head hstep (search_walk steps _ (by omega))

/-! ## Paths -/

theorem Simple.path_symm {a b : ℕ} (h : o.Simple) (hpath : ReflTransGen o.Adj a b) :
    ReflTransGen o.Adj b a := by
  induction hpath with
  | refl => exact .refl
  | tail _ hab ih => exact .head (h.adj_symm hab) ih

/-- If paths lead from the first vertex to all others, paths lead from each vertex to each. -/
theorem Simple.forall_path_iff (h : o.Simple) :
    (∀ i < o.size, ReflTransGen o.Adj 0 i) ↔
      ∀ i < o.size, ∀ j < o.size, ReflTransGen o.Adj i j := by
  constructor
  · exact fun hall i hi j hj => (h.path_symm (hall i hi)).trans (hall j hj)
  · exact fun hall i hi => hall 0 (Nat.zero_lt_of_lt hi) i hi

/-- **The answer is right.**  An overlay whose links make up a graph is reachable if and only if a
    path leads from each vertex to each; so is one without vertices.  Every search comes to its
    end, after at most as many steps as there are vertices and with the marks from which the
    answer is read off; one of them is the walk. -/
theorem isFullyReachable_spec (h : o.Simple) :
    (o.isFullyReachable = true ↔ ∀ i < o.size, ∀ j < o.size, ReflTransGen o.Adj i j) ∧
      (∀ (run : ℕ → Array Bool × List ℕ) (n : ℕ), run 0 = o.searchStart →
        (∀ k < n, o.SearchStep (run k) (run (k + 1))) → n ≤ o.size) ∧
      (∀ s, ReflTransGen o.SearchStep o.searchStart s →
        s.2 = [] ∧ s.1 = o.reached ∨ ∃ s', o.SearchStep s s') ∧
      ReflTransGen o.SearchStep o.searchStart (o.reached, []) := by
  have hin : ∀ a b, o.Adj a b → b < o.size := fun _ _ hab => h.lt_size hab
  refine ⟨(isFullyReachable_iff hin).trans h.forall_path_iff, fun _ _ => length_le_of_search,
    fun s hs => ?_, search_walk o.size _ o.pending_start.le⟩
  by_cases hend : s.2 = []
  · exact Or.inl ⟨hend, marks_of_search hin hs hend⟩
  · exact Or.inr (exists_searchStep hend)

namespace Sample

/-- Four peers, none of which has devices. -/
def fourEnds : List EdgeEnd :=
  [⟨0, ⟨"a", 1⟩, 0⟩, ⟨1, ⟨"b", 1⟩, 0⟩, ⟨2, ⟨"c", 1⟩, 0⟩, ⟨3, ⟨"d", 1⟩, 0⟩]

/-- Four peers in two pairs. -/
def pairs : Overlay :=
  ((bare ⟨1, 2⟩ fourEnds).link 0 2 1).link 1 3 1

/-- The pairs with a link between them. -/
def row : Overlay :=
  pairs.link 3 2 1

theorem simple_pairs : pairs.Simple := by
  have hfirst : ((bare ⟨1, 2⟩ fourEnds).link 0 2 1).Simple :=
    (simple_bare ⟨1, 2⟩ fourEnds).link (by decide) (by decide) (by decide) (not_adj_bare _ _ _ _) 1
  have hnew : 3 ∉ ((bare ⟨1, 2⟩ fourEnds).link 0 2 1).targetsAt 1 := by decide
  exact hfirst.link (by decide) (by decide) (by decide) hnew 1

theorem simple_row : row.Simple := by
  have hnew : 2 ∉ pairs.targetsAt 3 := by decide
  exact simple_pairs.link (by decide) (by decide) (by decide) hnew 1

/-- There are paths between all four only with the link. -/
theorem isFullyReachable_spec_row :
    pairs.Simple ∧ (¬ ∀ i < pairs.size, ∀ j < pairs.size, ReflTransGen pairs.Adj i j) ∧
      row.Simple ∧ ∀ i < row.size, ∀ j < row.size, ReflTransGen row.Adj i j := by
  have hpairs : pairs.isFullyReachable = false := by decide +kernel
  have hrow : row.isFullyReachable = true := by decide +kernel
  refine ⟨simple_pairs, fun hall => ?_, simple_row, (isFullyReachable_spec simple_row).1.1 hrow⟩
  exact absurd ((isFullyReachable_spec simple_pairs).1.2 hall) (Bool.eq_false_iff.1 hpairs)

end Sample

end OverlayCensus.Overlay
