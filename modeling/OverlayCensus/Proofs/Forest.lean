/-
  OverlayCensus — ways ahead in a forest.

  A link of a forest is the only way between its ends, so what goes over it and never back has
  less and less ahead of it (`ahead`).

  * `ahead_ssubset`, `mem_ahead_iff`: what is ahead after one more link, and what that leaves
    out;
  * `disjoint_ahead`: links that leave a vertex lead to different parts of the forest;
  * `eq_of_not_mem_ahead`: only one link comes to a vertex from where another vertex is.
-/
import Mathlib

namespace OverlayCensus

/-- The vertices ahead of what comes to a vertex from another one: those that can be reached
    from there without going back. -/
def ahead {V : Type} (G : SimpleGraph V) (s r : V) : Set V :=
  {v | (G.deleteEdges {s(s, r)}).Reachable r v}

section
variable {V : Type} {G : SimpleGraph V} {s r t u v : V}

theorem mem_ahead_self (G : SimpleGraph V) (s r : V) : r ∈ ahead G s r :=
  SimpleGraph.Reachable.refl r

theorem adj_deleteEdges_iff {u v : V} : (G.deleteEdges {s(s, r)}).Adj u v ↔
    G.Adj u v ∧ ¬ (u = s ∧ v = r ∨ u = r ∧ v = s) := by
  rw [SimpleGraph.deleteEdges_adj, Set.mem_singleton_iff, Sym2.eq_iff]

/-- A step that is not back over the link that was taken leads to what is ahead. -/
theorem mem_ahead_of_adj (hu : u ∈ ahead G s r) (hadj : G.Adj u v)
    (hback : ¬ (u = s ∧ v = r ∨ u = r ∧ v = s)) : v ∈ ahead G s r :=
  SimpleGraph.Reachable.trans hu (adj_deleteEdges_iff.2 ⟨hadj, hback⟩).reachable

/-- What is connected to an end of a link lies ahead of one of both ends. -/
theorem mem_ahead_or_mem_ahead (s : V) (hreach : G.Reachable r v) :
    v ∈ ahead G s r ∨ v ∈ ahead G r s := by
  rw [SimpleGraph.reachable_iff_reflTransGen] at hreach
  induction hreach with
  | refl => exact Or.inl (mem_ahead_self G s r)
  | @tail u v _ hadj ih =>
    by_cases hlink : u = s ∧ v = r ∨ u = r ∧ v = s
    · rcases hlink with ⟨-, rfl⟩ | ⟨-, rfl⟩
      · exact Or.inl (mem_ahead_self G s v)
      · exact Or.inr (mem_ahead_self G r v)
    · exact ih.imp (fun hu => mem_ahead_of_adj hu hadj hlink)
        fun hu => mem_ahead_of_adj hu hadj fun h => hlink h.symm

/-- There is not more ahead than all ends of links. -/
theorem finite_ahead_of_adj {ends : List V} (hends : ∀ u v, G.Adj u v → v ∈ ends) (s r : V) :
    (ahead G s r).Finite := by
  refine (List.finite_toSet (r :: ends)).subset fun v hv => ?_
  have hwalk : Relation.ReflTransGen (G.deleteEdges {s(s, r)}).Adj r v :=
    (SimpleGraph.reachable_iff_reflTransGen r v).1 hv
  rcases hwalk.cases_tail with rfl | ⟨u, -, hadj⟩
  · exact List.mem_cons_self
  · exact List.mem_cons_of_mem _ (hends u v (adj_deleteEdges_iff.1 hadj).1)

variable (hforest : G.IsAcyclic)
include hforest

/-- The way ahead does not lead back. -/
theorem not_mem_ahead (hadj : G.Adj s r) : s ∉ ahead G s r := fun hs =>
  SimpleGraph.isBridge_iff.1 (SimpleGraph.isAcyclic_iff_forall_adj_isBridge.1 hforest hadj)
    (SimpleGraph.Reachable.symm hs)

/-- **In a forest, what is passed on has less ahead of it**, as it never comes back. -/
theorem ahead_ssubset (hadj : G.Adj r t) (hne : t ≠ s) : ahead G r t ⊂ ahead G s r := by
  have hback : ∀ v ∈ ahead G r t, v ≠ r := by
    rintro v hv rfl
    exact not_mem_ahead hforest hadj hv
  refine (Set.ssubset_iff_of_subset fun v hv => ?_).2
    ⟨r, mem_ahead_self G s r, fun hr => hback r hr rfl⟩
  have hwalk : Relation.ReflTransGen (G.deleteEdges {s(r, t)}).Adj t v :=
    (SimpleGraph.reachable_iff_reflTransGen t v).1 hv
  clear hv
  induction hwalk with
  | refl =>
    refine mem_ahead_of_adj (mem_ahead_self G s r) hadj ?_
    rintro (⟨-, htr⟩ | ⟨-, hts⟩)
    · exact hadj.ne htr.symm
    · exact hne hts
  | @tail u v hu hstep ih =>
    -- neither end of the step is `r`, so the way does not go back from there either
    have hu' : u ∈ ahead G r t := (SimpleGraph.reachable_iff_reflTransGen t u).2 hu
    have hv' : v ∈ ahead G r t := SimpleGraph.Reachable.trans hu' hstep.reachable
    refine mem_ahead_of_adj ih (adj_deleteEdges_iff.1 hstep).1 ?_
    rintro (⟨-, hv⟩ | ⟨hu, -⟩)
    · exact hback v hv' hv
    · exact hback u hu' hu

/-- **What is ahead** is the next vertex and what is ahead of it in all other directions. -/
theorem mem_ahead_iff (hadj : G.Adj s r) :
    v ∈ ahead G s r ↔ v = r ∨ ∃ t, G.Adj r t ∧ t ≠ s ∧ v ∈ ahead G r t := by
  constructor
  · intro hv
    have hwalk : Relation.ReflTransGen (G.deleteEdges {s(s, r)}).Adj r v :=
      (SimpleGraph.reachable_iff_reflTransGen r v).1 hv
    clear hv
    induction hwalk with
    | refl => exact Or.inl rfl
    | @tail u v _ hstep ih =>
      obtain ⟨huv, hlink⟩ := adj_deleteEdges_iff.1 hstep
      rcases ih with rfl | ⟨t, ht, hts, hu⟩
      · refine Or.inr ⟨v, huv, ?_, mem_ahead_self G u v⟩
        rintro rfl
        exact hlink (Or.inr ⟨rfl, rfl⟩)
      · by_cases hvr : v = r
        · exact Or.inl hvr
        · refine Or.inr ⟨t, ht, hts, mem_ahead_of_adj hu huv ?_⟩
          rintro (⟨rfl, -⟩ | ⟨-, hv⟩)
          · exact not_mem_ahead hforest ht hu
          · exact hvr hv
  · rintro (rfl | ⟨t, ht, hts, hv⟩)
    · exact mem_ahead_self G s v
    · exact (ahead_ssubset hforest ht hts).subset hv

/-- The ends of a link have different vertices ahead of them. -/
theorem disjoint_ahead_swap (hadj : G.Adj s r) : Disjoint (ahead G s r) (ahead G r s) := by
  rw [Set.disjoint_left]
  intro v hv hv'
  rw [ahead, Sym2.eq_swap] at hv'
  exact not_mem_ahead hforest hadj (SimpleGraph.Reachable.trans hv (SimpleGraph.Reachable.symm hv'))

/-- **Links that leave a vertex lead to different parts of a forest.** -/
theorem disjoint_ahead (ht : G.Adj r t) (hu : G.Adj r u) (hne : t ≠ u) :
    Disjoint (ahead G r t) (ahead G r u) :=
  (disjoint_ahead_swap hforest ht).mono_right (ahead_ssubset hforest hu hne.symm).subset

/-- **Only one link comes to a vertex from where another vertex is.** -/
theorem eq_of_not_mem_ahead (hs : G.Adj s r) (ht : G.Adj t r) (hreach : G.Reachable r v)
    (hsv : v ∉ ahead G s r) (htv : v ∉ ahead G t r) : s = t := by
  by_contra hne
  exact Set.disjoint_left.1 (disjoint_ahead hforest hs.symm ht.symm hne)
    ((mem_ahead_or_mem_ahead s hreach).resolve_left hsv)
    ((mem_ahead_or_mem_ahead t hreach).resolve_left htv)

end

end OverlayCensus
