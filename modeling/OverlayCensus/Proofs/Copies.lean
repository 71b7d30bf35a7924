/-
  OverlayCensus — the copies of a query among messages.

  Every hop of a query is a message of its own, so a query that spreads is a number of
  copies with one id, and each of them carries totals.

  * `copies` are the copies of a query among some messages, `carried` the sum of their
    totals, `visited` the addressees;
  * `idsAt` are the ids of all queries among some messages to one peer;
  * `Query.IsHopOf`: what no hop changes about a query.
-/
import Mathlib
import OverlayCensus.Network

namespace OverlayCensus

/-! ## Totals -/

/-- The devices counted so far, and those of them that have the metric. -/
def Query.totals (q : Query) : ℤ × ℤ :=
  (q.checked.toInt, q.matched.toInt)

/-- A peer's devices, and those of them that have a metric. -/
def Metrics.share (m : Metrics) (metric : String) : ℤ × ℤ :=
  (m.deviceCount, m.metricCount metric)

theorem Metrics.share_nonneg (m : Metrics) (metric : String) : 0 ≤ m.share metric :=
  ⟨Int.natCast_nonneg _, Int.natCast_nonneg _⟩

@[simp] theorem Query.totals_nextHop (q : Query) (sender : PeerAddress) (checked matched : Int32) :
    (q.nextHop sender checked matched).totals = (checked.toInt, matched.toInt) := rfl

/-- A later hop of a query: only the sender, the hop and the totals differ. -/
def Query.IsHopOf (q' q : Query) : Prop :=
  q'.id = q.id ∧ q'.originator = q.originator ∧ q'.metric = q.metric ∧ q'.limit = q.limit

theorem Query.IsHopOf.refl (q : Query) : q.IsHopOf q := ⟨rfl, rfl, rfl, rfl⟩

theorem Query.IsHopOf.trans {q'' q' q : Query} (h : q''.IsHopOf q') (h' : q'.IsHopOf q) :
    q''.IsHopOf q :=
  ⟨h.1.trans h'.1, h.2.1.trans h'.2.1, h.2.2.1.trans h'.2.2.1, h.2.2.2.trans h'.2.2.2⟩

/-! ## Copies -/

/-- The query that a message carries, if it has the given id. -/
def Envelope.copyOf? (x : Uuid) (m : Envelope) : Option Query :=
  match m.message with
  | .query _ q => if q.id = x then some q else none
  | _ => none

/-- The copies of a query among messages. -/
def copies (x : Uuid) (ms : List Envelope) : List Query :=
  ms.filterMap (Envelope.copyOf? x)

/-- The sum of the totals that the copies of a query carry. -/
def carried (x : Uuid) (ms : List Envelope) : ℤ × ℤ :=
  ((copies x ms).map Query.totals).sum

/-- The peers to which copies of a query are addressed. -/
def visited (x : Uuid) (ms : List Envelope) : Finset PeerAddress :=
  ((ms.filter fun m => (m.copyOf? x).isSome).map Envelope.receiver).toFinset

/-- The id of the query that a message carries. -/
def Envelope.queryId? (m : Envelope) : Option Uuid :=
  match m.message with
  | .query _ q => some q.id
  | _ => none

/-- The ids of the queries addressed to a peer. -/
def idsAt (p : PeerAddress) (ms : List Envelope) : Finset Uuid :=
  ((ms.filter fun m => m.receiver = p).filterMap Envelope.queryId?).toFinset

variable {x : Uuid} {m : Envelope} {ms ms' : List Envelope} {q : Query}

theorem Envelope.copyOf?_eq_some_iff :
    m.copyOf? x = some q ↔ (∃ kind, m.message = .query kind q) ∧ q.id = x := by
  obtain ⟨r, msg⟩ := m
  cases msg with
  | query kind q' =>
    simp only [copyOf?, Message.query.injEq, exists_eq_left']
    split_ifs with h
    · constructor
      · rintro ⟨⟩; exact ⟨rfl, h⟩
      · rintro ⟨rfl, -⟩; rfl
    · constructor
      · simp
      · rintro ⟨rfl, h'⟩; exact absurd h' h
  | _ => simp [copyOf?]

theorem Envelope.copyOf?_query (r : PeerAddress) (kind : QueryKind) (q : Query) :
    (⟨r, .query kind q⟩ : Envelope).copyOf? q.id = some q := by
  simp [copyOf?]

@[simp] theorem copies_nil : copies x [] = [] := rfl

theorem copies_cons_of_some (h : m.copyOf? x = some q) : copies x (m :: ms) = q :: copies x ms :=
  List.filterMap_cons_some h

theorem copies_cons_of_none (h : m.copyOf? x = none) : copies x (m :: ms) = copies x ms :=
  List.filterMap_cons_none h

@[simp] theorem copies_append : copies x (ms ++ ms') = copies x ms ++ copies x ms' :=
  List.filterMap_append

theorem mem_copies : q ∈ copies x ms ↔ ∃ m ∈ ms, m.copyOf? x = some q :=
  List.mem_filterMap

theorem copies_eq_nil_iff : copies x ms = [] ↔ ∀ m ∈ ms, m.copyOf? x = none :=
  List.filterMap_eq_nil_iff

theorem copies_perm (h : ms.Perm ms') : (copies x ms).Perm (copies x ms') :=
  h.filterMap _

@[simp] theorem carried_nil : carried x [] = 0 := rfl

theorem carried_cons_of_some (h : m.copyOf? x = some q) :
    carried x (m :: ms) = q.totals + carried x ms := by
  simp [carried, copies_cons_of_some h]

theorem carried_cons_of_none (h : m.copyOf? x = none) : carried x (m :: ms) = carried x ms := by
  simp [carried, copies_cons_of_none h]

@[simp] theorem carried_append : carried x (ms ++ ms') = carried x ms + carried x ms' := by
  simp [carried]

theorem carried_perm (h : ms.Perm ms') : carried x ms = carried x ms' :=
  ((copies_perm h).map _).sum_eq

theorem carried_of_copies_eq_nil (h : copies x ms = []) : carried x ms = 0 := by
  simp [carried, h]

theorem mem_visited {p : PeerAddress} :
    p ∈ visited x ms ↔ ∃ m ∈ ms, m.receiver = p ∧ (m.copyOf? x).isSome := by
  simp only [visited, List.mem_toFinset, List.mem_map, List.mem_filter]
  constructor
  · rintro ⟨m, ⟨hm, hs⟩, hr⟩; exact ⟨m, hm, hr, hs⟩
  · rintro ⟨m, hm, hr, hs⟩; exact ⟨m, ⟨hm, hs⟩, hr⟩

theorem mem_idsAt {p : PeerAddress} :
    x ∈ idsAt p ms ↔ ∃ m ∈ ms, m.receiver = p ∧ m.queryId? = some x := by
  simp only [idsAt, List.mem_toFinset, List.mem_filterMap, List.mem_filter, decide_eq_true_eq,
    and_assoc]

theorem Envelope.isSome_copyOf?_iff : (m.copyOf? x).isSome ↔ m.queryId? = some x := by
  obtain ⟨r, msg⟩ := m
  cases msg with
  | query kind q =>
    simp only [copyOf?, queryId?, Option.some.injEq]
    split_ifs with h <;> simp [h]
  | _ => simp [copyOf?, queryId?]

theorem mem_visited_iff {p : PeerAddress} : p ∈ visited x ms ↔ x ∈ idsAt p ms := by
  simp only [mem_visited, mem_idsAt, Envelope.isSome_copyOf?_iff]

theorem visited_append_of_some (h : m.copyOf? x = some q) :
    visited x (ms ++ [m]) = insert m.receiver (visited x ms) := by
  ext p
  simp only [Finset.mem_insert, mem_visited, List.mem_append, List.mem_singleton]
  constructor
  · rintro ⟨m', hm' | rfl, hr, hs⟩
    · exact Or.inr ⟨m', hm', hr, hs⟩
    · exact Or.inl hr.symm
  · rintro (rfl | ⟨m', hm', hr, hs⟩)
    · exact ⟨m, Or.inr rfl, rfl, by rw [h]; rfl⟩
    · exact ⟨m', Or.inl hm', hr, hs⟩

theorem visited_append_of_none (h : m.copyOf? x = none) :
    visited x (ms ++ [m]) = visited x ms := by
  simp [visited, List.filter_append, h]

@[simp] theorem idsAt_nil (p : PeerAddress) : idsAt p [] = ∅ := rfl

theorem idsAt_append_of_query {p : PeerAddress} {kind : QueryKind} (hr : m.receiver = p)
    (hq : m.message = .query kind q) : idsAt p (ms ++ [m]) = insert q.id (idsAt p ms) := by
  have hid : m.queryId? = some q.id := by simp [Envelope.queryId?, hq]
  ext y
  simp only [Finset.mem_insert, mem_idsAt, List.mem_append, List.mem_singleton]
  constructor
  · rintro ⟨m', hm' | rfl, hr', hy⟩
    · exact Or.inr ⟨m', hm', hr', hy⟩
    · exact Or.inl (Option.some.inj (hy.symm.trans hid))
  · rintro (rfl | ⟨m', hm', hr', hy⟩)
    · exact ⟨m, Or.inr rfl, hr, hid⟩
    · exact ⟨m', Or.inl hm', hr', hy⟩

theorem idsAt_append_of_ne {p : PeerAddress}
    (h : m.receiver ≠ p ∨ ∀ kind q, m.message ≠ .query kind q) :
    idsAt p (ms ++ [m]) = idsAt p ms := by
  ext y
  simp only [mem_idsAt, List.mem_append, List.mem_singleton]
  constructor
  · rintro ⟨m', hm' | rfl, hr', hy⟩
    · exact ⟨m', hm', hr', hy⟩
    · rcases h with h | h
      · exact absurd hr' h
      · simp [Envelope.queryId?] at hy
  · rintro ⟨m', hm', hr', hy⟩; exact ⟨m', Or.inl hm', hr', hy⟩

/-! ## Copies that the registry receives -/

/-- The totals of a query that have come in. -/
def Results.totals (r : Results) (x : Uuid) : ℤ × ℤ :=
  match r.get? x with
  | some t => (t.totalChecked, t.totalMatched)
  | none => 0

namespace Results

theorem find?_change (x id : Uuid) (f : Tally → Tally) (rows : List (Uuid × Tally)) :
    ((change id f rows).find? fun row => row.1 = x) =
      if id = x then (rows.find? fun row => row.1 = x).map (fun row => (id, f row.2))
      else rows.find? fun row => row.1 = x := by
  induction rows with
  | nil => simp [change]
  | cons row rows ih =>
    by_cases hid : row.1 = id
    · by_cases hx : id = x
      · simp [change, hid, hx]
      · simp [change, hid, hx]
    · by_cases hx : id = x
      · subst hx; simp [change, hid, ih]
      · simp only [change, hid, hx, if_false, List.find?_cons] at ih ⊢
        rw [ih]

theorem get?_track (r : Results) (x id : Uuid) (kind : QueryKind) (limit : Int32) (now : Nat) :
    (r.track id kind limit now).get? x =
      if id = x then some ((r.get? x).getD (.start kind limit now)) else r.get? x := by
  unfold track
  cases h : r.get? id with
  | some t =>
    by_cases hx : id = x
    · subst hx; simp [h]
    · simp [hx]
  | none =>
    by_cases hx : id = x
    · subst hx
      simp only [get?, Option.map_eq_none_iff] at h
      simp [get?, List.find?_append, h]
    · simp [get?, List.find?_append, hx]

theorem get?_observe (r : Results) (x id : Uuid) (o : Observation) (now : Nat) :
    (r.observe id o now).get? x =
      if id = x then some (((r.get? x).getD (.start o.kind o.limit now)).add o now)
      else r.get? x := by
  have htrack := get?_track r x id o.kind o.limit now
  simp only [get?] at htrack
  simp only [get?, observe, find?_change]
  by_cases hx : id = x
  · simp only [hx, if_true] at htrack ⊢
    rw [Option.map_map]
    simpa using congrArg (Option.map fun t => t.add o now) htrack
  · simp only [hx, if_false] at htrack ⊢
    exact htrack

theorem totals_track (r : Results) (x id : Uuid) (kind : QueryKind) (limit : Int32) (now : Nat) :
    (r.track id kind limit now).totals x = r.totals x := by
  simp only [totals, get?_track]
  by_cases hx : id = x
  · cases h : r.get? x <;> simp [hx, Tally.start, Prod.zero_eq_mk]
  · simp [hx]

/-- The results of a query grow by the totals that its copies carry. -/
theorem totals_observeMessage (r : Results) (m : Envelope) (now : Nat) :
    (r.observeMessage m.message now).2.totals x = r.totals x + carried x [m] := by
  obtain ⟨receiver, msg⟩ := m
  cases msg with
  | query kind q =>
    simp only [observeMessage, Observation.ofMessage?, totals, get?_observe]
    by_cases hx : q.id = x
    · rw [carried_cons_of_some (q := q) (by simp [Envelope.copyOf?, hx])]
      cases h : r.get? x <;> simp [hx, Tally.add, Tally.start, Query.totals]
    · rw [carried_cons_of_none (by simp [Envelope.copyOf?, hx])]
      simp [hx]
  | _ =>
    rw [carried_cons_of_none (by simp [Envelope.copyOf?])]
    simp [observeMessage, Observation.ofMessage?]

end Results

end OverlayCensus
