/-
  OverlayCensus — a fresh query followed through a run.

  Nothing in the network knows a fresh query (`Fresh`).  As long as no log has to take
  more ids than it has places (`LogsSuffice`), a peer counts the query as new exactly
  when it has not been handed a copy before, and so it contributes to it once
  (`Follows`).

  * `follows_afterAll`: what every peer knows of the query after a run;
  * `forall_flight_afterAll`: what sending keeps holds of all messages of a run, and
    `isHop_afterAll`: all copies are hops of the query that was injected;
  * `Along` says that something holds at every delivery of a run.
-/
import Mathlib
import OverlayCensus.Proofs.Delivery

namespace OverlayCensus

namespace Network

/-! ## Conditions on a run -/

/-- Nothing in the network knows a query. -/
structure Fresh (net : Network) (x : Uuid) : Prop where
  flight : ∀ m ∈ net.flight, m.queryId? ≠ some x
  queries : ∀ n ∈ net.nodes, x ∉ n.engine.queries.ids
  contributions : ∀ n ∈ net.nodes, x ∉ n.engine.contributions
  results : net.results.get? x = none

theorem Fresh.copies_flight {net : Network} {x : Uuid} (h : net.Fresh x) :
    copies x net.flight = [] := by
  rw [copies_eq_nil_iff]
  intro m hm
  rw [← Option.not_isSome_iff_eq_none]
  exact mt Envelope.isSome_copyOf?_iff.1 (h.flight m hm)

/-- No query log is handed more different ids during a run than it has places. -/
def LogsSuffice (net : Network) (ds : List Delivery) : Prop :=
  ∀ n ∈ net.nodes,
    (idsAt n.engine.identity (net.delivered ds)).card ≤ n.engine.queries.capacity

/-- Something holds of every delivery of a run and the network before it. -/
def Along (P : Network → Delivery → Prop) (net : Network) : List Delivery → Prop
  | [] => True
  | d :: ds => P net d ∧ Along P (net.after d) ds

instance (net : Network) (ds : List Delivery) : Decidable (net.LogsSuffice ds) :=
  inferInstanceAs (Decidable (∀ n ∈ net.nodes, _))

instance Along.decidable (P : Network → Delivery → Prop) [∀ net d, Decidable (P net d)] :
    ∀ (net : Network) (ds : List Delivery), Decidable (Along P net ds)
  | _, [] => inferInstanceAs (Decidable True)
  | net, d :: ds =>
    have := Along.decidable P (net.after d) ds
    inferInstanceAs (Decidable (P net d ∧ Along P (net.after d) ds))

theorem along_append_singleton {P : Network → Delivery → Prop} {net : Network}
    {ds : List Delivery} {d : Delivery} :
    Along P net (ds ++ [d]) ↔ Along P net ds ∧ P (net.afterAll ds) d := by
  induction ds generalizing net with
  | nil => simp [Along]
  | cons d' ds ih =>
    rw [List.cons_append, Along, Along, ih, and_assoc]
    rfl

theorem idsAt_subset {p : PeerAddress} {ms ms' : List Envelope} (h : ms ⊆ ms') :
    idsAt p ms ⊆ idsAt p ms' := by
  intro y hy
  obtain ⟨m, hm, hr, hq⟩ := mem_idsAt.1 hy
  exact mem_idsAt.2 ⟨m, h hm, hr, hq⟩

theorem LogsSuffice.of_append_singleton {net : Network} {ds : List Delivery} {d : Delivery}
    (h : net.LogsSuffice (ds ++ [d])) : net.LogsSuffice ds := by
  intro n hn
  refine (Finset.card_le_card (idsAt_subset ?_)).trans (h n hn)
  rw [delivered_append_singleton]
  exact List.subset_append_left _ _

/-! ## What a peer knows of a query -/

/-- What the peer at an address knows of a query after messages have been handed over:
    it remembers the ids of all queries among them, knows the query if it was one, and
    has contributed to it once in that case. -/
structure Follows (x : Uuid) (p : PeerAddress) (ms : List Envelope) (n : Node) : Prop where
  remembers : n.engine.queries.Remembers (idsAt p ms)
  known : x ∈ n.engine.queries.ids → x ∈ idsAt p ms
  contributions : n.engine.contributions.count x = if x ∈ idsAt p ms then 1 else 0

theorem Follows.isNew_iff {q : Query} {p : PeerAddress} {ms : List Envelope} {n : Node}
    (h : Follows q.id p ms n) : n.engine.IsNew q ↔ p ∉ visited q.id ms := by
  rw [Engine.IsNew, mem_visited_iff]
  exact not_congr ⟨h.known, h.remembers.mem⟩

/-- Nothing changes with a message that is no query to the peer. -/
theorem Follows.append_of_ne {x : Uuid} {p : PeerAddress} {ms : List Envelope} {m : Envelope}
    {n n' : Node} (h : Follows x p ms n)
    (hm : m.receiver ≠ p ∨ ∀ kind q, m.message ≠ .query kind q)
    (hq : n'.engine.queries = n.engine.queries)
    (hc : n'.engine.contributions = n.engine.contributions) : Follows x p (ms ++ [m]) n' := by
  have hids : idsAt p (ms ++ [m]) = idsAt p ms := idsAt_append_of_ne hm
  exact ⟨by rw [hids, hq]; exact h.remembers, by rw [hids, hq]; exact h.known,
    by rw [hids, hc]; exact h.contributions⟩

/-- A query handed to the peer is remembered with the others. -/
theorem Follows.append_query {x : Uuid} {p : PeerAddress} {ms : List Envelope} {m : Envelope}
    {n : Node} {kind : QueryKind} {q : Query} {t : DistanceTable} (h : Follows x p ms n)
    (hr : m.receiver = p) (hq : m.message = .query kind q)
    (hroom : (idsAt p (ms ++ [m])).card ≤ n.engine.queries.capacity) :
    Follows x p (ms ++ [m]) { n with engine := n.engine.noted q t } := by
  rw [idsAt_append_of_query hr hq] at hroom
  refine ⟨?_, fun hx => ?_, ?_⟩
  · rw [idsAt_append_of_query hr hq]
    exact h.remembers.mark hroom
  · rw [idsAt_append_of_query hr hq, Finset.mem_insert]
    exact (QueryLog.eq_or_mem_of_mem_mark hx).imp_right h.known
  · rw [idsAt_append_of_query hr hq]
    have hcount := h.contributions
    by_cases hx : x = q.id
    · subst hx
      by_cases hseen : q.id ∈ idsAt p ms
      · have hnew : ¬ n.engine.IsNew q := not_not.2 (h.remembers.mem hseen)
        simp only [Engine.noted, hnew, if_false, hcount, hseen, if_true,
          Finset.mem_insert_self]
      · have hnew : n.engine.IsNew q := fun hk => hseen (h.known hk)
        simp only [Engine.noted, hnew, if_true, List.count_cons_self, hcount, hseen, if_false,
          Finset.mem_insert_self]
    · have hx' : ¬ q.id = x := fun he => hx he.symm
      have hnoted : (n.engine.noted q t).contributions.count x =
          n.engine.contributions.count x := by
        simp only [Engine.noted]
        split_ifs
        · exact List.count_cons_of_ne (fun he => hx' he)
        · rfl
      rw [hnoted, hcount]
      simp [hx]

/-! ## A peer during a run -/

/-- What a delivery does to a peer: it is handed a query, or its log and its
    contributions stay as they are. -/
theorem node_of_after {net : Network} {d : Delivery} {m : Envelope}
    (hm : net.flight[d.index]? = some m) {p : PeerAddress} (hp : p ≠ net.registry) {n' : Node}
    (hn' : (net.after d).node? p = some n') :
    ∃ n, net.node? p = some n ∧
      ((∃ kind q t, m.receiver = p ∧ m.message = .query kind q ∧
          n' = { n with engine := n.engine.noted q t }) ∨
        (m.receiver ≠ p ∨ ∀ kind q, m.message ≠ .query kind q) ∧
          n'.engine.queries = n.engine.queries ∧
          n'.engine.contributions = n.engine.contributions) := by
  have hstep := step_after hm
  generalize net.after d = next at hn' hstep
  cases hstep with
  | observed hreg => exact ⟨n', hn', Or.inr ⟨Or.inl fun h => hp (h ▸ hreg), rfl, rfl⟩⟩
  | lost _ hnone =>
    refine ⟨n', hn', Or.inr ⟨Or.inl ?_, rfl, rfl⟩⟩
    rintro rfl
    exact absurd (hn'.symm.trans hnone) (by simp)
  | refused _ _ href =>
    refine ⟨n', hn', Or.inr ⟨Or.inr fun kind q hk => ?_, rfl, rfl⟩⟩
    rw [hk, Engine.handle_query] at href
    cases href
  | @handled n r _ hn hr =>
    rw [node?_handled hn hr] at hn'
    split_ifs at hn' with hpr
    · cases hn'
      refine ⟨n, hpr ▸ hn, ?_⟩
      rcases Engine.handle_cases hr with
        ⟨kind, q, hk, t, first, rest, rfl, -⟩ | ⟨hk, ⟨t, l, hr'⟩, -⟩
      · exact Or.inl ⟨kind, q, t, hpr.symm, hk, rfl⟩
      · exact Or.inr ⟨Or.inr hk, by rw [hr']; rfl, by rw [hr']; rfl⟩
    · exact ⟨n', hn', Or.inr ⟨Or.inl fun h => hpr h.symm, rfl, rfl⟩⟩

/-- What holds of a peer at first, and after every query and every other message that is
    handed over, holds after a run. -/
theorem forall_node_afterAll {P : List Envelope → Node → Prop} {net : Network} {p : PeerAddress}
    (hp : p ≠ net.registry) (hstart : ∀ n, net.node? p = some n → P [] n)
    (hquery : ∀ ms m n kind q t, P ms n → m.receiver = p → m.message = .query kind q →
      (idsAt p (ms ++ [m])).card ≤ n.engine.queries.capacity →
        P (ms ++ [m]) { n with engine := n.engine.noted q t })
    (hother : ∀ ms m n n', P ms n → (m.receiver ≠ p ∨ ∀ kind q, m.message ≠ .query kind q) →
      n'.engine.queries = n.engine.queries → n'.engine.contributions = n.engine.contributions →
        P (ms ++ [m]) n')
    {ds : List Delivery} (hlogs : net.LogsSuffice ds) {n : Node}
    (hn : (net.afterAll ds).node? p = some n) : P (net.delivered ds) n := by
  induction ds using List.reverseRecOn generalizing n with
  | nil => exact hstart n hn
  | append_singleton ds d ih =>
    have ih := fun {n} => ih hlogs.of_append_singleton (n := n)
    rw [afterAll_append_singleton] at hn
    have hdel := delivered_append_singleton net ds d
    have hlater : net.Later (net.afterAll ds) := later_afterAll net ds
    cases hm : (net.afterAll ds).flight[d.index]? with
    | none =>
      rw [after_of_none hm] at hn
      rw [hdel, hm, Option.toList_none, List.append_nil]
      exact ih hn
    | some m =>
      rw [hm, Option.toList_some] at hdel
      rw [hdel]
      obtain ⟨n₀, hn₀, ⟨kind, q, t, hr, hq, rfl⟩ | ⟨hne, hlog, hcon⟩⟩ :=
        node_of_after hm (hlater.1 ▸ hp) hn
      · refine hquery _ m n₀ kind q t (ih hn₀) hr hq ?_
        obtain ⟨n, hn, hl⟩ := hlater.of_node? hn₀
        have hroom := hlogs n (mem_of_node? hn)
        rwa [identity_of_node? hn, hdel, ← hl.capacity] at hroom
      · exact hother _ m n₀ n (ih hn₀) hne hlog hcon

/-- **What every peer knows of a fresh query after a run.** -/
theorem follows_afterAll {net : Network} {x : Uuid} {ds : List Delivery}
    (hq : ∀ n ∈ net.nodes, x ∉ n.engine.queries.ids)
    (hc : ∀ n ∈ net.nodes, x ∉ n.engine.contributions) (hlogs : net.LogsSuffice ds)
    {p : PeerAddress} (hp : p ≠ net.registry) {n : Node} (hn : (net.afterAll ds).node? p = some n) :
    Follows x p (net.delivered ds) n := by
  refine forall_node_afterAll hp (fun n hn => ?_)
    (fun ms m n kind q t h hr hq hroom => h.append_query hr hq hroom)
    (fun ms m n n' h hm hlog hcon => h.append_of_ne hm hlog hcon) hlogs hn
  have hmem := mem_of_node? hn
  refine ⟨QueryLog.remembers_empty _, fun hx => absurd hx (hq n hmem), ?_⟩
  exact List.count_eq_zero_of_not_mem (hc n hmem)

/-- **A peer remembers every query that a run has handed to it**, whatever its log held
    before. -/
theorem remembers_afterAll {net : Network} {ds : List Delivery} (hlogs : net.LogsSuffice ds)
    {p : PeerAddress} (hp : p ≠ net.registry) {n : Node}
    (hn : (net.afterAll ds).node? p = some n) :
    n.engine.queries.Remembers (idsAt p (net.delivered ds)) := by
  refine forall_node_afterAll (P := fun ms n => n.engine.queries.Remembers (idsAt p ms)) hp
    (fun n _ => QueryLog.remembers_empty _) (fun ms m n kind q t h hr hq hroom => ?_)
    (fun ms m n n' h hm hlog _ => ?_) hlogs hn
  · rw [idsAt_append_of_query hr hq] at hroom ⊢
    exact h.mark hroom
  · rw [idsAt_append_of_ne hm, hlog]
    exact h

/-! ## What all messages of a run have in common -/

theorem mem_flight_of_step {net net' : Network} {d : Delivery} {m m' : Envelope}
    (h : net.Step d m net') (hm' : m' ∈ net'.flight) :
    m' ∈ net.flight ∨ ∃ n r, net.node? m.receiver = some n ∧
      n.engine.handle n.neighbors d.pick m.message = some r ∧
      ∃ p ∈ r.2, m' = p.envelope := by
  have hold : m' ∈ (net.without d.index).flight → m' ∈ net.flight :=
    fun h => List.mem_of_mem_eraseIdx h
  cases h with
  | observed | lost | refused => exact Or.inl (hold hm')
  | handled _ hn hr =>
    rcases List.mem_append.1 hm' with hm' | hm'
    · exact Or.inl (hold hm')
    · obtain ⟨p, hp, rfl⟩ := List.mem_map.1 hm'
      exact Or.inr ⟨_, _, hn, hr, p, hp, rfl⟩

/-- What holds of the messages in flight and of all that is sent because of them holds
    of all messages of a run. -/
theorem forall_flight_afterAll {P : Envelope → Prop} {net : Network}
    (hflight : ∀ m ∈ net.flight, P m)
    (hsend : ∀ m n n' pick r, P m → net.node? m.receiver = some n → n.Later n' →
      n'.engine.handle n'.neighbors pick m.message = some r → ∀ p ∈ r.2, P p.envelope)
    (ds : List Delivery) :
    (∀ m ∈ (net.afterAll ds).flight, P m) ∧ ∀ m ∈ net.delivered ds, P m := by
  induction ds using List.reverseRecOn with
  | nil => exact ⟨hflight, by simp⟩
  | append_singleton ds d ih =>
    rw [afterAll_append_singleton, delivered_append_singleton]
    have hlater := later_afterAll net ds
    generalize net.afterAll ds = now at ih hlater
    cases hm : now.flight[d.index]? with
    | none =>
      rw [after_of_none hm, Option.toList_none, List.append_nil]
      exact ih
    | some m =>
      have hPm : P m := ih.1 m (List.mem_of_getElem? hm)
      refine ⟨fun m' hm' => ?_, fun m' hm' => ?_⟩
      · rcases mem_flight_of_step (step_after hm) hm' with hm' | ⟨n', r, hn', hr, p, hp, rfl⟩
        · exact ih.1 m' hm'
        · obtain ⟨n, hn, hl⟩ := hlater.of_node? hn'
          exact hsend m n n' d.pick r hPm hn hl hr p hp
      · rcases List.mem_append.1 hm' with hm' | hm'
        · exact ih.2 m' hm'
        · rw [Option.toList_some, List.mem_singleton] at hm'
          exact hm' ▸ hPm

/-- If a message is a query with the id of `q`, it is a hop of it. -/
def IsHop (kind : QueryKind) (q : Query) (m : Envelope) : Prop :=
  ∀ kind' q', m.message = .query kind' q' → q'.id = q.id → kind' = kind ∧ q'.IsHopOf q

theorem isHop_of_queryId?_ne {kind : QueryKind} {q : Query} {m : Envelope}
    (h : m.queryId? ≠ some q.id) : IsHop kind q m := by
  intro kind' q' hq' hid
  simp [Envelope.queryId?, hq', hid] at h

/-- What a peer sends because of a hop is a hop. -/
theorem IsHop.sent {kind : QueryKind} {q : Query} {m : Envelope} {n : Node} {pick : Nat}
    {r : Engine × List Parcel} (hm : IsHop kind q m)
    (hr : n.engine.handle n.neighbors pick m.message = some r) {p : Parcel} (hp : p ∈ r.2) :
    IsHop kind q p.envelope := by
  intro kind' q' hq' hid
  obtain ⟨q₀, hm₀, -, hhop⟩ := Engine.query_of_sent hr hp hq'
  obtain ⟨hk, hq₀⟩ := hm kind' q₀ hm₀ (hhop.1.symm.trans hid)
  exact ⟨hk, hhop.trans hq₀⟩

/-- **All copies of a query are hops of the one that was injected.** -/
theorem isHop_afterAll {net : Network} {kind : QueryKind} {q : Query}
    (h : ∀ m ∈ net.flight, IsHop kind q m) (ds : List Delivery) :
    (∀ m ∈ (net.afterAll ds).flight, IsHop kind q m) ∧
      ∀ m ∈ net.delivered ds, IsHop kind q m :=
  forall_flight_afterAll h (fun _ _ _ _ _ hm _ _ hr _ hp => hm.sent hr hp) ds

/-! ## A query that is injected -/

/-- A network into which a query has just been sent. -/
def start (net : Network) (entry : PeerAddress) (kind : QueryKind) (q : Query) (now : Nat) :
    Network :=
  net.inject entry (.query kind q) now

section
variable {net : Network} {entry : PeerAddress} {kind : QueryKind} {q : Query} {now : Nat}

theorem copies_start (h : net.Fresh q.id) :
    copies q.id (net.start entry kind q now).flight = [q] := by
  have hnew : copies q.id [(⟨entry, .query kind q⟩ : Envelope)] = [q] :=
    copies_cons_of_some (Envelope.copyOf?_query entry kind q)
  rw [start, inject, copies_append, h.copies_flight, hnew, List.nil_append]

theorem isHop_start (h : net.Fresh q.id) :
    ∀ m ∈ (net.start entry kind q now).flight, IsHop kind q m := by
  intro m hm
  rcases List.mem_append.1 hm with hm | hm
  · exact isHop_of_queryId?_ne (h.flight m hm)
  · rw [List.mem_singleton] at hm
    subst hm
    rintro kind' q' ⟨⟩ -
    exact ⟨rfl, .refl q⟩

theorem follows_start (h : net.Fresh q.id) {ds : List Delivery}
    (hlogs : (net.start entry kind q now).LogsSuffice ds) {p : PeerAddress}
    (hp : p ≠ net.registry) {n : Node}
    (hn : ((net.start entry kind q now).afterAll ds).node? p = some n) :
    Follows q.id p ((net.start entry kind q now).delivered ds) n := by
  refine follows_afterAll ?_ ?_ hlogs hp hn
  · exact h.queries
  · exact h.contributions

end

end Network

namespace Sample

/-- A new query for a metric, which the registry asks. -/
def query (limit : Int32) : Query := .fresh (.ofNat 7) (peer 0) "t" limit

/-- A flood without a limit that has just been sent to the first peer. -/
def flooded : Network := kite.start (peer 1) .flood (query (-1)) 0

theorem fresh_query (limit : Int32) : kite.Fresh (query limit).id := by
  change kite.Fresh (.ofNat 7)
  exact ⟨by decide +kernel, by decide +kernel, by decide +kernel, by decide +kernel⟩

theorem logsSuffice_flooded : flooded.LogsSuffice (inOrder 9) := by decide +kernel

theorem copies_flooded : copies (query (-1)).id (flooded.afterAll (inOrder 9)).flight = [] := by
  decide +kernel

end Sample

end OverlayCensus
