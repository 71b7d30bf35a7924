/-
  OverlayCensus — query traffic dies out.

  A peer that passes a query on uses up one of its hops, and a reply ends at an
  originator that is no peer.  Only a flood without a limit goes on however far it has
  come; it needs a peer that has not seen it, and a log with room for all queries never
  takes one for new twice.

  * `rank`: how much a message in flight can still cause, `unheard`: how many queries are
    news to how many peers;
  * `rank_lt_of_sent`: all that a message causes has a lower rank, unless the message is
    an endless flood that is news to its addressee (`IsNews`);
  * `measure_lt`: a delivery lowers the two, taken lexicographically;
  * `queries_die_out`: so no run of deliveries goes on for ever.
-/
import Mathlib
import OverlayCensus.Proofs.FloodSending
import OverlayCensus.Proofs.FreshQuery

namespace OverlayCensus

/-! ## Hops -/

namespace Query

/-- The hops that a query has left. -/
def hopsToGo (q : Query) : ℕ :=
  (q.limit.toInt - q.hop.toInt).toNat

/-- The next hop of a query that may go on has fewer hops left. -/
theorem hopsToGo_lt {q q' : Query} (h : q.mayForward = true) (hlimit : q'.limit = q.limit)
    (hhop : q'.hop = Int32.satAdd q.hop 1) : q'.hopsToGo < q.hopsToGo := by
  have hlt : (Int32.satAdd q.hop 1).toInt < q.limit.toInt := by
    simpa [mayForward, Int32.lt_iff_toInt_lt] using h
  have hmax := q.limit.toInt_lt
  have hmin := q.hop.le_toInt
  rw [hopsToGo, hopsToGo, hlimit, hhop]
  rw [toInt_satAdd] at hlt ⊢
  -- a hop that has reached the largest number is not below any limit
  simp only [clampInt, Int32.toInt_one] at hlt ⊢
  omega

end Query

/-- A flood that no number of hops ends. -/
def Endless (kind : QueryKind) (q : Query) : Prop :=
  kind = .flood ∧ q.limit = Query.unlimited

instance (kind : QueryKind) (q : Query) : Decidable (Endless kind q) :=
  inferInstanceAs (Decidable (_ ∧ _))

theorem endless_congr {kind : QueryKind} {q q' : Query} (h : q'.IsHopOf q) :
    Endless kind q' ↔ Endless kind q := by
  rw [Endless, Endless, h.2.2.2]

namespace Engine

variable {e : Engine} {neighbors : List PeerAddress} {pick : Nat} {kind : QueryKind} {q : Query}

theorem hop_of_handled {r : Engine × List Parcel} (h : e.Handled kind q r) {p : Parcel}
    (hp : p ∈ r.2) : ∃ q', p.message = .query kind q' ∧ q'.IsHopOf q ∧
      q'.hop = Int32.satAdd q.hop 1 := by
  rcases h.mem hp with hp | hp
  · refine ⟨_, hp, next_isHopOf e q, ?_⟩
    unfold next
    split_ifs <;> rfl
  · refine ⟨_, hp, aside_isHopOf e kind q, ?_⟩
    unfold aside
    split_ifs <;> rfl

theorem receiver_onRandomWalk (h : ¬ q.mayForward = true) {p : Parcel}
    (hp : p ∈ (e.onRandomWalk neighbors pick q).2) : p.receiver = q.originator := by
  simp only [onRandomWalk, h, Bool.not_false, if_true, List.mem_singleton] at hp
  rw [hp]
  split_ifs <;> rfl

theorem receiver_onGossipQuery (h : ¬ q.mayForward = true) {p : Parcel}
    (hp : p ∈ (e.onGossipQuery kind q).2) : p.receiver = q.originator := by
  simp only [onGossipQuery, h, Bool.not_false, if_true] at hp
  split_ifs at hp <;> rw [List.mem_singleton.1 hp] <;> rfl

/-- A flood that is old, or may go no further and has a limit, goes to its originator. -/
theorem receiver_onFlood_of_end (h : ¬ e.IsNew q ∨ q.limit ≠ Query.unlimited ∧
    ¬ q.mayForward = true) {p : Parcel} (hp : p ∈ (e.onFlood neighbors pick q).2) :
    p.receiver = q.originator := by
  by_cases hnew : e.IsNew q
  · obtain ⟨hlimit, hforward⟩ := h.resolve_left (not_not.2 hnew)
    simp only [onFlood, mark, QueryLog.mark_fst, contains_eq_false hnew, hlimit, hforward,
      Bool.not_false, Bool.not_true, Bool.false_eq_true, if_false, ne_eq, not_false_eq_true,
      true_and, if_true, List.mem_singleton] at hp
    rw [hp]
    rfl
  · rw [onFlood_of_old hnew, List.mem_singleton] at hp
    rw [hp]
    rfl

/-- **A query that has come to its end goes to its originator only.** -/
theorem receiver_of_end (h : Endless kind q → ¬ e.IsNew q)
    (h' : ¬ Endless kind q → ¬ q.mayForward = true) {p : Parcel}
    (hp : p ∈ (e.onQuery neighbors pick kind q).2) : p.receiver = q.originator := by
  cases kind with
  | flood =>
    refine receiver_onFlood_of_end ?_ hp
    by_cases hlimit : q.limit = Query.unlimited
    · exact Or.inl (h ⟨rfl, hlimit⟩)
    · exact Or.inr ⟨hlimit, h' fun hend => hlimit hend.2⟩
  | randomWalk => exact receiver_onRandomWalk (h' (by simp [Endless])) hp
  | gossipDistance | gossipLocation => exact receiver_onGossipQuery (h' (by simp [Endless])) hp

end Engine

namespace Network

/-! ## What a message can still cause -/

/-- What a message in flight can still cause among some peers: nothing if it is not for
    one of them, only a reply if it is an endless flood that is no news, and otherwise
    one message more than its hops. -/
def rank (peers : List PeerAddress) (m : Envelope) : ℕ :=
  match m.message with
  | .query kind q =>
    if m.receiver ∈ peers then 1 + if Endless kind q then 0 else q.hopsToGo else 0
  | _ => 0

/-- The ids of the queries among messages. -/
def queryIds (ms : List Envelope) : Finset Uuid :=
  (ms.filterMap Envelope.queryId?).toFinset

/-- The message is an endless flood that its addressee takes for new. -/
def IsNews (e : Engine) (m : Envelope) : Prop :=
  ∃ kind q, m.message = .query kind q ∧ Endless kind q ∧ e.IsNew q

/-- **All that a query causes has a lower rank**, unless it is an endless flood and
    new. -/
theorem rank_lt_of_sent {peers : List PeerAddress} {m : Envelope} {n : Node} {pick : Nat}
    {kind : QueryKind} {q : Query} {r : Engine × List Parcel} (hm : m.message = .query kind q)
    (hreceiver : m.receiver ∈ peers) (horiginator : q.originator ∉ peers)
    (hnews : ¬ IsNews n.engine m)
    (hr : n.engine.handle n.neighbors pick m.message = some r) {p : Parcel} (hp : p ∈ r.2) :
    rank peers p.envelope < rank peers m := by
  rw [hm, Engine.handle_query, Option.some.injEq] at hr
  subst hr
  obtain ⟨q', hq', hhop, hnext⟩ :=
    Engine.hop_of_handled (n.engine.handled_onQuery n.neighbors pick kind q) hp
  simp only [rank, hm, hreceiver, if_true, Parcel.envelope, hq']
  by_cases hend : Endless kind q ∨ ¬ q.mayForward = true
  · have hback : p.receiver = q.originator := by
      refine Engine.receiver_of_end (fun h hnew => hnews ⟨kind, q, hm, h, hnew⟩) ?_ hp
      exact hend.resolve_left
    rw [if_neg (hback ▸ horiginator)]
    omega
  · obtain ⟨hlimited, hforward⟩ := not_or.1 hend
    have hlt := Query.hopsToGo_lt (not_not.1 hforward) hhop.2.2.2 hnext
    rw [if_neg hlimited, if_neg (mt (endless_congr hhop).1 hlimited)]
    split_ifs <;> omega

/-! ## A measure of a run -/

/-- The pairs of a peer and an id of which the peer has not been handed a query. -/
def unheard (peers : List PeerAddress) (ids : Finset Uuid) (ms : List Envelope) :
    Finset (PeerAddress × Uuid) :=
  (peers.toFinset ×ˢ ids).filter fun px => px.2 ∉ idsAt px.1 ms

/-- The ranks of all messages in flight. -/
def ranks (net : Network) : Multiset ℕ :=
  (net.flight.map (rank net.peers) : List ℕ)

/-- The order in which the measure of a run goes down. -/
def Lower : ℕ × Multiset ℕ → ℕ × Multiset ℕ → Prop :=
  Prod.Lex (· < ·) Multiset.IsDershowitzMannaLT

instance : IsWellFounded (ℕ × Multiset ℕ) Lower :=
  ⟨WellFounded.prod_lex wellFounded_lt Multiset.wellFounded_isDershowitzMannaLT⟩

theorem unheard_append_subset (peers : List PeerAddress) (ids : Finset Uuid)
    (ms ms' : List Envelope) : unheard peers ids (ms ++ ms') ⊆ unheard peers ids ms := by
  refine Finset.monotone_filter_right _ fun px _ hnew hold => hnew ?_
  exact idsAt_subset (List.subset_append_left _ _) hold

/-- A query that is news to its addressee makes for one pair less. -/
theorem card_unheard_lt {peers : List PeerAddress} {ids : Finset Uuid} {ms : List Envelope}
    {m : Envelope} {kind : QueryKind} {q : Query} (hm : m.message = .query kind q)
    (hreceiver : m.receiver ∈ peers) (hid : q.id ∈ ids) (hnews : q.id ∉ idsAt m.receiver ms) :
    (unheard peers ids (ms ++ [m])).card < (unheard peers ids ms).card := by
  refine Finset.card_lt_card (Finset.ssubset_iff_of_subset (unheard_append_subset _ _ _ _) |>.2 ?_)
  refine ⟨(m.receiver, q.id), ?_, ?_⟩
  · simp [unheard, hreceiver, hid, hnews]
  · simp [unheard, idsAt_append_of_query rfl hm]

/-- A message in flight that is replaced by such of lower rank lowers the ranks. -/
theorem ranks_lt {net net' : Network} {i : Nat} {m : Envelope} {sent : List Envelope}
    (hm : net.flight[i]? = some m) (hpeers : net'.peers = net.peers)
    (hflight : net'.flight = (net.without i).flight ++ sent)
    (hsent : ∀ m' ∈ sent, rank net.peers m' < rank net.peers m) :
    Multiset.IsDershowitzMannaLT net'.ranks net.ranks := by
  refine ⟨((net.without i).flight.map (rank net.peers) : List ℕ),
    (sent.map (rank net.peers) : List ℕ), {rank net.peers m}, by simp, ?_, ?_, ?_⟩
  · rw [ranks, hpeers, hflight, List.map_append, ← Multiset.coe_add]
  · rw [ranks, Multiset.coe_eq_coe.2 ((perm_flight hm).map _), List.map_cons,
      ← Multiset.cons_coe, add_comm, Multiset.singleton_add]
  · intro y hy
    obtain ⟨m', hm', rfl⟩ := List.mem_map.1 (Multiset.mem_coe.1 hy)
    exact ⟨_, Multiset.mem_singleton_self _, hsent m' hm'⟩

/-- A delivery that is no news to its addressee lowers the ranks. -/
theorem ranks_after_lt {net : Network} {d : Delivery} {m : Envelope}
    (hm : net.flight[d.index]? = some m) {kind : QueryKind} {q : Query}
    (hq : m.message = .query kind q) (horiginator : q.originator ∉ net.peers)
    (hnews : ∀ n, m.receiver ≠ net.registry → net.node? m.receiver = some n →
      ¬ IsNews n.engine m) : Multiset.IsDershowitzMannaLT (net.after d).ranks net.ranks := by
  have hpeers : (net.after d).peers = net.peers := peers_afterAll net [d]
  have hstep := step_after hm
  generalize net.after d = next at hpeers hstep
  cases hstep with
  | observed | lost | refused =>
    exact ranks_lt hm rfl (List.append_nil _).symm fun _ hm' => absurd hm' List.not_mem_nil
  | @handled n r hreg hn hr =>
    refine ranks_lt hm hpeers rfl fun m' hm' => ?_
    obtain ⟨p, hp, rfl⟩ := List.mem_map.1 hm'
    have hreceiver : m.receiver ∈ net.peers :=
      List.mem_map.2 ⟨n, mem_of_node? hn, identity_of_node? hn⟩
    exact rank_lt_of_sent hq hreceiver horiginator (hnews n hreg hn) hr hp

/-! ## Runs -/

/-- The message is a query for an outside originator, with one of some ids. -/
def IsQueryOf (peers : List PeerAddress) (ids : Finset Uuid) (m : Envelope) : Prop :=
  ∃ kind q, m.message = .query kind q ∧ q.originator ∉ peers ∧ q.id ∈ ids

/-- The message is no flood without a limit. -/
def IsLimited (m : Envelope) : Prop :=
  ∀ q, m.message = .query .flood q → q.limit ≠ Query.unlimited

theorem IsLimited.not_isNews {m : Envelope} (h : IsLimited m) (e : Engine) : ¬ IsNews e m := by
  rintro ⟨kind, q, hm, ⟨rfl, hlimit⟩, -⟩
  exact h q hm hlimit

section
variable {net : Network} {ids : Finset Uuid} {ds : List Delivery}

/-- What a query causes are queries of the same kind with the same id, limit and
    originator. -/
theorem query_of_handle {m : Envelope} {n : Node} {pick : Nat} {kind : QueryKind} {q : Query}
    {r : Engine × List Parcel} (hm : m.message = .query kind q)
    (hr : n.engine.handle n.neighbors pick m.message = some r) {p : Parcel} (hp : p ∈ r.2) :
    ∃ q', p.envelope.message = .query kind q' ∧ q'.IsHopOf q := by
  rw [hm, Engine.handle_query, Option.some.injEq] at hr
  subst hr
  obtain ⟨q', hq', hhop, -⟩ :=
    Engine.hop_of_handled (n.engine.handled_onQuery n.neighbors pick kind q) hp
  exact ⟨q', hq', hhop⟩

theorem isQueryOf_afterAll (h : ∀ m ∈ net.flight, IsQueryOf net.peers ids m)
    (ds : List Delivery) :
    (∀ m ∈ (net.afterAll ds).flight, IsQueryOf net.peers ids m) ∧
      ∀ m ∈ net.delivered ds, IsQueryOf net.peers ids m := by
  refine forall_flight_afterAll h (fun m n n' pick r hm _ _ hr p hp => ?_) ds
  obtain ⟨kind, q, hq, horiginator, hid⟩ := hm
  obtain ⟨q', hq', hhop⟩ := query_of_handle hq hr hp
  exact ⟨kind, q', hq', hhop.2.1 ▸ horiginator, hhop.1 ▸ hid⟩

theorem isLimited_afterAll (h : ∀ m ∈ net.flight, IsLimited m) (ds : List Delivery) :
    ∀ m ∈ (net.afterAll ds).flight, IsLimited m := by
  refine (forall_flight_afterAll h (fun m n n' pick r hm _ _ hr p hp => ?_) ds).1
  intro q' hq' hlimit
  obtain ⟨q, hq, -, hhop⟩ := Engine.query_of_sent hr hp hq'
  exact hm q hq (hhop.2.2.2.symm.trans hlimit)

/-- A log with room for all ids of a run's queries suffices for the run. -/
theorem logsSuffice_of_isQueryOf (h : ∀ m ∈ net.flight, IsQueryOf net.peers ids m)
    (hroom : ∀ n ∈ net.nodes, ids.card ≤ n.engine.queries.capacity) (ds : List Delivery) :
    net.LogsSuffice ds := by
  refine fun n hn => (Finset.card_le_card fun x hx => ?_).trans (hroom n hn)
  obtain ⟨m, hm, -, hx⟩ := mem_idsAt.1 hx
  obtain ⟨kind, q, hq, -, hid⟩ := (isQueryOf_afterAll h ds).2 m hm
  rw [Envelope.queryId?, hq, Option.some.injEq] at hx
  exact hx ▸ hid

/-- How far a run is from its end: the queries that are still news to somebody, and the
    ranks of the messages in flight. -/
def measure (net : Network) (ids : Finset Uuid) (ds : List Delivery) : ℕ × Multiset ℕ :=
  ((unheard net.peers ids (net.delivered ds)).card, (net.afterAll ds).ranks)

/-- **Every delivery brings a run nearer to its end.** -/
theorem measure_lt (hqueries : ∀ m ∈ net.flight, IsQueryOf net.peers ids m)
    (hends : (∀ m ∈ net.flight, IsLimited m) ∨
      ∀ n ∈ net.nodes, ids.card ≤ n.engine.queries.capacity)
    {d : Delivery} {m : Envelope} (hm : (net.afterAll ds).flight[d.index]? = some m) :
    Lower (net.measure ids (ds ++ [d])) (net.measure ids ds) := by
  have hmem := List.mem_of_getElem? hm
  obtain ⟨kind, q, hq, horiginator, hid⟩ := (isQueryOf_afterAll hqueries ds).1 m hmem
  have hdel := delivered_append_singleton net ds d
  rw [hm, Option.toList_some] at hdel
  rw [measure, measure, hdel, afterAll_append_singleton]
  have hpeers : (net.afterAll ds).peers = net.peers := peers_afterAll net ds
  by_cases hnews : ∃ n, m.receiver ≠ net.registry ∧
      (net.afterAll ds).node? m.receiver = some n ∧ IsNews n.engine m
  · -- only a log that suffices tells a flood without a limit for new at most once
    obtain ⟨n, hreg, hn, hnew⟩ := hnews
    have hroom := hends.resolve_left fun h =>
      (isLimited_afterAll h ds m hmem).not_isNews n.engine hnew
    have hremembers :=
      remembers_afterAll (logsSuffice_of_isQueryOf hqueries hroom ds) hreg hn
    refine Prod.Lex.left _ _ (card_unheard_lt hq ?_ hid fun hold => ?_)
    · exact hpeers ▸ List.mem_map.2 ⟨n, mem_of_node? hn, identity_of_node? hn⟩
    · obtain ⟨kind', q', hq', -, hisNew⟩ := hnew
      rw [hq, Message.query.injEq] at hq'
      exact hisNew (hremembers.mem (hq'.2 ▸ hold))
  · refine Prod.Lex.right' _ (Finset.card_le_card (unheard_append_subset _ _ _ _)) ?_
    refine ranks_after_lt hm hq (hpeers ▸ horiginator) fun n hreg hn hnew => ?_
    exact hnews ⟨n, (later_afterAll net ds).1 ▸ hreg, hn, hnew⟩

/-- **Query traffic dies out.**  If none of the queries in flight is a flood without a
    limit, or every log has room for the ids of all of them, then sooner or later every
    sequence of deliveries finds nothing to deliver. -/
theorem queries_die_out
    (hqueries : ∀ m ∈ net.flight, ∃ kind q, m.message = .query kind q ∧ q.originator ∉ net.peers)
    (hends : (∀ m ∈ net.flight, ∀ q, m.message = .query .flood q → q.limit ≠ Query.unlimited) ∨
      ∀ n ∈ net.nodes, (queryIds net.flight).card ≤ n.engine.queries.capacity)
    (ds : ℕ → Delivery) :
    ∃ n, (net.afterAll ((List.range n).map ds)).flight[(ds n).index]? = none := by
  have hids : ∀ m ∈ net.flight, IsQueryOf net.peers (queryIds net.flight) m := by
    intro m hm
    obtain ⟨kind, q, hq, horiginator⟩ := hqueries m hm
    refine ⟨kind, q, hq, horiginator, List.mem_toFinset.2 (List.mem_filterMap.2 ⟨m, hm, ?_⟩)⟩
    rw [Envelope.queryId?, hq]
  obtain ⟨n, hn⟩ := WellFounded.not_rel_apply_succ (r := Lower)
    fun n => net.measure (queryIds net.flight) ((List.range n).map ds)
  refine ⟨n, Option.eq_none_iff_forall_ne_some.2 fun m hm => hn ?_⟩
  rw [List.range_succ, List.map_append]
  exact measure_lt hids hends hm

end

end Network

namespace Sample

/-- A flood without a limit and a random walk that have just been sent. -/
def busy : Network :=
  flooded.start (peer 2) .randomWalk (.fresh (.ofNat 8) (peer 0) "t" 5) 0

end Sample

namespace Network
open Sample

theorem queries_die_out_busy :
    (∀ m ∈ busy.flight, ∃ kind q, m.message = .query kind q ∧ q.originator ∉ busy.peers) ∧
      (∀ n ∈ busy.nodes, (queryIds busy.flight).card ≤ n.engine.queries.capacity) ∧
      ∃ n, (busy.afterAll ((List.range n).map fun i => ⟨i % 2, i, 0⟩)).flight[n % 2]? = none := by
  have hqueries :
      ∀ m ∈ busy.flight, ∃ kind q, m.message = .query kind q ∧ q.originator ∉ busy.peers := by
    intro m hm
    have hm : m ∈ [(⟨peer 1, .query .flood (query (-1))⟩ : Envelope),
        ⟨peer 2, .query .randomWalk (.fresh (.ofNat 8) (peer 0) "t" 5)⟩] := hm
    simp only [List.mem_cons, List.not_mem_nil, or_false] at hm
    rcases hm with rfl | rfl <;> exact ⟨_, _, rfl, by decide +kernel⟩
  have hroom : ∀ n ∈ busy.nodes, (queryIds busy.flight).card ≤ n.engine.queries.capacity := by
    decide +kernel
  exact ⟨hqueries, hroom, queries_die_out hqueries (Or.inr hroom) fun i => ⟨i % 2, i, 0⟩⟩

end Network

end OverlayCensus
