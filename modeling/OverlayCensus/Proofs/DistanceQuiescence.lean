/-
  OverlayCensus — gossip about distances dies out.

  A peer tells its distances again only if its table has changed, and a table with room for
  all names changes only by a lesson: a smaller distance, or a teller that it had not listed
  (`DistanceTable.mergeAdvertised_of_known`).  There are only so many lessons to learn, so
  every delivery either leaves fewer of them or one message less in flight.

  * `unlearned`: the lessons that all tables together have not had;
  * `gossipLeft_after`: a delivery lowers their number and that of the messages in flight,
    taken lexicographically;
  * `distances_die_out`: so no run of deliveries goes on for ever.
-/
import Mathlib
import OverlayCensus.Proofs.DistanceRouting
import OverlayCensus.Proofs.HopOrder

namespace OverlayCensus

namespace Engine

variable {e : Engine} {neighbors : List PeerAddress} {sender : PeerAddress}
  {es : List (String × UInt32)} {p : Parcel}

theorem onDistances_of_same (h : (e.distances.mergeAdvertised sender es).1 = false) :
    (e.onDistances neighbors sender es).2 = [] := by
  simp [onDistances, h]

/-- Gossip about distances makes an engine send nothing but its own distances. -/
theorem message_onDistances (hp : p ∈ (e.onDistances neighbors sender es).2) :
    p.message = (e.onDistances neighbors sender es).1.distancesMessage := by
  simp only [onDistances] at hp ⊢
  split_ifs at hp
  · obtain ⟨r, -, -, rfl⟩ := mem_toAll.1 hp
    rfl
  · cases hp

end Engine

namespace Network

/-! ## Names and tellers -/

/-- The distances that a message advertises. -/
def advertised (m : Envelope) : List (String × UInt32) :=
  match m.message with
  | .distances _ es => es
  | _ => []

/-- The names in all distance tables and in all advertisements in flight. -/
def namesTold (net : Network) : Finset String :=
  (net.nodes.flatMap (fun n => n.engine.distances.entries.map DistanceEntry.name) ++
    net.flight.flatMap fun m => (advertised m).map Prod.fst).toFinset

/-- The peers, and whoever has sent gossip that is in flight. -/
def tellers (net : Network) : Finset PeerAddress :=
  (net.peers ++ net.flight.filterMap fun m => m.message.gossiper?).toFinset

/-- All tables have room for some names, and all that is in flight are advertisements of
    such names by certain tellers. -/
structure Telling (names : Finset String) (tellers : Finset PeerAddress) (now : Network) :
    Prop where
  room : ∀ p n, now.node? p = some n → n.engine.distances.HasRoom names
  peers : ∀ p ∈ now.peers, p ∈ tellers
  gossip : ∀ m ∈ now.flight, ∃ s es, m.message = .distances s es ∧ s ∈ tellers ∧
    ∀ e ∈ es, e.1 ∈ names

/-! ## Lessons -/

open Classical in
/-- The distances that peers do not know: of a peer, a name and a number of hops, those
    where the peer does not know the name to be that near. -/
noncomputable def unknown (names : Finset String) (now : Network) :
    Finset (PeerAddress × String × ℕ) :=
  (now.peers.toFinset ×ˢ names ×ˢ Finset.range UInt32.size).filter fun x =>
    ¬ now.KnownAt x.1 (.distance x.2.1 x.2.2)

open Classical in
/-- The tellers that peers do not list: of a peer, a name and a teller, those where the
    peer does not list the teller for the name. -/
noncomputable def unlisted (names : Finset String) (tellers : Finset PeerAddress)
    (now : Network) : Finset (PeerAddress × String × PeerAddress) :=
  (now.peers.toFinset ×ˢ names ×ˢ tellers).filter fun x => ¬ now.ListedAt x.1 x.2.1 x.2.2

/-- The number of lessons that the tables have not had. -/
noncomputable def unlearned (names : Finset String) (tellers : Finset PeerAddress)
    (now : Network) : ℕ :=
  (unknown names now).card + (unlisted names tellers now).card

/-- How far gossip is from its end: the lessons to come, and the messages in flight. -/
noncomputable def gossipLeft (names : Finset String) (tellers : Finset PeerAddress)
    (now : Network) : ℕ × ℕ :=
  (unlearned names tellers now, now.flight.length)

section
variable {names : Finset String} {tellers : Finset PeerAddress} {now next : Network}
  {d : Delivery} {m : Envelope} {p s : PeerAddress} {name : String} {hops : ℕ}

/-- Nobody forgets a lesson. -/
structure Learned (now next : Network) : Prop where
  peers : next.peers = now.peers
  known : ∀ p name hops, now.KnownAt p (.distance name hops) →
    next.KnownAt p (.distance name hops)
  listed : ∀ p name s, now.ListedAt p name s → next.ListedAt p name s

theorem Learned.of_nodes_eq (h : next.nodes = now.nodes) : Learned now next := by
  have hnode : next.node? = now.node? := by
    funext p
    rw [node?, node?, h]
  refine ⟨by rw [Network.peers, Network.peers, h], fun p name hops hk => ?_, fun p name s hl => ?_⟩
  · rwa [KnownAt, hnode]
  · rwa [ListedAt, hnode]

theorem Learned.unknown_subset (h : Learned now next) : unknown names next ⊆ unknown names now := by
  classical
  rw [unknown, unknown, h.peers]
  exact Finset.monotone_filter_right _ fun x _ hnew hold => hnew (h.known _ _ _ hold)

theorem Learned.unlisted_subset (h : Learned now next) :
    unlisted names tellers next ⊆ unlisted names tellers now := by
  classical
  rw [unlisted, unlisted, h.peers]
  exact Finset.monotone_filter_right _ fun x _ hnew hold => hnew (h.listed _ _ _ hold)

theorem Learned.unlearned_le (h : Learned now next) :
    unlearned names tellers next ≤ unlearned names tellers now :=
  Nat.add_le_add (Finset.card_le_card h.unknown_subset) (Finset.card_le_card h.unlisted_subset)

/-- A distance that is new to a peer makes for fewer lessons to come. -/
theorem Learned.unlearned_lt_of_known (h : Learned now next) (hp : p ∈ now.peers)
    (hname : name ∈ names) (hhops : hops < UInt32.size)
    (hnew : next.KnownAt p (.distance name hops)) (hold : ¬ now.KnownAt p (.distance name hops)) :
    unlearned names tellers next < unlearned names tellers now := by
  refine Nat.add_lt_add_of_lt_of_le (Finset.card_lt_card ?_)
    (Finset.card_le_card h.unlisted_subset)
  refine (Finset.ssubset_iff_of_subset h.unknown_subset).2 ⟨(p, name, hops), ?_, ?_⟩
  · simp only [unknown, Finset.mem_filter, Finset.mem_product, List.mem_toFinset, Finset.mem_range]
    exact ⟨⟨hp, hname, hhops⟩, hold⟩
  · simp only [unknown, Finset.mem_filter, not_and, not_not]
    exact fun _ => hnew

/-- A teller that is new to a peer makes for fewer lessons to come. -/
theorem Learned.unlearned_lt_of_listed (h : Learned now next) (hp : p ∈ now.peers)
    (hname : name ∈ names) (hs : s ∈ tellers) (hnew : next.ListedAt p name s)
    (hold : ¬ now.ListedAt p name s) :
    unlearned names tellers next < unlearned names tellers now := by
  refine Nat.add_lt_add_of_le_of_lt (Finset.card_le_card h.unknown_subset)
    (Finset.card_lt_card ?_)
  refine (Finset.ssubset_iff_of_subset h.unlisted_subset).2 ⟨(p, name, s), ?_, ?_⟩
  · simp only [unlisted, Finset.mem_filter, Finset.mem_product, List.mem_toFinset]
    exact ⟨⟨hp, hname, hs⟩, hold⟩
  · simp only [unlisted, Finset.mem_filter, not_and, not_not]
    exact fun _ => hnew

/-! ## One delivery -/

theorem length_without {i : ℕ} (hm : now.flight[i]? = some m) :
    (now.without i).flight.length < now.flight.length := by
  rw [(perm_flight hm).length_eq]
  exact Nat.lt_succ_self _

theorem Hearing.learned {n : Node} {r : Engine × List Parcel}
    (h : Hearing names now d m n r next) : Learned now next where
  peers := by
    rw [h.next_eq]
    exact peers_setEngine ((later_of_handle h.result).identity.trans (identity_of_node? h.node))
  known _ _ _ hk := h.knownAt_iff.2 (Or.inl hk)
  listed _ _ _ hl := h.listedAt_iff.2 (Or.inl hl)

theorem Telling.hearingStep (h : Telling names tellers now)
    (hm : now.flight[d.index]? = some m) : HearingStep names now d m (now.after d) := by
  obtain ⟨s, es, hmessage, -, hes⟩ := h.gossip m (List.mem_of_getElem? hm)
  refine Network.hearingStep h.room (fun name hops hf => ?_) (step_after hm)
  rw [hmessage] at hf
  obtain ⟨d', hd', -⟩ := hf
  exact hes _ hd'

/-- **Gossip about distances is answered by gossip of the same kind**, whatever is
    delivered. -/
theorem Telling.after (h : Telling names tellers now) (hm : now.flight[d.index]? = some m) :
    Telling names tellers (now.after d) := by
  have hold : ∀ m' ∈ (now.without d.index).flight, ∃ s es, m'.message = .distances s es ∧
      s ∈ tellers ∧ ∀ e ∈ es, e.1 ∈ names := fun m' hm' =>
    h.gossip m' (List.mem_of_mem_eraseIdx hm')
  have hpeers : (now.after d).peers = now.peers := peers_afterAll now [d]
  cases h.hearingStep hm with
  | aside _ hnodes hflight =>
    refine ⟨fun p n hn => ?_, fun p hp => h.peers p (hpeers ▸ hp), hflight ▸ hold⟩
    rw [node?, hnodes] at hn
    exact h.room p n hn
  | @heard n r hhearing =>
    refine ⟨fun p n' hn' => ?_, fun p hp => h.peers p (hpeers ▸ hp), fun m' hm' => ?_⟩
    · rw [hhearing.next_eq, node?_handled hhearing.node hhearing.result] at hn'
      split_ifs at hn' with hp
      · cases hn'
        exact hhearing.room
      · exact h.room p n' hn'
    · rcases hhearing.mem_flight_iff.1 hm' with hm' | ⟨parcel, hparcel, rfl⟩
      · exact hold m' hm'
      · obtain ⟨s, es, hmessage, -, -⟩ := h.gossip m (List.mem_of_getElem? hm)
        have hresult := hhearing.result
        rw [hmessage] at hresult
        cases hresult
        refine ⟨_, _, Engine.message_onDistances hparcel, ?_, fun e he => ?_⟩
        · refine h.peers _ (List.mem_map.2 ⟨n, mem_of_node? hhearing.node, rfl⟩)
        · obtain ⟨entry, hentry, rfl⟩ := List.mem_map.1 he
          exact hhearing.room.known _ _ (DistanceTable.knows_iff.2 ⟨entry, hentry, rfl, le_rfl⟩)

/-- What a peer hears either teaches it something or makes it send nothing. -/
theorem Telling.unlearned_lt (h : Telling names tellers now)
    (hm : now.flight[d.index]? = some m) {n : Node} {r : Engine × List Parcel}
    (hhearing : Hearing names now d m n r next) (hsent : r.2 ≠ []) :
    unlearned names tellers next < unlearned names tellers now := by
  obtain ⟨s, es, hmessage, hs, hes⟩ := h.gossip m (List.mem_of_getElem? hm)
  have hresult := hhearing.result
  rw [hmessage] at hresult
  cases hresult
  have hpeer : m.receiver ∈ now.peers :=
    List.mem_map.2 ⟨n, mem_of_node? hhearing.node, identity_of_node? hhearing.node⟩
  have hknown : ¬ ∀ e ∈ es, n.engine.distances.Knows e.1 (nextHop e.2).toNat ∧
      n.engine.distances.Lists e.1 s := fun hall =>
    hsent (Engine.onDistances_of_same
      (DistanceTable.mergeAdvertised_of_known (h.room _ n hhearing.node) hes hall))
  simp only [not_forall, not_and_or] at hknown
  obtain ⟨e, he, hnew⟩ := hknown
  have hteaches : m.message.Teaches (.distance e.1 (nextHop e.2).toNat) := by
    rw [hmessage]
    exact ⟨e.2, he, le_rfl⟩
  rcases hnew with hnew | hnew
  · refine hhearing.learned.unlearned_lt_of_known hpeer (hes e he) (UInt32.toNat_lt_size _)
      (hhearing.knownAt_iff.2 (Or.inr ⟨rfl, hteaches⟩)) ?_
    rintro ⟨n', hn', hk⟩
    cases hhearing.node.symm.trans hn'
    exact hnew hk
  · refine hhearing.learned.unlearned_lt_of_listed hpeer (hes e he) hs
      (hhearing.listedAt_iff.2 (Or.inr ⟨rfl, by rw [hmessage]; rfl, _, hteaches⟩)) ?_
    rintro ⟨n', hn', hl⟩
    cases hhearing.node.symm.trans hn'
    exact hnew hl

/-- **Every delivery of gossip brings it nearer to its end.** -/
theorem gossipLeft_after (h : Telling names tellers now) (hm : now.flight[d.index]? = some m) :
    Prod.Lex (· < ·) (· < ·) (gossipLeft names tellers (now.after d))
      (gossipLeft names tellers now) := by
  cases h.hearingStep hm with
  | aside _ hnodes hflight =>
    refine Prod.Lex.right' _ (Learned.of_nodes_eq hnodes).unlearned_le ?_
    rw [hflight]
    exact length_without hm
  | @heard n r hhearing =>
    by_cases hsent : r.2 = []
    · refine Prod.Lex.right' _ hhearing.learned.unlearned_le ?_
      have hflight : (now.after d).flight = (now.without d.index).flight := by
        rw [hhearing.next_eq, send, hsent]
        exact List.append_nil _
      rw [hflight]
      exact length_without hm
    · exact Prod.Lex.left _ _ (h.unlearned_lt hm hhearing hsent)

end

/-! ## Runs -/

section
variable {net : Network}

theorem telling_afterAll {names : Finset String} {tellers : Finset PeerAddress}
    (h : Telling names tellers net) (ds : List Delivery) :
    Telling names tellers (net.afterAll ds) := by
  induction ds using List.reverseRecOn with
  | nil => exact h
  | append_singleton ds d ih =>
    rw [afterAll_append_singleton]
    cases hm : (net.afterAll ds).flight[d.index]? with
    | none => rw [after_of_none hm]; exact ih
    | some m => exact ih.after hm

/-- The names and tellers of a network are all that its gossip is about. -/
theorem telling_namesTold (hgossip : ∀ m ∈ net.flight, ∃ s es, m.message = .distances s es)
    (hroom : ∀ n ∈ net.nodes, net.namesTold.card ≤ n.engine.distances.cache.capacity)
    (hkeys : Set.InjOn Gossip.nameKey net.namesTold) :
    Telling net.namesTold net.tellers net where
  room p n hn := by
    refine ⟨fun name hops hk => ?_, hroom n (mem_of_node? hn), hkeys⟩
    obtain ⟨e, he, rfl, -⟩ := DistanceTable.knows_iff.1 hk
    refine List.mem_toFinset.2 (List.mem_append_left _ (List.mem_flatMap.2 ?_))
    exact ⟨n, mem_of_node? hn, List.mem_map_of_mem he⟩
  peers p hp := List.mem_toFinset.2 (List.mem_append_left _ hp)
  gossip m hm := by
    obtain ⟨s, es, hmessage⟩ := hgossip m hm
    refine ⟨s, es, hmessage, ?_, fun e he => ?_⟩
    · refine List.mem_toFinset.2 (List.mem_append_right _ (List.mem_filterMap.2 ⟨m, hm, ?_⟩))
      rw [hmessage]
      rfl
    · refine List.mem_toFinset.2 (List.mem_append_right _ (List.mem_flatMap.2 ⟨m, hm, ?_⟩))
      rw [advertised, hmessage]
      exact List.mem_map_of_mem he

/-- **Gossip about distances dies out.**  Neighbour lists and tables may be anything, and
    so may the senders and distances of the advertisements in flight.  If every distance
    table has room for all names in tables and messages, under keys that differ, then
    sooner or later every sequence of deliveries finds nothing to deliver. -/
theorem distances_die_out
    (hgossip : ∀ m ∈ net.flight, ∃ s es, m.message = .distances s es)
    (hroom : ∀ n ∈ net.nodes, net.namesTold.card ≤ n.engine.distances.cache.capacity)
    (hkeys : Set.InjOn Gossip.nameKey net.namesTold) (ds : ℕ → Delivery) :
    ∃ k, (net.afterAll (firstOf ds k)).flight[(ds k).index]? = none := by
  have hwf : WellFounded (Prod.Lex (· < ·) (· < ·) : ℕ × ℕ → ℕ × ℕ → Prop) :=
    WellFounded.prod_lex wellFounded_lt wellFounded_lt
  have : IsWellFounded (ℕ × ℕ) (Prod.Lex (· < ·) (· < ·)) := ⟨hwf⟩
  obtain ⟨k, hk⟩ := WellFounded.not_rel_apply_succ (r := Prod.Lex (· < ·) (· < ·))
    fun k => gossipLeft net.namesTold net.tellers (net.afterAll (firstOf ds k))
  refine ⟨k, Option.eq_none_iff_forall_ne_some.2 fun m hm => hk ?_⟩
  rw [afterAll_firstOf_succ]
  exact gossipLeft_after (telling_afterAll (telling_namesTold hgossip hroom hkeys) _) hm

end

end Network

namespace Sample

/-- The row and a peer that nobody has for a neighbour, with advertisements under way of
    which one comes from outside and one from the largest distance. -/
def rumours : Network where
  registry := peer 0
  nodes := row.nodes ++ [node 4 6 [("u", 1)] [1]]
  flight := [⟨peer 2, .distances (peer 9) [("u", 0), ("t", 0xFFFFFFFF)]⟩,
    ⟨peer 1, .distances (peer 4) [("u", 7)]⟩]
  results := .empty

end Sample

namespace Network
open Sample

theorem distances_die_out_rumours :
    (∀ m ∈ rumours.flight, ∃ s es, m.message = .distances s es) ∧
      (∀ n ∈ rumours.nodes, rumours.namesTold.card ≤ n.engine.distances.cache.capacity) ∧
      Set.InjOn Gossip.nameKey rumours.namesTold ∧
      ∃ k, (rumours.afterAll (firstOf (fun i => ⟨i % 3, i, 0⟩) k)).flight[k % 3]? = none := by
  have hgossip : ∀ m ∈ rumours.flight, ∃ s es, m.message = .distances s es := by
    intro m hm
    simp only [rumours, List.mem_cons, List.not_mem_nil, or_false] at hm
    rcases hm with rfl | rfl <;> exact ⟨_, _, rfl⟩
  have hroom : ∀ n ∈ rumours.nodes,
      rumours.namesTold.card ≤ n.engine.distances.cache.capacity := by decide +kernel
  have hkeys : ∀ name ∈ rumours.namesTold, ∀ name' ∈ rumours.namesTold,
      Gossip.nameKey name = Gossip.nameKey name' → name = name' := by decide +kernel
  have hinj : Set.InjOn Gossip.nameKey rumours.namesTold :=
    fun name hname name' hname' => hkeys name hname name' hname'
  exact ⟨hgossip, hroom, hinj, distances_die_out hgossip hroom hinj fun i => ⟨i % 3, i, 0⟩⟩

end Network

end OverlayCensus
