/-
  OverlayCensus — distance tables lead to what they tell about.

  Gossip comes from neighbours, so a peer lists nobody but itself and its neighbours, and
  for every distance that it knows it has the metric itself or lists a neighbour that knows
  a smaller one (`Routing`).  After every peer has told its tables, what a peer tells is
  known to its neighbours or on its way to them (`Shared`).  Both last through any number
  of exchanges, whatever else is sent meanwhile.

  * `Mutual`: a network whose links go both ways;
  * `Routing.after`, `Shared.after`: what one delivery does to the tables;
  * `routing_exchanges`: the tables after some exchanges from new engines;
  * `Shared.knownAt_of_walk`: with no gossip in flight, no table tells more than the least
    distance.
-/
import Mathlib
import OverlayCensus.Proofs.AntiEntropy
import OverlayCensus.Proofs.DistanceHolders

namespace OverlayCensus

namespace Network

/-! ## Links that go both ways -/

/-- A network of different peers whose links go both ways.  The registry is none of them. -/
structure Mutual (net : Network) : Prop where
  distinct : net.peers.Nodup
  registry : net.registry ∉ net.peers
  symm : ∀ p r, r ∈ net.neighborsOf p → p ∈ net.neighborsOf r

theorem Linked.mutual {net : Network} (h : net.Linked) : net.Mutual :=
  ⟨h.distinct, h.registry, fun _ _ => h.neighborsOf_symm⟩

namespace Mutual
variable {net : Network} {p r : PeerAddress} (h : net.Mutual)
include h

theorem mem_peers (hr : r ∈ net.neighborsOf p) : r ∈ net.peers := by
  obtain ⟨n, hn, -⟩ := mem_neighborsOf (h.symm p r hr)
  exact isSome_node?_iff.1 (by rw [hn]; rfl)

theorem isPeer (hr : r ∈ net.neighborsOf p) : r ≠ net.registry ∧ (net.node? r).isSome :=
  isPeer_of_mem_peers h.registry (h.mem_peers hr)

theorem mem_neighborsOf_of_adj (hadj : net.graph.Adj p r) : r ∈ net.neighborsOf p := by
  rw [graph, SimpleGraph.fromRel_adj] at hadj
  exact hadj.2.elim id (h.symm r p)

end Mutual

/-! ## Tables that lead somewhere -/

/-- A peer lists another one for a metric. -/
def ListedAt (net : Network) (p : PeerAddress) (name : String) (s : PeerAddress) : Prop :=
  ∃ n, net.node? p = some n ∧ n.engine.distances.Lists name s

/-- The state of the distance tables in a network that started as `net`.  Every table has
    room and knows the peer's own metrics.  A peer lists only itself and neighbours, and
    among them one that tells the distance if the metric is not its own.  Gossip in flight
    is for a neighbour of its sender, which would tell it again. -/
structure Routing (net now : Network) : Prop where
  later : net.Later now
  peers : now.peers = net.peers
  room : ∀ p n, now.node? p = some n → n.engine.distances.HasRoom net.names
  own : ∀ p name, name ∈ net.namesOf p → now.KnownAt p (.distance name 0)
  lists : ∀ p name s, now.ListedAt p name s → s = p ∨ s ∈ net.neighborsOf p
  support : ∀ p name hops, now.KnownAt p (.distance name hops) → name ∈ net.namesOf p ∨
    ∃ s ∈ net.neighborsOf p, now.ListedAt p name s ∧ now.ToldBy s (.distance name hops)
  gossip : ∀ m ∈ now.flight, m.message.tag = .gossipData → ∃ s,
    m.message.gossiper? = some s ∧ m.receiver ∈ net.neighborsOf s ∧
      ∀ name hops, m.message.Teaches (.distance name hops) → now.ToldBy s (.distance name hops)

/-- What a peer tells about distances is known to its neighbours or on its way to them. -/
def Shared (net now : Network) : Prop :=
  ∀ s p name hops, p ∈ net.neighborsOf s → now.ToldBy s (.distance name hops) →
    now.KnownAt p (.distance name hops) ∨
      ∃ m ∈ now.flight, m.receiver = p ∧ m.message.Teaches (.distance name hops)

/-- No gossip about distances is in flight. -/
def Quiet (net : Network) : Prop :=
  ∀ m ∈ net.flight, m.message.tag ≠ .gossipData

instance (net : Network) : Decidable net.Quiet :=
  inferInstanceAs (Decidable (∀ m ∈ net.flight, _))

/-! ## One delivery -/

/-- A peer hears a message. -/
structure Hearing (names : Finset String) (now : Network) (d : Delivery) (m : Envelope)
    (n : Node) (r : Engine × List Parcel) (next : Network) : Prop where
  node : now.node? m.receiver = some n
  result : n.engine.handle n.neighbors d.pick m.message = some r
  heard : n.engine.Heard n.neighbors m.message r
  room : r.1.distances.HasRoom names
  next_eq : next = ((now.without d.index).setEngine m.receiver r.1).send r.2

/-- What a delivery does to the distance tables: a peer hears a message, or else no table
    changes, and what is gone was no gossip to a peer. -/
inductive HearingStep (names : Finset String) (now : Network) (d : Delivery) (m : Envelope)
    (next : Network) : Prop
  | aside (deaf : m.message.tag = .gossipData →
        ¬ (m.receiver ≠ now.registry ∧ (now.node? m.receiver).isSome))
      (nodes : next.nodes = now.nodes)
      (flight : next.flight = (now.without d.index).flight)
  | heard {n : Node} {r : Engine × List Parcel} (hearing : Hearing names now d m n r next)

section
variable {names : Finset String} {net now next : Network} {d : Delivery} {m : Envelope}
  {n : Node} {r : Engine × List Parcel} {p s : PeerAddress} {name : String} {hops : ℕ}

theorem hearingStep (hroom : ∀ p n, now.node? p = some n → n.engine.distances.HasRoom names)
    (hnames : ∀ name hops, m.message.Teaches (.distance name hops) → name ∈ names)
    (h : now.Step d m next) : HearingStep names now d m next := by
  cases h with
  | observed hreg => exact .aside (fun _ hp => hp.1 hreg) rfl rfl
  | lost _ hnone => exact .aside (fun _ hp => by simp [hnone] at hp) rfl rfl
  | refused _ _ href =>
    refine .aside (fun htag => ?_) rfl rfl
    obtain ⟨receiver, message⟩ := m
    cases message with
    | distances => cases href
    | query kind q => cases kind <;> simp [Message.tag, QueryKind.tag] at htag
    | _ => simp [Message.tag] at htag
  | @handled n r _ hn hr =>
    obtain ⟨hheard, hroom'⟩ := Engine.heard_of_handle hr (hroom _ n hn) hnames
    exact .heard ⟨hn, hr, hheard, hroom', rfl⟩

namespace Hearing
variable (h : Hearing names now d m n r next)
include h

theorem knownAt_iff : next.KnownAt p (.distance name hops) ↔
    now.KnownAt p (.distance name hops) ∨
      (p = m.receiver ∧ m.message.Teaches (.distance name hops)) := by
  rw [h.next_eq, knownAt_handled h.node h.result]
  split_ifs with hp
  · rw [h.heard.knows, hp, KnownAt]
    simp [h.node]
  · simp [hp]

theorem listedAt_iff : next.ListedAt p name s ↔ now.ListedAt p name s ∨
    (p = m.receiver ∧ m.message.gossiper? = some s ∧
      ∃ hops, m.message.Teaches (.distance name hops)) := by
  rw [h.next_eq, ListedAt, node?_handled h.node h.result]
  split_ifs with hp
  · simp [h.heard.lists, hp, ListedAt, h.node]
  · simp [hp, ListedAt]

theorem toldBy_of_ne (hp : p ≠ m.receiver) {f : Fact} : next.ToldBy p f ↔ now.ToldBy p f := by
  rw [h.next_eq, toldBy_handled h.node h.result, if_neg hp]

theorem toldBy_receiver {f : Fact} : next.ToldBy m.receiver f ↔ r.1.Tells f := by
  rw [h.next_eq, toldBy_handled h.node h.result, if_pos rfl]

theorem toldBy_mono (hf : now.ToldBy p (.distance name hops)) :
    next.ToldBy p (.distance name hops) := by
  by_cases hp : p = m.receiver
  · subst hp
    obtain ⟨n', hn', d', hd', hle⟩ := hf
    rw [h.node] at hn'
    cases hn'
    exact h.toldBy_receiver.2 ⟨d', (h.heard.knows name _).2 (Or.inl hd'), hle⟩
  · exact (h.toldBy_of_ne hp).2 hf

theorem mem_flight_iff {m' : Envelope} : m' ∈ next.flight ↔
    m' ∈ (now.without d.index).flight ∨ ∃ parcel ∈ r.2, parcel.envelope = m' := by
  rw [h.next_eq]
  show m' ∈ (now.without d.index).flight ++ r.2.map Parcel.envelope ↔ _
  rw [List.mem_append, List.mem_map]

end Hearing

theorem Routing.name_mem (h : net.Routing now) (hm : m ∈ now.flight)
    (hf : m.message.Teaches (.distance name hops)) : name ∈ net.names := by
  obtain ⟨s, -, -, htold⟩ := h.gossip m hm (Message.tag_of_teaches hf)
  obtain ⟨n, hn, htells⟩ := htold name hops hf
  exact (h.room s n hn).known name hops htells.knows

theorem Routing.hearingStep (h : net.Routing now) (hm : now.flight[d.index]? = some m) :
    HearingStep net.names now d m (now.after d) :=
  Network.hearingStep h.room (fun _ _ hf => h.name_mem (List.mem_of_getElem? hm) hf)
    (step_after hm)

/-- Nothing about the tables changes with a message that no peer hears. -/
theorem Routing.of_nodes_eq (h : net.Routing now) (hlater : net.Later next)
    (hnodes : next.nodes = now.nodes) (hflight : ∀ m ∈ next.flight, m ∈ now.flight) :
    net.Routing next := by
  have hnode : next.node? = now.node? := by
    funext p
    rw [node?, node?, hnodes]
  have hknown : next.KnownAt = now.KnownAt := by
    funext p f
    rw [KnownAt, KnownAt, hnode]
  have htold : next.ToldBy = now.ToldBy := by
    funext p f
    rw [ToldBy, ToldBy, hnode]
  have hlisted : next.ListedAt = now.ListedAt := by
    funext p name s
    rw [ListedAt, ListedAt, hnode]
  constructor
  case later => exact hlater
  case peers => rw [← h.peers, Network.peers, Network.peers, hnodes]
  case room => rw [hnode]; exact h.room
  case own => rw [hknown]; exact h.own
  case lists => rw [hlisted]; exact h.lists
  case support => rw [hknown, hlisted, htold]; exact h.support
  case gossip => rw [htold]; exact fun m hm => h.gossip m (hflight m hm)

/-- **Every delivery keeps tables that lead somewhere.** -/
theorem Routing.after (h : net.Routing now) (hmutual : net.Mutual)
    (hm : now.flight[d.index]? = some m) : net.Routing (now.after d) := by
  have hlater := h.later.trans (later_after now d)
  have hmem : m ∈ now.flight := List.mem_of_getElem? hm
  cases h.hearingStep hm with
  | aside _ hnodes hflight =>
    refine h.of_nodes_eq hlater hnodes fun m' hm' => ?_
    rw [hflight] at hm'
    exact List.mem_of_mem_eraseIdx hm'
  | @heard n r hearing =>
    have hneighbors : n.neighbors = net.neighborsOf m.receiver := by
      rw [← h.later.neighborsOf, neighborsOf_eq hearing.node]
    constructor
    case later => exact hlater
    case peers => exact (peers_afterAll now [d]).trans h.peers
    case room =>
      intro p n' hn'
      rw [hearing.next_eq, node?_handled hearing.node hearing.result] at hn'
      split_ifs at hn' with hp
      · cases hn'
        exact hearing.room
      · exact h.room p n' hn'
    case own =>
      intro p name hname
      exact hearing.knownAt_iff.2 (Or.inl (h.own p name hname))
    case lists =>
      intro p name s hlisted
      rcases hearing.listedAt_iff.1 hlisted with hold | ⟨rfl, hs, hops, hf⟩
      · exact h.lists p name s hold
      · obtain ⟨s', hs', hlink, -⟩ := h.gossip m hmem (Message.tag_of_teaches hf)
        cases hs.symm.trans hs'
        exact Or.inr (hmutual.symm s m.receiver hlink)
    case support =>
      intro p name hops hknown
      rcases hearing.knownAt_iff.1 hknown with hold | ⟨rfl, hf⟩
      · refine (h.support p name hops hold).imp_right fun ⟨s, hlink, hlisted, htold⟩ => ?_
        exact ⟨s, hlink, hearing.listedAt_iff.2 (Or.inl hlisted), hearing.toldBy_mono htold⟩
      · obtain ⟨s, hs, hlink, htold⟩ := h.gossip m hmem (Message.tag_of_teaches hf)
        refine Or.inr ⟨s, hmutual.symm s m.receiver hlink, ?_, ?_⟩
        · exact hearing.listedAt_iff.2 (Or.inr ⟨rfl, hs, hops, hf⟩)
        · exact hearing.toldBy_mono (htold name hops hf)
    case gossip =>
      intro m' hm' htag
      rcases hearing.mem_flight_iff.1 hm' with hm' | ⟨parcel, hparcel, rfl⟩
      · obtain ⟨s, hs, hlink, htold⟩ := h.gossip m' (List.mem_of_mem_eraseIdx hm') htag
        exact ⟨s, hs, hlink, fun name hops hf => hearing.toldBy_mono (htold name hops hf)⟩
      · obtain ⟨-, hlink, hs, htells⟩ := hearing.heard.sent parcel hparcel htag
        rw [identity_of_node? hearing.node] at hs
        refine ⟨m.receiver, hs, hneighbors ▸ hlink, fun name hops hf => ?_⟩
        exact hearing.toldBy_receiver.2 (htells _ hf)

/-- What a peer knows or is about to hear stays so. -/
theorem Hearing.keeps (hearing : Hearing names now d m n r next)
    (hm : now.flight[d.index]? = some m)
    (h : now.KnownAt p (.distance name hops) ∨
      ∃ m' ∈ now.flight, m'.receiver = p ∧ m'.message.Teaches (.distance name hops)) :
    next.KnownAt p (.distance name hops) ∨
      ∃ m' ∈ next.flight, m'.receiver = p ∧ m'.message.Teaches (.distance name hops) := by
  rcases h with hknown | ⟨m', hm', hr', hf'⟩
  · exact Or.inl (hearing.knownAt_iff.2 (Or.inl hknown))
  · rcases List.mem_cons.1 ((perm_flight hm).mem_iff.1 hm') with rfl | hm'
    · exact Or.inl (hearing.knownAt_iff.2 (Or.inr ⟨hr'.symm, hf'⟩))
    · exact Or.inr ⟨m', hearing.mem_flight_iff.2 (Or.inl hm'), hr', hf'⟩

/-- What the receiver of a message tells now, its neighbours know or it is on its way to
    them. -/
theorem Hearing.shared (hearing : Hearing names now d m n r next) (h : net.Routing now)
    (hshared : net.Shared now) (hm : now.flight[d.index]? = some m)
    (hp : p ∈ net.neighborsOf m.receiver) (hf : r.1.Tells (.distance name hops)) :
    next.KnownAt p (.distance name hops) ∨
      ∃ m' ∈ next.flight, m'.receiver = p ∧ m'.message.Teaches (.distance name hops) := by
  have hold : n.engine.Tells (.distance name hops) → next.KnownAt p (.distance name hops) ∨
      ∃ m' ∈ next.flight, m'.receiver = p ∧ m'.message.Teaches (.distance name hops) :=
    fun htells => hearing.keeps hm (hshared _ p name hops hp ⟨n, hearing.node, htells⟩)
  by_cases hsender : m.message.gossiper? = some p
  · -- the sender knows all that it has taught
    obtain ⟨d', hd', hle⟩ := hf
    rcases (hearing.heard.knows name _).1 hd' with hd' | hd'
    · exact hold ⟨d', hd', hle⟩
    · obtain ⟨s, hs, -, htold⟩ :=
        h.gossip m (List.mem_of_getElem? hm) (Message.tag_of_teaches hd')
      cases hsender.symm.trans hs
      obtain ⟨t, ht, htells⟩ := htold name _ hd'
      have hknown : now.KnownAt p (.distance name hops) :=
        ⟨t, ht, htells.knows.mono ((le_nextHop d').trans hle)⟩
      exact Or.inl (hearing.knownAt_iff.2 (Or.inl hknown))
  · have hneighbors : n.neighbors = net.neighborsOf m.receiver := by
      rw [← h.later.neighborsOf, neighborsOf_eq hearing.node]
    rcases hearing.heard.forwarded p (hneighbors ▸ hp) hsender name hops hf with
      hf | ⟨parcel, hparcel, hr', hf'⟩
    · exact hold hf
    · exact Or.inr ⟨parcel.envelope, hearing.mem_flight_iff.2 (Or.inr ⟨parcel, hparcel, rfl⟩),
        hr', hf'⟩

/-- **Every delivery keeps what is shared.** -/
theorem Shared.after (hshared : net.Shared now) (h : net.Routing now) (hmutual : net.Mutual)
    (hm : now.flight[d.index]? = some m) : net.Shared (now.after d) := by
  intro s p name hops hlink htold
  cases h.hearingStep hm with
  | aside hdeaf hnodes hflight =>
    have hnode : (now.after d).node? = now.node? := by
      funext p
      rw [node?, node?, hnodes]
    rw [ToldBy, hnode] at htold
    rw [KnownAt, hnode]
    refine (hshared s p name hops hlink htold).imp_right ?_
    rintro ⟨m', hm', hr', hf'⟩
    rcases List.mem_cons.1 ((perm_flight hm).mem_iff.1 hm') with rfl | hm'
    · -- gossip that a neighbor awaits is addressed to a peer
      obtain ⟨hreg, hsome⟩ := hmutual.isPeer hlink
      refine absurd ⟨?_, ?_⟩ (hdeaf (Message.tag_of_teaches hf'))
      · rwa [hr', h.later.1]
      · rw [hr', Option.isSome_iff_ne_none, ne_eq, h.later.node?_eq_none_iff]
        exact Option.isSome_iff_ne_none.1 hsome
    · exact ⟨m', hflight ▸ hm', hr', hf'⟩
  | @heard n r hearing =>
    by_cases hs : s = m.receiver
    · subst hs
      exact hearing.shared h hshared hm hlink (hearing.toldBy_receiver.1 htold)
    · exact hearing.keeps hm (hshared s p name hops hlink ((hearing.toldBy_of_ne hs).1 htold))

/-- Without gossip in flight, a delivery teaches nobody a distance and sends no gossip. -/
theorem Quiet.after (hquiet : now.Quiet) (h : net.Routing now) (d : Delivery) :
    (now.after d).Quiet ∧ ∀ p name hops,
      (now.after d).KnownAt p (.distance name hops) ↔ now.KnownAt p (.distance name hops) := by
  cases hm : now.flight[d.index]? with
  | none =>
    rw [after_of_none hm]
    exact ⟨hquiet, fun _ _ _ => Iff.rfl⟩
  | some m =>
    have htag : m.message.tag ≠ .gossipData := hquiet m (List.mem_of_getElem? hm)
    have hold : ∀ m' ∈ (now.without d.index).flight, m'.message.tag ≠ .gossipData :=
      fun m' hm' => hquiet m' (List.mem_of_mem_eraseIdx hm')
    cases h.hearingStep hm with
    | aside _ hnodes hflight =>
      refine ⟨fun m' hm' => hold m' (hflight ▸ hm'), fun p name hops => ?_⟩
      rw [KnownAt, KnownAt, node?, node?, hnodes]
    | @heard n r hearing =>
      refine ⟨fun m' hm' => ?_, fun p name hops => hearing.knownAt_iff.trans ?_⟩
      · rcases hearing.mem_flight_iff.1 hm' with hm' | ⟨parcel, hparcel, rfl⟩
        · exact hold m' hm'
        · exact fun ht => htag (hearing.heard.sent parcel hparcel ht).1
      · exact or_iff_left fun hf => htag (Message.tag_of_teaches hf.2)

end

/-! ## Whole runs -/

section
variable {net now : Network}

/-- **Tables lead somewhere during every run**, and what is shared stays so. -/
theorem routing_afterAll (h : net.Routing now) (hmutual : net.Mutual) (ds : List Delivery) :
    net.Routing (now.afterAll ds) ∧ (net.Shared now → net.Shared (now.afterAll ds)) := by
  induction ds using List.reverseRecOn with
  | nil => exact ⟨h, id⟩
  | append_singleton ds d ih =>
    rw [afterAll_append_singleton]
    cases hm : (now.afterAll ds).flight[d.index]? with
    | none => rw [after_of_none hm]; exact ih
    | some m => exact ⟨ih.1.after hmutual hm, fun hs => (ih.2 hs).after ih.1 hmutual hm⟩

/-- Without gossip in flight, no run teaches anybody a distance. -/
theorem quiet_afterAll (hquiet : now.Quiet) (h : net.Routing now) (hmutual : net.Mutual)
    (ds : List Delivery) : (now.afterAll ds).Quiet ∧ ∀ p name hops,
      (now.afterAll ds).KnownAt p (.distance name hops) ↔
        now.KnownAt p (.distance name hops) := by
  induction ds using List.reverseRecOn with
  | nil => exact ⟨hquiet, fun _ _ _ => Iff.rfl⟩
  | append_singleton ds d ih =>
    rw [afterAll_append_singleton]
    obtain ⟨hquiet', hknown⟩ := ih.1.after (routing_afterAll h hmutual ds).1 d
    exact ⟨hquiet', fun p name hops => (hknown p name hops).trans (ih.2 p name hops)⟩

end

/-! ## Exchanges -/

/-- Some exchanges: all peers tell their tables, and a run of deliveries follows. -/
def exchanges (net : Network) (rounds : List (List Delivery)) : Network :=
  rounds.foldl (fun now ds => now.exchange.afterAll ds) net

/-- The peers are new and know the distances to their own metrics, none are told yet, and
    every distance table has room for all metrics, under keys that differ. -/
structure DistancesSeeded (net : Network) : Prop where
  quiet : net.Quiet
  engines : ∀ n ∈ net.nodes, ∃ metrics settings coins,
    n.engine = (Engine.new n.engine.identity metrics settings coins).seed
  room : ∀ n ∈ net.nodes, net.names.card ≤ n.engine.distances.cache.capacity
  keys : Set.InjOn Gossip.nameKey net.names

section
variable {net now : Network} {p q : PeerAddress} {name : String}

theorem DistancesSeeded.knows (h : net.DistancesSeeded) {n : Node}
    (hn : net.node? p = some n) : n.engine.distances.HasRoom net.names ∧
      (∀ name hops, n.engine.distances.Knows name hops ↔ name ∈ net.namesOf p) ∧
      ∀ name s, n.engine.distances.Lists name s ↔ name ∈ net.namesOf p ∧ s = p := by
  have hmem := mem_of_node? hn
  obtain ⟨metrics, settings, coins, he⟩ := h.engines n hmem
  have hmetrics : n.engine.metrics = metrics :=
    (congrArg Engine.metrics he).trans (Engine.identity_enterOwn _ _).2
  have hown : ∀ name ∈ metrics.metricNames, name ∈ net.names := fun name hname =>
    List.mem_toFinset.2 (List.mem_flatMap.2 ⟨n, hmem, hmetrics ▸ hname⟩)
  rw [namesOf_eq hn, hmetrics, ← identity_of_node? hn]
  exact Engine.distances_seed he (h.room n hmem) h.keys hown

/-- New engines list only themselves, for what they have themselves. -/
theorem DistancesSeeded.routing (h : net.DistancesSeeded) : net.Routing net := by
  constructor
  case later => exact .refl net
  case peers => rfl
  case room => exact fun p n hn => (h.knows hn).1
  case own =>
    intro p name hname
    obtain ⟨n, hn⟩ := Option.isSome_iff_exists.1
      (isSome_node?_iff.2 (mem_peers_of_mem_namesOf hname))
    exact ⟨n, hn, ((h.knows hn).2.1 name 0).2 hname⟩
  case lists =>
    rintro p name s ⟨n, hn, hl⟩
    exact Or.inl (((h.knows hn).2.2 name s).1 hl).2
  case support =>
    rintro p name hops ⟨n, hn, hk⟩
    exact Or.inl (((h.knows hn).2.1 name hops).1 hk)
  case gossip => exact fun m hm htag => absurd htag (h.quiet m hm)

/-- **When all peers tell their tables, everything is shared.** -/
theorem Routing.exchange (h : net.Routing now) (hmutual : net.Mutual) :
    net.Routing now.exchange ∧ net.Shared now.exchange := by
  constructor
  · refine ⟨h.later, h.peers, h.room, h.own, h.lists, h.support, fun m hm htag => ?_⟩
    rcases mem_flight_exchange_iff.1 hm with hm | ⟨n, hn, hr, hmessage | hmessage⟩
    · exact h.gossip m hm htag
    · have hnode := node?_of_mem (h.peers ▸ hmutual.distinct) hn
      refine ⟨n.engine.identity, by rw [hmessage]; rfl, ?_, fun name hops hf => ⟨n, hnode, ?_⟩⟩
      · rwa [← h.later.neighborsOf, neighborsOf_eq hnode]
      · rw [hmessage] at hf
        exact Engine.tells_iff.2 (Or.inl hf)
    · rw [hmessage] at htag
      cases htag
  · rintro s p name hops hlink ⟨n, hn, hf⟩
    have hn' : now.node? s = some n := hn
    rw [← h.later.neighborsOf, neighborsOf_eq hn'] at hlink
    have hteaches := (Engine.tells_iff.1 hf).resolve_right id
    exact Or.inr ⟨⟨p, n.engine.distancesMessage⟩,
      mem_flight_exchange_iff.2 (Or.inr ⟨n, mem_of_node? hn', hlink, Or.inl rfl⟩), rfl, hteaches⟩

/-- **Tables lead somewhere after any number of exchanges**, and everything is shared after
    the first one. -/
theorem routing_exchanges (hmutual : net.Mutual) (hseeded : net.DistancesSeeded)
    (rounds : List (List Delivery)) : net.Routing (net.exchanges rounds) ∧
      (rounds ≠ [] → net.Shared (net.exchanges rounds)) := by
  induction rounds using List.reverseRecOn with
  | nil => exact ⟨hseeded.routing, fun h => absurd rfl h⟩
  | append_singleton rounds ds ih =>
    obtain ⟨hrouting, hshared⟩ := ih.1.exchange hmutual
    obtain ⟨hrouting', hshared'⟩ := routing_afterAll hrouting hmutual ds
    have hlast : net.exchanges (rounds ++ [ds]) =
        (net.exchanges rounds).exchange.afterAll ds := by
      simp [exchanges]
    rw [hlast]
    exact ⟨hrouting', fun _ => hshared' hshared⟩

/-- With no gossip in flight, a metric is known along every way from the peer that has it. -/
theorem Shared.knownAt_of_walk (hshared : net.Shared now) (h : net.Routing now)
    (hquiet : now.Quiet) (hmutual : net.Mutual) (w : net.graph.Walk p q)
    (hname : name ∈ net.namesOf q) : now.KnownAt p (.distance name w.length) := by
  induction w with
  | nil => exact h.own _ name hname
  | @cons p s q hadj w ih =>
    obtain ⟨n, hn, entry, he, hen, hed⟩ := ih hname
    have hlink := hmutual.mem_neighborsOf_of_adj hadj.symm
    refine (hshared s p name _ hlink ⟨n, hn, entry.2.distance, ?_, ?_⟩).resolve_right ?_
    · exact ⟨entry, he, hen, le_rfl⟩
    · rw [toNat_nextHop, SimpleGraph.Walk.length_cons]
      omega
    · rintro ⟨m, hm, -, hf⟩
      exact hquiet m hm (Message.tag_of_teaches hf)

end

end Network

end OverlayCensus
