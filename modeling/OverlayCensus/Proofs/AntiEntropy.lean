/-
  OverlayCensus — gossip brings every peer to know the truth.

  The truth for a peer is what the peers connected to it have, and how far away they are
  (`Holds`).  During an exchange no table says anything else, and whatever a peer tells a
  neighbour is known there or on its way (`Exchanging`), so once nothing is on its way any
  more, every table says all of it.

  * `exchanging_afterAll`: the invariant holds during every run;
  * `knownAt_iff_holds`: at the end, a peer knows what is true;
  * `exchange_converges`: what this means for the two tables.
-/
import Mathlib
import OverlayCensus.Proofs.GossipFacts
import OverlayCensus.Proofs.Topology

namespace OverlayCensus

namespace Network

/-! ## The truth -/

/-- The metrics that a peer has. -/
def namesOf (net : Network) (p : PeerAddress) : List String :=
  ((net.node? p).map fun n => n.engine.metrics.metricNames).getD []

/-- The metrics that any peer has. -/
def names (net : Network) : Finset String :=
  (net.nodes.flatMap fun n => n.engine.metrics.metricNames).toFinset

/-- All metrics together with the peers that have them. -/
def locations (net : Network) : Finset Location :=
  (net.nodes.flatMap fun n =>
    n.engine.metrics.metricNames.map fun name => ⟨n.engine.identity, name⟩).toFinset

/-- A fact is true for a peer: a peer connected to it has the metric, at most so many links
    away, or the peer of a location is connected to it and has the metric. -/
def Holds (net : Network) (p : PeerAddress) : Fact → Prop
  | .distance name hops => ∃ q, net.graph.Reachable p q ∧ name ∈ net.namesOf q ∧
      net.graph.dist p q ≤ hops
  | .location l => net.graph.Reachable p l.holder ∧ l.name ∈ net.namesOf l.holder

/-- A peer knows a fact. -/
def KnownAt (net : Network) (p : PeerAddress) (f : Fact) : Prop :=
  ∃ n, net.node? p = some n ∧ n.engine.Knows f

/-- A peer would tell its neighbours a fact. -/
def ToldBy (net : Network) (p : PeerAddress) (f : Fact) : Prop :=
  ∃ n, net.node? p = some n ∧ n.engine.Tells f

/-- The state of an exchange that started from a network: every table has room and says
    nothing but the truth, every peer knows what it has itself, all messages in flight are
    gossip between neighbours that its sender would tell again, and what a peer would tell
    a neighbour is known there or in flight. -/
structure Exchanging (net now : Network) : Prop where
  later : net.Later now
  room : ∀ p n, now.node? p = some n → n.engine.HasRoom net.names net.locations
  sound : ∀ p f, now.KnownAt p f → net.Holds p f
  own : ∀ p ∈ net.peers, ∀ f, Engine.IsOwn p (net.namesOf p) f → now.KnownAt p f
  gossip : ∀ m ∈ now.flight, ∃ s, m.message.gossiper? = some s ∧
    m.receiver ∈ net.neighborsOf s ∧ ∀ f, m.message.Teaches f → now.ToldBy s f
  heard : ∀ s p f, p ∈ net.neighborsOf s → now.ToldBy s f →
    now.KnownAt p f ∨ ∃ m ∈ now.flight, m.receiver = p ∧ m.message.Teaches f

section
variable {net now : Network} {p q s : PeerAddress} {n : Node} {f : Fact}

theorem namesOf_eq (h : net.node? p = some n) :
    net.namesOf p = n.engine.metrics.metricNames := by
  simp [namesOf, h]

theorem mem_peers_of_mem_namesOf {name : String} (h : name ∈ net.namesOf p) : p ∈ net.peers := by
  rw [← isSome_node?_iff]
  cases hn : net.node? p with
  | none => simp [namesOf, hn] at h
  | some n => rfl

theorem Later.namesOf (h : net.Later now) (p : PeerAddress) :
    now.namesOf p = net.namesOf p := by
  cases hn : net.node? p with
  | none => simp [Network.namesOf, hn, (h.2 p).1 hn]
  | some n =>
    obtain ⟨n', hn', hl⟩ := (h.2 p).2 n hn
    rw [namesOf_eq hn, namesOf_eq hn', hl.metrics]

/-- A run changes nothing about the truth. -/
theorem Later.holds_iff (h : net.Later now) : now.Holds p f ↔ net.Holds p f := by
  cases f <;> simp only [Holds, h.graph, h.namesOf]

/-- **What is true for a peer is true for its neighbours as it tells them.** -/
theorem holds_of_toldBy (hlinked : net.Linked) (hsize : net.nodes.length < 2 ^ 32)
    (hsound : ∀ f, now.KnownAt s f → net.Holds s f) (hlink : p ∈ net.neighborsOf s)
    (h : now.ToldBy s f) : net.Holds p f := by
  obtain ⟨n, hn, hf⟩ := h
  have hadj : net.graph.Adj p s := hlinked.adj_iff.2 (hlinked.neighborsOf_symm hlink)
  cases f with
  | distance name hops =>
    obtain ⟨d, hk, hle⟩ := hf
    obtain ⟨q, hreach, hname, hdist⟩ := hsound _ ⟨n, hn, hk⟩
    have hreach' : net.graph.Reachable p q := hadj.reachable.trans hreach
    refine ⟨q, hreach', hname, ?_⟩
    have hlt := hlinked.dist_lt (hlinked.mem_peers hlink) hreach'
    have hstep : net.graph.dist p q ≤ net.graph.dist s q + 1 := by
      obtain ⟨w, hw⟩ := hreach.exists_walk_length_eq_dist
      rw [← hw]
      exact SimpleGraph.dist_le (SimpleGraph.Walk.cons hadj w)
    rw [toNat_nextHop] at hle
    omega
  | location l =>
    obtain ⟨hreach, hname⟩ := hsound (.location l) ⟨n, hn, hf⟩
    exact ⟨hadj.reachable.trans hreach, hname⟩

end

/-! ## One delivery -/

section
variable {net now : Network} {p s : PeerAddress} {n : Node} {f : Fact} {m : Envelope}
  {r : Engine × List Parcel} {i pick : ℕ} (hn : now.node? m.receiver = some n)
  (hr : n.engine.handle n.neighbors pick m.message = some r)
include hn hr

theorem knownAt_handled :
    (((now.without i).setEngine m.receiver r.1).send r.2).KnownAt p f ↔
      if p = m.receiver then r.1.Knows f else now.KnownAt p f := by
  rw [KnownAt, node?_handled hn hr]
  split_ifs
  · simp
  · rfl

theorem toldBy_handled :
    (((now.without i).setEngine m.receiver r.1).send r.2).ToldBy p f ↔
      if p = m.receiver then r.1.Tells f else now.ToldBy p f := by
  rw [ToldBy, node?_handled hn hr]
  split_ifs
  · simp
  · rfl

end

/-- A delivery of gossip: the receiver absorbs what its neighbour, which sent the message,
    would tell it. -/
structure GossipStep (net now : Network) (d : Delivery) (m : Envelope) (s : PeerAddress)
    (teacher receiver : Node) (r : Engine × List Parcel) : Prop where
  sender : m.message.gossiper? = some s
  link : m.receiver ∈ net.neighborsOf s
  teacher_node : now.node? s = some teacher
  taught : ∀ f, m.message.Teaches f → teacher.engine.Tells f
  receiver_node : now.node? m.receiver = some receiver
  neighbors : receiver.neighbors = net.neighborsOf m.receiver
  result : receiver.engine.handle receiver.neighbors d.pick m.message = some r
  absorbed : receiver.engine.Absorbed receiver.neighbors s m.message r
  room : r.1.HasRoom net.names net.locations
  after : now.after d = ((now.without d.index).setEngine m.receiver r.1).send r.2

/-- Every delivery of an exchange is one of gossip. -/
theorem Exchanging.gossipStep {net now : Network} {d : Delivery} {m : Envelope}
    (h : net.Exchanging now) (hlinked : net.Linked) (hm : now.flight[d.index]? = some m) :
    ∃ s teacher receiver r, net.GossipStep now d m s teacher receiver r := by
  obtain ⟨s, hs, hlink, htold⟩ := h.gossip m (List.mem_of_getElem? hm)
  obtain ⟨hreg, hsome⟩ := hlinked.isPeer_of_mem hlink
  obtain ⟨n₀, hn₀⟩ := Option.isSome_iff_exists.1 hsome
  obtain ⟨n, hn, hlater⟩ := (h.later.2 m.receiver).2 n₀ hn₀
  obtain ⟨t₀, ht₀, -⟩ := mem_neighborsOf hlink
  obtain ⟨t, ht, -⟩ := (h.later.2 s).2 t₀ ht₀
  have htaught : ∀ f, m.message.Teaches f → t.engine.Tells f := by
    intro f hf
    obtain ⟨t', ht', htells⟩ := htold f hf
    rw [ht] at ht'
    cases ht'
    exact htells
  obtain ⟨r, hr, habsorbed, hroom⟩ := Engine.absorbed_of_told (h.room _ n hn) (h.room _ t ht) hs
    htaught n.neighbors d.pick
  refine ⟨s, t, n, r, hs, hlink, ht, htaught, hn, ?_, hr, habsorbed, hroom, ?_⟩
  · rw [hlater.neighbors, neighborsOf_eq hn₀]
  · have hstep := step_after hm
    generalize now.after d = next at hstep
    cases hstep with
    | observed hobserved => exact absurd (hobserved.trans h.later.1) hreg
    | lost _ hlost => rw [hn] at hlost; cases hlost
    | refused _ hn' hr' =>
      rw [hn] at hn'
      cases hn'
      rw [hr] at hr'
      cases hr'
    | handled _ hn' hr' =>
      rw [hn] at hn'
      cases hn'
      rw [hr] at hr'
      cases hr'
      rfl

section
variable {net now : Network} {d : Delivery} {m : Envelope} {s p : PeerAddress}
  {teacher receiver : Node} {r : Engine × List Parcel} {f : Fact}

namespace GossipStep
variable (h : net.GossipStep now d m s teacher receiver r)
include h

theorem knownAt_iff : (now.after d).KnownAt p f ↔
    now.KnownAt p f ∨ (p = m.receiver ∧ m.message.Teaches f) := by
  rw [h.after, knownAt_handled h.receiver_node h.result]
  split_ifs with hp
  · rw [h.absorbed.knows, hp, KnownAt]
    simp [h.receiver_node]
  · simp [hp]

theorem toldBy_of_ne (hp : p ≠ m.receiver) : (now.after d).ToldBy p f ↔ now.ToldBy p f := by
  rw [h.after, toldBy_handled h.receiver_node h.result, if_neg hp]

theorem toldBy_receiver : (now.after d).ToldBy m.receiver f ↔ r.1.Tells f := by
  rw [h.after, toldBy_handled h.receiver_node h.result, if_pos rfl]

theorem toldBy_mono (hf : now.ToldBy p f) : (now.after d).ToldBy p f := by
  by_cases hp : p = m.receiver
  · subst hp
    obtain ⟨n, hn, htells⟩ := hf
    rw [h.receiver_node] at hn
    cases hn
    exact h.toldBy_receiver.2 (htells.mono fun g hg => (h.absorbed.knows g).2 (Or.inl hg))
  · exact (h.toldBy_of_ne hp).2 hf

theorem mem_flight_iff {m' : Envelope} : m' ∈ (now.after d).flight ↔
    m' ∈ (now.without d.index).flight ∨ ∃ parcel ∈ r.2, parcel.envelope = m' := by
  rw [h.after]
  show m' ∈ (now.without d.index).flight ++ r.2.map Parcel.envelope ↔ _
  rw [List.mem_append, List.mem_map]

/-- What the receiver tells now, its neighbours know or it is on its way to them. -/
theorem heard_from_receiver (hlinked : net.Linked) (hm : now.flight[d.index]? = some m)
    (hheard : ∀ p f, p ∈ net.neighborsOf m.receiver → now.ToldBy m.receiver f →
      now.KnownAt p f ∨ ∃ m ∈ now.flight, m.receiver = p ∧ m.message.Teaches f)
    (hp : p ∈ net.neighborsOf m.receiver) (hf : r.1.Tells f) :
    (now.after d).KnownAt p f ∨
      ∃ m' ∈ (now.after d).flight, m'.receiver = p ∧ m'.message.Teaches f := by
  have hold : receiver.engine.Tells f → (now.after d).KnownAt p f ∨
      ∃ m' ∈ (now.after d).flight, m'.receiver = p ∧ m'.message.Teaches f := by
    intro htells
    refine (hheard p f hp ⟨receiver, h.receiver_node, htells⟩).imp
      (fun hk => h.knownAt_iff.2 (Or.inl hk)) fun ⟨m', hm', hr', ht'⟩ => ?_
    -- the message that is handed over is for the receiver, not for its neighbour
    have hne : m' ≠ m := by
      rintro rfl
      rw [hr'] at hp
      exact hlinked.not_mem_neighborsOf_self hp
    have hleft := (List.mem_cons.1 ((perm_flight hm).mem_iff.1 hm')).resolve_left hne
    exact ⟨m', h.mem_flight_iff.2 (Or.inl hleft), hr', ht'⟩
  by_cases hsender : p = s
  · rcases Engine.knows_of_tells (fun f => (h.absorbed.knows f).1) h.taught hf with hf | hf
    · exact hold hf
    · exact Or.inl (h.knownAt_iff.2 (Or.inl ⟨teacher, hsender ▸ h.teacher_node, hf⟩))
  · rcases h.absorbed.forwarded p (h.neighbors ▸ hp) hsender f hf with hf | ⟨parcel, hpar, hr', ht'⟩
    · exact hold hf
    · exact Or.inr ⟨parcel.envelope, h.mem_flight_iff.2 (Or.inr ⟨parcel, hpar, rfl⟩), hr', ht'⟩

end GossipStep

/-- **Every delivery keeps the state of an exchange.** -/
theorem Exchanging.after (h : net.Exchanging now) (hlinked : net.Linked)
    (hsize : net.nodes.length < 2 ^ 32) (hm : now.flight[d.index]? = some m) :
    net.Exchanging (now.after d) := by
  obtain ⟨s, teacher, receiver, r, hstep⟩ := h.gossipStep hlinked hm
  have hidentity := identity_of_node? hstep.receiver_node
  constructor
  case later => exact h.later.trans (later_after now d)
  case room =>
    intro p n hn
    rw [hstep.after, node?_handled hstep.receiver_node hstep.result] at hn
    split_ifs at hn with hp
    · cases hn
      exact hstep.room
    · exact h.room p n hn
  case sound =>
    intro p f hknown
    rcases hstep.knownAt_iff.1 hknown with hf | ⟨rfl, hf⟩
    · exact h.sound p f hf
    · exact holds_of_toldBy hlinked hsize (h.sound s) hstep.link
        ⟨teacher, hstep.teacher_node, hstep.taught f hf⟩
  case own =>
    intro p hp f hf
    exact hstep.knownAt_iff.2 (Or.inl (h.own p hp f hf))
  case gossip =>
    intro m' hm'
    rcases hstep.mem_flight_iff.1 hm' with hm' | ⟨parcel, hparcel, rfl⟩
    · obtain ⟨s', hs', hlink', htold⟩ := h.gossip m' (List.mem_of_mem_eraseIdx hm')
      exact ⟨s', hs', hlink', fun f hf => hstep.toldBy_mono (htold f hf)⟩
    · obtain ⟨hlink', hs', htold⟩ := hstep.absorbed.sent parcel hparcel
      rw [hidentity] at hs'
      exact ⟨m.receiver, hs', hstep.neighbors ▸ hlink', fun f hf =>
        hstep.toldBy_receiver.2 (htold f hf)⟩
  case heard =>
    intro s' p f hlink hf
    by_cases hs' : s' = m.receiver
    · subst hs'
      exact hstep.heard_from_receiver hlinked hm (h.heard m.receiver) hlink
        (hstep.toldBy_receiver.1 hf)
    · rcases h.heard s' p f hlink ((hstep.toldBy_of_ne hs').1 hf) with hk | ⟨m', hm', hr', ht'⟩
      · exact Or.inl (hstep.knownAt_iff.2 (Or.inl hk))
      · rcases List.mem_cons.1 ((perm_flight hm).mem_iff.1 hm') with rfl | hm'
        · exact Or.inl (hstep.knownAt_iff.2 (Or.inr ⟨hr'.symm, ht'⟩))
        · exact Or.inr ⟨m', hstep.mem_flight_iff.2 (Or.inl hm'), hr', ht'⟩

/-- **An exchange keeps its state during every run.** -/
theorem exchanging_afterAll (hlinked : net.Linked) (hsize : net.nodes.length < 2 ^ 32)
    (h : net.Exchanging now) (ds : List Delivery) : net.Exchanging (now.afterAll ds) := by
  induction ds using List.reverseRecOn with
  | nil => exact h
  | append_singleton ds d ih =>
    rw [afterAll_append_singleton]
    cases hm : (now.afterAll ds).flight[d.index]? with
    | none => rw [after_of_none hm]; exact ih
    | some m => exact ih.after hlinked hsize hm

end

/-! ## The beginning -/

/-- The peers are new and know their own metrics, nothing is in flight, and all tables have
    room for all there is to know, under keys that differ. -/
structure Seeded (net : Network) : Prop where
  idle : net.flight = []
  engines : ∀ n ∈ net.nodes, ∃ metrics settings coins,
    n.engine = (Engine.new n.engine.identity metrics settings coins).seed
  distances : ∀ n ∈ net.nodes, net.names.card ≤ n.engine.distances.cache.capacity
  locations : ∀ n ∈ net.nodes, net.locations.card ≤ n.engine.locations.cache.capacity
  nameKeys : Set.InjOn Gossip.nameKey net.names
  locationKeys : Set.InjOn Location.key net.locations

section
variable {net : Network}

theorem Seeded.knows (h : net.Seeded) {n : Node} (hn : n ∈ net.nodes) :
    n.engine.HasRoom net.names net.locations ∧ ∀ f, n.engine.Knows f ↔
      Engine.IsOwn n.engine.identity n.engine.metrics.metricNames f := by
  obtain ⟨metrics, settings, coins, he⟩ := h.engines n hn
  have hmetrics : n.engine.metrics = metrics :=
    (congrArg Engine.metrics he).trans (Engine.identity_enterOwn _ _).2
  have hnames : ∀ name ∈ metrics.metricNames,
      name ∈ net.names ∧ (⟨n.engine.identity, name⟩ : Location) ∈ net.locations := by
    intro name hname
    rw [← hmetrics] at hname
    constructor
    · exact List.mem_toFinset.2 (List.mem_flatMap.2 ⟨n, hn, hname⟩)
    · exact List.mem_toFinset.2 (List.mem_flatMap.2 ⟨n, hn, List.mem_map.2 ⟨name, hname, rfl⟩⟩)
  rw [hmetrics]
  exact Engine.knows_seed he (h.distances n hn) (h.locations n hn) h.nameKeys h.locationKeys hnames

/-- What is in flight when all peers have told their tables. -/
theorem mem_flight_exchange_iff {m : Envelope} :
    m ∈ net.exchange.flight ↔ m ∈ net.flight ∨ ∃ n ∈ net.nodes, m.receiver ∈ n.neighbors ∧
      (m.message = n.engine.distancesMessage ∨ m.message = n.engine.locationsMessage) := by
  rw [exchange, send, List.mem_append, List.mem_map]
  refine or_congr_right ?_
  constructor
  · rintro ⟨parcel, hparcel, rfl⟩
    obtain ⟨n, hn, hp⟩ := List.mem_flatMap.1 hparcel
    refine ⟨n, List.mem_mergeSort.1 hn, ?_⟩
    rcases List.mem_append.1 hp with hp | hp
    · obtain ⟨r, hr, -, rfl⟩ := Engine.mem_toAll.1 hp
      exact ⟨hr, Or.inl rfl⟩
    · obtain ⟨r, hr, -, rfl⟩ := Engine.mem_toAll.1 hp
      exact ⟨hr, Or.inr rfl⟩
  · rintro ⟨n, hn, hr, hm⟩
    refine ⟨⟨.everyone, m.receiver, m.message⟩, ?_, rfl⟩
    refine List.mem_flatMap.2 ⟨n, List.mem_mergeSort.2 hn, List.mem_append.2 ?_⟩
    refine hm.imp (fun hm => ?_) fun hm => ?_
    · exact Engine.mem_toAll.2 ⟨m.receiver, hr, by simp, by rw [hm]⟩
    · exact Engine.mem_toAll.2 ⟨m.receiver, hr, by simp, by rw [hm]⟩

theorem mem_flight_exchange (hidle : net.flight = []) {m : Envelope} :
    m ∈ net.exchange.flight ↔ ∃ n ∈ net.nodes, m.receiver ∈ n.neighbors ∧
      (m.message = n.engine.distancesMessage ∨ m.message = n.engine.locationsMessage) := by
  rw [mem_flight_exchange_iff, hidle]
  exact or_iff_right List.not_mem_nil

/-- An exchange begins when every peer has told its tables. -/
theorem exchanging_exchange (hlinked : net.Linked) (h : net.Seeded) :
    net.Exchanging net.exchange := by
  constructor
  case later => exact Later.refl net
  case room =>
    intro p n hn
    exact (h.knows (mem_of_node? hn)).1
  case sound =>
    rintro p f ⟨n, hn, hf⟩
    have hn' : net.node? p = some n := hn
    have hown := ((h.knows (mem_of_node? hn)).2 f).1 hf
    rw [identity_of_node? hn, ← namesOf_eq hn'] at hown
    cases f with
    | distance name hops =>
      exact ⟨p, SimpleGraph.Reachable.refl p, hown, by rw [SimpleGraph.dist_self]; omega⟩
    | location l =>
      obtain ⟨hholder, hname⟩ := hown
      show net.graph.Reachable p l.holder ∧ l.name ∈ net.namesOf l.holder
      rw [hholder]
      exact ⟨SimpleGraph.Reachable.refl p, hname⟩
  case own =>
    intro p hp f hf
    obtain ⟨n, hn⟩ := Option.isSome_iff_exists.1 (isSome_node?_iff.2 hp)
    refine ⟨n, hn, ((h.knows (mem_of_node? hn)).2 f).2 ?_⟩
    rwa [identity_of_node? hn, ← namesOf_eq hn]
  case gossip =>
    intro m hm
    obtain ⟨n, hn, hr, hmessage⟩ := (mem_flight_exchange h.idle).1 hm
    have hnode := node?_of_mem hlinked.distinct hn
    refine ⟨n.engine.identity, ?_, neighborsOf_eq hnode ▸ hr, fun f hf => ⟨n, hnode, ?_⟩⟩
    · rcases hmessage with hmessage | hmessage <;> rw [hmessage] <;> rfl
    · rcases hmessage with hmessage | hmessage <;> rw [hmessage] at hf
      · exact Engine.tells_iff.2 (Or.inl hf)
      · exact Engine.tells_iff.2 (Or.inr hf)
  case heard =>
    rintro s p f hlink ⟨n, hn, hf⟩
    have hn' : net.node? s = some n := hn
    rw [neighborsOf_eq hn'] at hlink
    refine Or.inr ?_
    rcases Engine.tells_iff.1 hf with hf | hf
    · exact ⟨⟨p, _⟩, (mem_flight_exchange h.idle).2 ⟨n, mem_of_node? hn, hlink, Or.inl rfl⟩,
        rfl, hf⟩
    · exact ⟨⟨p, _⟩, (mem_flight_exchange h.idle).2 ⟨n, mem_of_node? hn, hlink, Or.inr rfl⟩,
        rfl, hf⟩

end

/-! ## The end -/

section
variable {net now : Network} {p q : PeerAddress} {f : Fact}

/-- With nothing in flight, a metric is known along every way from the peer that has it. -/
theorem Exchanging.knownAt_of_walk (h : net.Exchanging now) (hlinked : net.Linked)
    (hdone : now.flight = []) (w : net.graph.Walk p q) {name : String}
    (hname : name ∈ net.namesOf q) :
    now.KnownAt p (.distance name w.length) ∧ now.KnownAt p (.location ⟨q, name⟩) := by
  have hheard : ∀ s p f, p ∈ net.neighborsOf s → now.ToldBy s f → now.KnownAt p f := by
    intro s p f hlink hf
    refine (h.heard s p f hlink hf).resolve_right ?_
    rw [hdone]
    rintro ⟨m, hm, -⟩
    cases hm
  induction w with
  | nil =>
    have hpeer := mem_peers_of_mem_namesOf hname
    exact ⟨h.own _ hpeer (.distance name 0) hname, h.own _ hpeer (.location _) ⟨rfl, hname⟩⟩
  | @cons p s q hadj w ih =>
    obtain ⟨⟨n, hn, entry, he, hen, hed⟩, hlocation⟩ := ih hname
    have hlink := hlinked.neighborsOf_symm (hlinked.adj_iff.1 hadj)
    constructor
    · refine hheard s p (.distance name _) hlink ⟨n, hn, entry.2.distance, ?_, ?_⟩
      · exact ⟨entry, he, hen, le_rfl⟩
      · rw [toNat_nextHop, SimpleGraph.Walk.length_cons]
        omega
    · obtain ⟨n', hn', hl⟩ := hlocation
      exact hheard s p (.location _) hlink ⟨n', hn', hl⟩

/-- **With nothing in flight, a peer knows the truth** and nothing else. -/
theorem Exchanging.knownAt_iff_holds (h : net.Exchanging now) (hlinked : net.Linked)
    (hdone : now.flight = []) : now.KnownAt p f ↔ net.Holds p f := by
  constructor
  · exact h.sound p f
  · intro hf
    cases f with
    | distance name hops =>
      obtain ⟨q, hreach, hname, hdist⟩ := hf
      obtain ⟨w, hw⟩ := hreach.exists_walk_length_eq_dist
      obtain ⟨n, hn, hk⟩ := (h.knownAt_of_walk hlinked hdone w hname).1
      exact ⟨n, hn, hk.mono (hw ▸ hdist)⟩
    | location l =>
      obtain ⟨hreach, hname⟩ := hf
      obtain ⟨w⟩ := hreach
      exact (h.knownAt_of_walk hlinked hdone w hname).2

/-- **Gossip converges to the truth.**  Every peer tells its tables once, and then messages
    are handed over in any order until none is in flight.  Now every peer has one entry
    for each metric that a peer connected to it has, with the distance to the nearest
    such peer, and knows one location for each such peer and metric, and no others. -/
theorem exchange_converges (hlinked : net.Linked) (hsize : net.nodes.length < 2 ^ 32)
    (hseeded : net.Seeded) {ds : List Delivery} (hdone : (net.exchange.afterAll ds).flight = []) :
    ∀ n ∈ (net.exchange.afterAll ds).nodes,
      ((n.engine.distances.entries.map DistanceEntry.name).Nodup ∧
        (∀ name, (∃ e ∈ n.engine.distances.entries, e.name = name) ↔
          ∃ q, net.graph.Reachable n.engine.identity q ∧ name ∈ net.namesOf q) ∧
        ∀ e ∈ n.engine.distances.entries,
          IsLeast {d | ∃ q, net.graph.Reachable n.engine.identity q ∧ e.name ∈ net.namesOf q ∧
            d = net.graph.dist n.engine.identity q} e.distance.toNat) ∧
      n.engine.locations.entries.Nodup ∧
        ∀ l, l ∈ n.engine.locations.entries ↔
          net.graph.Reachable n.engine.identity l.holder ∧ l.name ∈ net.namesOf l.holder := by
  intro n hn
  have hstate := exchanging_afterAll hlinked hsize (exchanging_exchange hlinked hseeded) ds
  have hpeers : (net.exchange.afterAll ds).peers = net.peers := peers_afterAll net.exchange ds
  have hnode := node?_of_mem (hpeers ▸ hlinked.distinct) hn
  have hknows : ∀ f, n.engine.Knows f ↔ net.Holds n.engine.identity f := by
    intro f
    rw [← hstate.knownAt_iff_holds hlinked hdone]
    simp [KnownAt, hnode]
  have hentry : ∀ e ∈ n.engine.distances.entries,
      net.Holds n.engine.identity (.distance e.name e.distance.toNat) := fun e he =>
    (hknows _).1 (DistanceTable.knows_iff.2 ⟨e, he, rfl, le_rfl⟩)
  have hdistance : ∀ name q, net.graph.Reachable n.engine.identity q → name ∈ net.namesOf q →
      ∃ e ∈ n.engine.distances.entries, e.name = name ∧
        e.distance.toNat ≤ net.graph.dist n.engine.identity q := fun name q hreach hname =>
    DistanceTable.knows_iff.1 ((hknows (.distance name _)).2 ⟨q, hreach, hname, le_rfl⟩)
  have hnodup := n.engine.distances.nodup_names
  refine ⟨⟨hnodup, fun name => ?_, fun e he => ⟨?_, ?_⟩⟩, n.engine.locations.nodup_entries,
    fun l => hknows (.location l)⟩
  · constructor
    · rintro ⟨e, he, rfl⟩
      obtain ⟨q, hreach, hname, -⟩ := hentry e he
      exact ⟨q, hreach, hname⟩
    · rintro ⟨q, hreach, hname⟩
      obtain ⟨e, he, hen, -⟩ := hdistance name q hreach hname
      exact ⟨e, he, hen⟩
  · obtain ⟨q, hreach, hname, hle⟩ := hentry e he
    obtain ⟨e', he', hen, hle'⟩ := hdistance e.name q hreach hname
    rw [List.inj_on_of_nodup_map hnodup he' he hen] at hle'
    exact ⟨q, hreach, hname, le_antisymm hle' hle⟩
  · rintro d ⟨q, hreach, hname, rfl⟩
    obtain ⟨e', he', hen, hle⟩ := hdistance e.name q hreach hname
    rwa [List.inj_on_of_nodup_map hnodup he' he hen] at hle

end

open Sample in
/-- The first peer of a row has a metric, and the third hears of it from the second. -/
theorem exchange_converges_row :
    row.Linked ∧ row.nodes.length < 2 ^ 32 ∧ row.Seeded ∧
      (row.exchange.afterAll (inOrder 10)).flight = [] ∧
      ∀ n ∈ (row.exchange.afterAll (inOrder 10)).nodes,
        ((n.engine.distances.entries.map DistanceEntry.name).Nodup ∧
          (∀ name, (∃ e ∈ n.engine.distances.entries, e.name = name) ↔
            ∃ q, row.graph.Reachable n.engine.identity q ∧ name ∈ row.namesOf q) ∧
          ∀ e ∈ n.engine.distances.entries,
            IsLeast {d | ∃ q, row.graph.Reachable n.engine.identity q ∧
              e.name ∈ row.namesOf q ∧ d = row.graph.dist n.engine.identity q}
              e.distance.toNat) ∧
        n.engine.locations.entries.Nodup ∧
          ∀ l, l ∈ n.engine.locations.entries ↔
            row.graph.Reachable n.engine.identity l.holder ∧ l.name ∈ row.namesOf l.holder := by
  have hlinked : row.Linked :=
    ⟨by decide +kernel, by decide +kernel, by decide +kernel, by decide +kernel⟩
  have hkeys : ∀ l ∈ row.locations, ∀ l' ∈ row.locations, l.key = l'.key → l = l' := by
    decide +kernel
  have hnameKeys : ∀ name ∈ row.names, ∀ name' ∈ row.names,
      Gossip.nameKey name = Gossip.nameKey name' → name = name' := by decide +kernel
  have hseeded : row.Seeded := by
    refine ⟨rfl, fun n hn => ?_, by decide +kernel, by decide +kernel,
      fun name hname name' hname' => hnameKeys name hname name' hname',
      fun l hl l' hl' => hkeys l hl l' hl'⟩
    simp only [row, List.mem_cons, List.not_mem_nil, or_false] at hn
    rcases hn with rfl | rfl | rfl <;> exact ⟨_, _, _, rfl⟩
  -- the peers stand in order, so nothing is left to sort
  have hexchange : row.exchange =
      row.send (row.nodes.flatMap fun n => n.engine.broadcast n.neighbors) := by
    rw [exchange, List.mergeSort_of_pairwise (by decide +kernel)]
  have hdone : (row.exchange.afterAll (inOrder 10)).flight = [] := by
    rw [hexchange]
    decide +kernel
  exact ⟨hlinked, by decide, hseeded, hdone,
    exchange_converges hlinked (by decide) hseeded hdone⟩

end Network

namespace Sample

/-- The row after its peers have told their tables to each other. -/
def told : Network :=
  (row.send (row.nodes.flatMap fun n => n.engine.broadcast n.neighbors)).afterAll (inOrder 10)

theorem afterAll_exchange_row : row.exchange.afterAll (inOrder 10) = told := by
  -- the peers stand in order, so nothing is left to sort
  rw [told, Network.exchange, List.mergeSort_of_pairwise (by decide +kernel)]

theorem linked_row : row.Linked :=
  ⟨by decide +kernel, by decide +kernel, by decide +kernel, by decide +kernel⟩

theorem injOn_nameKey_row : Set.InjOn Gossip.nameKey row.names := by
  have hkeys : ∀ name ∈ row.names, ∀ name' ∈ row.names,
      Gossip.nameKey name = Gossip.nameKey name' → name = name' := by decide +kernel
  exact fun name hname name' hname' => hkeys name hname name' hname'

theorem engines_row : ∀ n ∈ row.nodes, ∃ metrics settings coins,
    n.engine = (Engine.new n.engine.identity metrics settings coins).seed := by
  intro n hn
  simp only [row, List.mem_cons, List.not_mem_nil, or_false] at hn
  rcases hn with rfl | rfl | rfl <;> exact ⟨_, _, _, rfl⟩

end Sample

end OverlayCensus
