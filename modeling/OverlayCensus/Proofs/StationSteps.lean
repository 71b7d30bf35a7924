/-
  OverlayCensus — what a peer does with its links.

  A peer becomes a neighbour of those that it is told to dial and of those that introduce
  themselves, and of nobody else (`gained`).  It keeps lasting connections to neighbours, and to
  the registry for its answers; other messages that it sends are queries and gossip.

  * `Engine.carried_of_handle`, `Engine.carried_of_broadcast`: what an engine sends, and how;
  * `Peer.acts_receive`, `Peer.acts_gossip`: what a peer does with a message, and in a round of
    gossip;
  * `Station.acts_receive`, `Station.acts_gossip`: the same with its connections.
-/
import Mathlib
import OverlayCensus.Proofs.ConnectionLines
import OverlayCensus.Proofs.Delivery
import OverlayCensus.Proofs.FloodSending
import OverlayCensus.Proofs.GossipFacts

namespace OverlayCensus

/-! ## What an engine sends -/

/-- The kinds of messages that travel between engines. -/
def MessageTag.carried : List MessageTag :=
  [.flood, .randomWalk, .gossipData, .gossipEntries, .gossipQuery]

/-- A parcel with a query or gossip, which leaves the neighbours only if it is to a peer by
    name. -/
structure Parcel.Carried (p : Parcel) (neighbors : List PeerAddress) : Prop where
  tag : p.message.tag ∈ MessageTag.carried
  receiver : p.route = .direct ∨ p.receiver ∈ neighbors

namespace Engine

variable {e : Engine} {neighbors : List PeerAddress} {pick : ℕ} {m : Message} {q : Query}
  {r : Engine × List Parcel} {p : Parcel}

theorem tag_query_mem (kind : QueryKind) (q : Query) :
    (Message.query kind q).tag ∈ MessageTag.carried := by
  cases kind <;> simp [Message.tag, QueryKind.tag, MessageTag.carried]

theorem carried_of_toAll {exclude : List PeerAddress} (hm : m.tag ∈ MessageTag.carried)
    (hp : p ∈ toAll neighbors exclude m) : p.Carried neighbors := by
  obtain ⟨r, hr, -, rfl⟩ := mem_toAll.1 hp
  exact ⟨hm, Or.inr hr⟩

theorem carried_of_broadcast (hp : p ∈ e.broadcast neighbors) : p.Carried neighbors := by
  rcases List.mem_append.1 hp with hp | hp
  · exact carried_of_toAll (by simp [distancesMessage, Message.tag, MessageTag.carried]) hp
  · exact carried_of_toAll (by simp [locationsMessage, Message.tag, MessageTag.carried]) hp

theorem receiver_of_onFlood (hp : p ∈ (e.onFlood neighbors pick q).2) :
    p.route = .direct ∨ p.receiver ∈ neighbors := by
  rcases onFlood_cases e neighbors pick q with hone | ⟨carrier, -, hc, hall⟩
  · rw [hone, List.mem_singleton] at hp
    exact Or.inl (hp ▸ rfl)
  · rw [hall] at hp
    rcases List.mem_cons.1 hp with rfl | hp
    · exact Or.inr (mem_candidates.1 (mem_of_choose hc)).1
    · obtain ⟨r, hr, -, rfl⟩ := mem_toAll.1 hp
      exact Or.inr hr

theorem receiver_of_onRandomWalk (hp : p ∈ (e.onRandomWalk neighbors pick q).2) :
    p.route = .direct ∨ p.receiver ∈ neighbors := by
  simp only [onRandomWalk] at hp
  split at hp
  · exact Or.inl (List.mem_singleton.1 hp ▸ rfl)
  · split at hp
    · next peer hchoose =>
      rw [List.mem_singleton.1 hp]
      exact Or.inr (mem_candidates.1 (mem_of_choose hchoose)).1
    · split at hp <;> exact Or.inl (List.mem_singleton.1 hp ▸ rfl)

theorem route_of_onGossipQuery {kind : QueryKind} (hp : p ∈ (e.onGossipQuery kind q).2) :
    p.route = .direct := by
  simp only [onGossipQuery] at hp
  split at hp
  · exact List.mem_singleton.1 hp ▸ rfl
  · split at hp
    · exact List.mem_singleton.1 hp ▸ rfl
    · split at hp
      · exact List.mem_singleton.1 hp ▸ rfl
      · rcases List.mem_cons.1 hp with rfl | hp
        · rfl
        · obtain ⟨r, -, rfl⟩ := List.mem_map.1 hp
          rfl

/-- **An engine sends queries and gossip only**, and to others than its neighbours only by
    name. -/
theorem carried_of_handle (h : e.handle neighbors pick m = some r) (hp : p ∈ r.2) :
    p.Carried neighbors := by
  cases m with
  | query kind q =>
    rw [handle_query, Option.some.injEq] at h
    subst h
    refine ⟨?_, ?_⟩
    · rcases (e.handled_onQuery neighbors pick kind q).mem hp with hm | hm <;> rw [hm] <;>
        exact tag_query_mem _ _
    · cases kind with
      | flood => exact receiver_of_onFlood hp
      | randomWalk => exact receiver_of_onRandomWalk hp
      | gossipDistance | gossipLocation => exact Or.inl (route_of_onGossipQuery hp)
  | distances sender entries =>
    simp only [handle, onDistances, Option.some.injEq] at h
    subst h
    split at hp
    · exact carried_of_toAll (by simp [distancesMessage, Message.tag, MessageTag.carried]) hp
    · cases hp
  | locations sender entries =>
    simp only [handle, onLocations, Option.some.injEq] at h
    subst h
    split at hp
    · exact carried_of_toAll (by simp [locationsMessage, Message.tag, MessageTag.carried]) hp
    · cases hp
  | _ => cases h

end Engine

/-! ## What a peer does -/

theorem Links.transmit_spec (l : Links) {sent : List Parcel}
    (h : ∀ p ∈ sent, p.Carried l.neighbors.toList) :
    (∀ q ∈ (l.transmit sent).filterMap Outgoing.line?, q ∈ l.neighbors.toList) ∧
      ∀ m ∈ (l.transmit sent).filterMap Outgoing.envelope?, m.message.tag ∈ MessageTag.carried := by
  have hmem : ∀ o ∈ l.transmit sent, ∃ p ∈ sent, o = l.outgoing p := by
    intro o ho
    rw [transmit, unlessClosed] at ho
    split at ho
    · cases ho
    · obtain ⟨p, hp, rfl⟩ := List.mem_map.1 ho
      exact ⟨p, hp, rfl⟩
  refine ⟨fun q hq => ?_, fun m hm => ?_⟩
  · obtain ⟨o, ho, hline⟩ := List.mem_filterMap.1 hq
    obtain ⟨p, hp, rfl⟩ := hmem o ho
    rw [outgoing] at hline
    split at hline
    · cases hline
    · next hroute =>
      obtain rfl : p.receiver = q := Option.some.inj hline
      rcases (h p hp).receiver with hdirect | hneighbor
      · exact PeerSet.mem_toList.2 (by simpa [hdirect, isLinked] using hroute)
      · exact hneighbor
  · obtain ⟨o, ho, henvelope⟩ := List.mem_filterMap.1 hm
    obtain ⟨p, hp, rfl⟩ := hmem o ho
    rw [outgoing] at henvelope
    split at henvelope <;> obtain rfl := Option.some.inj henvelope <;> exact (h p hp).tag

namespace Peer

variable {p : Peer} {pick : ℕ} {m : Message} {q : PeerAddress}

/-- The neighbours that a peer gains by a message, or by none. -/
def gained (p : Peer) : Option Message → List PeerAddress
  | some (.introduction q) => if q = p.registry ∨ q = p.identity then [] else [q]
  | some (.initiateConnections assigned _) => assigned
  | _ => []

/-- The report for which a message asks. -/
def report (p : Peer) : Option Message → List Envelope
  | some .listPeersRequest => [⟨p.registry, .listPeersResponse p.identity p.neighbors⟩]
  | _ => []

theorem mem_report {m : Option Message} {e : Envelope} : e ∈ p.report m ↔
    m = some .listPeersRequest ∧ e.receiver = p.registry ∧
      e.message = .listPeersResponse p.identity p.neighbors := by
  obtain ⟨receiver, message⟩ := e
  cases m with
  | none => simp [report]
  | some m => cases m <;> simp [report]

/-- What a peer does that has not stopped, with a message or without one. -/
structure Acts (p : Peer) (m : Option Message) (r : Peer × List Outgoing) : Prop where
  identity : r.1.identity = p.identity
  registry : r.1.registry = p.registry
  running : r.1.isStopped = false
  neighbors : ∀ q, q ∈ r.1.neighbors ↔ q ∈ p.neighbors ∨ q ∈ p.gained m
  lines : ∀ q ∈ r.2.filterMap Outgoing.line?,
    q ∈ r.1.neighbors ∨ q = p.registry ∧ m = some .listPeersRequest
  dials : ∀ q ∈ p.gained m, m = some (.introduction q) ∨ q ∈ r.2.filterMap Outgoing.line?
  sent : ∃ carried, r.2.filterMap Outgoing.envelope? = p.report m ++ carried ∧
    ∀ e ∈ carried, e.message.tag ∈ MessageTag.carried

theorem mem_neighbors_link (p : Peer) (a : PeerAddress) :
    q ∈ (p.link a).neighbors ↔ q = a ∨ q ∈ p.neighbors :=
  PeerSet.mem_insert

/-- Links to several peers change the neighbours and nothing else. -/
theorem foldl_link (p : Peer) (as : List PeerAddress) :
    (as.foldl link p).engine = p.engine ∧ (as.foldl link p).registry = p.registry ∧
      (as.foldl link p).isStopped = p.isStopped ∧
      ∀ q, q ∈ (as.foldl link p).neighbors ↔ q ∈ p.neighbors ∨ q ∈ as := by
  induction as generalizing p with
  | nil => simp
  | cons a as ih =>
    obtain ⟨hengine, hregistry, hstopped, hneighbors⟩ := ih (p.link a)
    refine ⟨hengine, hregistry, hstopped, fun q => ?_⟩
    rw [List.foldl_cons, hneighbors, mem_neighbors_link, List.mem_cons, or_comm (a := q = a),
      or_assoc]

theorem gossip_spec (p : Peer) :
    (∀ q ∈ p.gossip.filterMap Outgoing.line?, q ∈ p.neighbors) ∧
      ∀ m ∈ p.gossip.filterMap Outgoing.envelope?, m.message.tag ∈ MessageTag.carried :=
  p.links.transmit_spec fun _ hm => Engine.carried_of_broadcast hm

/-- A peer that keeps its name and its registry, adopts neighbours and gossips. -/
theorem acts_of_gossip (p' : Peer) {m : Option Message} (dials : List PeerAddress)
    (hidentity : p'.identity = p.identity) (hregistry : p'.registry = p.registry)
    (hrunning : p'.isStopped = false)
    (hneighbors : ∀ q, q ∈ p'.neighbors ↔ q ∈ p.neighbors ∨ q ∈ p.gained m)
    (hdials : ∀ q ∈ dials, q ∈ p.gained m)
    (hgained : ∀ q ∈ p.gained m, m = some (.introduction q) ∨ q ∈ dials)
    (hreport : p.report m = []) : p.Acts m (p', dials.map .dial ++ p'.gossip) := by
  have hlines : (dials.map Outgoing.dial).filterMap Outgoing.line? = dials := by
    rw [List.filterMap_map]
    exact List.filterMap_some
  have hsilent : (dials.map Outgoing.dial).filterMap Outgoing.envelope? = [] := by
    simp [List.filterMap_map, Function.comp_def, Outgoing.envelope?]
  refine ⟨hidentity, hregistry, hrunning, hneighbors, fun q hq => ?_, fun q hq => ?_, ?_⟩
  · rw [List.filterMap_append, hlines] at hq
    refine Or.inl ((List.mem_append.1 hq).elim (fun hq => ?_) (p'.gossip_spec.1 q))
    exact (hneighbors q).2 (Or.inr (hdials q hq))
  · rw [List.filterMap_append, hlines]
    exact (hgained q hq).imp_right (List.mem_append_left _)
  · exact ⟨p'.gossip.filterMap Outgoing.envelope?, by rw [List.filterMap_append, hsilent, hreport],
      p'.gossip_spec.2⟩

/-- **A round of gossip.** -/
theorem acts_gossip (hrunning : p.isStopped = false) : p.Acts none (p, p.gossip) :=
  acts_of_gossip p [] rfl rfl hrunning (by simp [gained]) (by simp) (by simp [gained]) rfl

/-- A peer that keeps its neighbours. -/
theorem acts_of_handle {m : Option Message} (engine : Engine) (sent : List Parcel)
    (hidentity : engine.identity = p.identity) (hrunning : p.isStopped = false)
    (hgained : p.gained m = []) (hreport : p.report m = [])
    (hsent : ∀ e ∈ sent, e.Carried p.neighbors) :
    p.Acts m ({ p with engine := engine }, p.links.transmit sent) := by
  obtain ⟨hlines, htags⟩ := p.links.transmit_spec hsent
  refine ⟨hidentity, rfl, hrunning, fun q => ?_, fun q hq => Or.inl (hlines q hq), ?_, ?_⟩
  · rw [hgained]
    simp [neighbors]
  · rw [hgained]
    simp
  · exact ⟨_, by rw [hreport, List.nil_append], htags⟩

/-- A peer that does nothing. -/
theorem acts_nothing {m : Option Message} (hrunning : p.isStopped = false)
    (hgained : p.gained m = []) (hreport : p.report m = []) : p.Acts m (p, []) := by
  have hacts := acts_of_handle p.engine [] rfl hrunning hgained hreport (by simp)
  have hopen : p.links.closed = false := hrunning
  rwa [Links.transmit, List.map_nil, Links.unlessClosed, if_neg (by simp [hopen])] at hacts

/-- Queries and gossip are for the engine. -/
theorem receive_of_carried (p : Peer) (pick : ℕ) (hm : m.tag ∈ MessageTag.carried) :
    p.receive pick m = ((p.engine.handle p.neighbors pick m).elim (p, []) fun r =>
      ({ p with engine := r.1 }, p.links.transmit r.2)) := by
  cases m with
  | query kind q =>
    cases hr : p.engine.handle p.neighbors pick (.query kind q) <;> simp [receive, hr]
  | distances sender entries =>
    cases hr : p.engine.handle p.neighbors pick (.distances sender entries) <;> simp [receive, hr]
  | locations sender entries =>
    cases hr : p.engine.handle p.neighbors pick (.locations sender entries) <;> simp [receive, hr]
  | _ => simp [Message.tag, MessageTag.carried] at hm

theorem acts_carried (hrunning : p.isStopped = false) (pick : ℕ)
    (hm : m.tag ∈ MessageTag.carried) : p.Acts (some m) (p.receive pick m) := by
  have hnothing : p.gained (some m) = [] ∧ p.report (some m) = [] := by
    cases m <;> simp [Message.tag, MessageTag.carried] at hm <;> exact ⟨rfl, rfl⟩
  rw [p.receive_of_carried pick hm]
  cases hr : p.engine.handle p.neighbors pick m with
  | none => exact acts_nothing hrunning hnothing.1 hnothing.2
  | some r =>
    exact acts_of_handle r.1 r.2 (Engine.identity_of_handle hr) hrunning hnothing.1 hnothing.2
      fun e he => Engine.carried_of_handle hr he

/-- A peer that is told whom to dial. -/
theorem acts_initiateConnections (hrunning : p.isStopped = false) (assigned : List PeerAddress)
    (devices : String) : p.Acts (some (.initiateConnections assigned devices))
      (p.initiateConnections assigned devices) := by
  obtain ⟨p', hp', hidentity, hregistry, hrunning', hneighbors⟩ : ∃ p' : Peer,
      p.initiateConnections assigned devices =
        (assigned.foldl link p', (assigned.foldl link p').links.unlessClosed
          (assigned.map .dial) ++ (assigned.foldl link p').gossip) ∧
      p'.identity = p.identity ∧ p'.registry = p.registry ∧ p'.isStopped = false ∧
      p'.neighbors = p.neighbors := by
    cases hdevices : Inventory.ofText? devices with
    | none => exact ⟨p, by simp only [initiateConnections, hdevices], rfl, rfl, hrunning, rfl⟩
    | some i =>
      exact ⟨p.adopt i, by simp only [initiateConnections, hdevices], Engine.identity_seed _, rfl,
        hrunning, rfl⟩
  obtain ⟨hengine, hregistry', hstopped, hlinked⟩ := p'.foldl_link assigned
  have hopen : (assigned.foldl link p').links.closed = false := hstopped.trans hrunning'
  rw [hp', Links.unlessClosed, if_neg (by simp [hopen])]
  refine acts_of_gossip _ assigned ?_ (hregistry'.trans hregistry) hopen (fun q => ?_)
    (fun _ hq => hq) (fun _ hq => Or.inr hq) rfl
  · rw [identity, hengine]
    exact hidentity
  · rw [hlinked, hneighbors]
    rfl

/-- A peer that hears of another one. -/
theorem acts_introduction (hrunning : p.isStopped = false) (pick : ℕ) (q : PeerAddress) :
    p.Acts (some (.introduction q)) (p.receive pick (.introduction q)) := by
  by_cases hq : q = p.registry ∨ q = p.identity
  · rw [receive, if_pos hq]
    exact acts_nothing hrunning (if_pos hq) rfl
  · have hgained : p.gained (some (.introduction q)) = [q] := if_neg hq
    rw [receive, if_neg hq]
    refine acts_of_gossip (p.link q) [] rfl rfl hrunning (fun a => ?_) (by simp)
      (fun a ha => ?_) rfl
    · rw [mem_neighbors_link, hgained, List.mem_singleton, or_comm]
    · rw [hgained, List.mem_singleton] at ha
      exact Or.inl (ha ▸ rfl)

/-- A peer that is asked for its neighbours. -/
theorem acts_listPeersRequest (hrunning : p.isStopped = false) (pick : ℕ) :
    p.Acts (some .listPeersRequest) (p.receive pick .listPeersRequest) := by
  have hopen : p.links.closed = false := hrunning
  rw [receive, Links.unlessClosed, if_neg (by simp [hopen])]
  refine ⟨rfl, rfl, hrunning, by simp [gained], fun q hq => ?_, by simp [gained], [], rfl, by simp⟩
  exact Or.inr ⟨by simpa [Outgoing.line?, eq_comm] using hq, rfl⟩

/-- **What a peer does with a message** that does not stop it. -/
theorem acts_receive (hrunning : p.isStopped = false) (pick : ℕ) (hm : m ≠ .shutdown) :
    p.Acts (some m) (p.receive pick m) := by
  cases m with
  | initiateConnections assigned devices => exact acts_initiateConnections hrunning assigned devices
  | introduction q => exact acts_introduction hrunning pick q
  | listPeersRequest => exact acts_listPeersRequest hrunning pick
  | shutdown => exact absurd rfl hm
  | query kind q => exact acts_carried hrunning pick (Engine.tag_query_mem kind q)
  | distances | locations =>
    exact acts_carried hrunning pick (by simp [Message.tag, MessageTag.carried])
  | register | listPeersResponse => exact acts_nothing hrunning rfl rfl

end Peer

/-! ## What a peer does with its connections -/

namespace Station

open Connections (introductionTo)

variable {s : Station}

/-- What a station does whose peer has not stopped, with a message or without one. -/
structure Acts (s : Station) (m : Option Message) (r : Station × List Envelope) : Prop where
  identity : r.1.peer.identity = s.peer.identity
  registry : r.1.peer.registry = s.peer.registry
  running : r.1.peer.isStopped = false
  neighbors : ∀ q, q ∈ r.1.peer.neighbors ↔ q ∈ s.peer.neighbors ∨ q ∈ s.peer.gained m
  ready : r.1.connections.Ready s.peer.identity
  kept : ∀ q, s.connections.isConnected q = true → r.1.connections.isConnected q = true
  reached : ∀ q ∈ s.peer.gained m, r.1.connections.isConnected q = true
  connected : ∀ q, r.1.connections.isConnected q = true → s.connections.isConnected q = true ∨
    m = some (.introduction q) ∨ introductionTo s.peer.identity q ∈ r.2
  sent : ∃ (fresh : List PeerAddress) (carried : List Envelope),
    r.2.Perm (fresh.map (introductionTo s.peer.identity) ++ (s.peer.report m ++ carried)) ∧
      (∀ q ∈ fresh, r.1.connections.isConnected q = true ∧ ¬ s.connections.isConnected q = true ∧
        m ≠ some (.introduction q) ∧
          (q ∈ r.1.peer.neighbors ∨ q = s.peer.registry ∧ m = some .listPeersRequest)) ∧
      ∀ e ∈ carried, e.message.tag ∈ MessageTag.carried

/-- **What a station sends**: introductions on new connections, a report if it was asked for one,
    and queries and gossip. -/
theorem Acts.sent_cases {m : Option Message} {r : Station × List Envelope} (h : s.Acts m r)
    {e : Envelope} (he : e ∈ r.2) :
    (e.message = .introduction s.peer.identity ∧
        r.1.connections.isConnected e.receiver = true ∧
        ¬ s.connections.isConnected e.receiver = true ∧ m ≠ some (.introduction e.receiver) ∧
        (e.receiver ∈ r.1.peer.neighbors ∨
          e.receiver = s.peer.registry ∧ m = some .listPeersRequest)) ∨
      (m = some .listPeersRequest ∧ e.receiver = s.peer.registry ∧
        e.message = .listPeersResponse s.peer.identity s.peer.neighbors) ∨
      e.message.tag ∈ MessageTag.carried := by
  obtain ⟨fresh, carried, hperm, hfresh, htags⟩ := h.sent
  rcases List.mem_append.1 (hperm.mem_iff.1 he) with he | he
  · obtain ⟨q, hq, rfl⟩ := List.mem_map.1 he
    exact Or.inl ⟨rfl, hfresh q hq⟩
  · rcases List.mem_append.1 he with he | he
    · exact Or.inr (Or.inl (Peer.mem_report.1 he))
    · exact Or.inr (Or.inr (htags e he))

/-- What a peer does goes out over its connections. -/
theorem acts_of_post {m : Option Message} {r : Peer × List Outgoing} {c : Connections}
    (hacts : s.peer.Acts m r) (hready : c.Ready s.peer.identity)
    (hc : ∀ q, c.isConnected q = true ↔
      s.connections.isConnected q = true ∨ m = some (.introduction q)) :
    s.Acts m (⟨r.1, (c.post r.2).1⟩, (c.post r.2).2) := by
  obtain ⟨fresh, hposted⟩ := hready.post r.2
  have hnew : ∀ q, q ∈ fresh ↔ q ∈ r.2.filterMap Outgoing.line? ∧
      ¬ s.connections.isConnected q = true ∧ m ≠ some (.introduction q) := fun q => by
    rw [hposted.new, hc, not_or]
  refine ⟨hacts.identity, hacts.registry, hacts.running, hacts.neighbors, hposted.ready,
    fun q hq => ?_, fun q hq => ?_, fun q hq => ?_, ?_⟩
  · exact (hposted.connected q).2 (Or.inl ((hc q).2 (Or.inl hq)))
  · rw [hposted.connected, hc]
    exact (hacts.dials q hq).imp_left Or.inr
  · rcases (hposted.connected q).1 hq with hq | hq
    · exact ((hc q).1 hq).imp_right Or.inl
    · by_cases hold : s.connections.isConnected q = true
      · exact Or.inl hold
      · by_cases hm : m = some (.introduction q)
        · exact Or.inr (Or.inl hm)
        · refine Or.inr (Or.inr (hposted.sent.mem_iff.2 (List.mem_append_left _ ?_)))
          exact List.mem_map_of_mem ((hnew q).2 ⟨hq, hold, hm⟩)
  · obtain ⟨carried, hcarried, htags⟩ := hacts.sent
    refine ⟨fresh, carried, hcarried ▸ hposted.sent, fun q hq => ?_, htags⟩
    obtain ⟨hline, hold, hm⟩ := (hnew q).1 hq
    exact ⟨(hposted.connected q).2 (Or.inr hline), hold, hm, hacts.lines q hline⟩

/-- **What a station does with a message** that does not stop its peer. -/
theorem acts_receive (hready : s.connections.Ready s.peer.identity)
    (hrunning : s.peer.isStopped = false) (pick : ℕ) {m : Message} (hm : m ≠ .shutdown) :
    s.Acts (some m) (s.receive pick m) := by
  have hacts := Peer.acts_receive hrunning pick hm
  have hreceive : s.receive pick m =
      (⟨(s.peer.receive pick m).1,
          ((s.connections.greet m).post (s.peer.receive pick m).2).1⟩,
        ((s.connections.greet m).post (s.peer.receive pick m).2).2) := by
    simp [receive, hrunning, hacts.running]
  rw [hreceive]
  exact acts_of_post hacts (hready.greet m) fun q => by
    rw [hready.isConnected_greet, Option.some.injEq]

/-- **What a station does in a round of gossip.** -/
theorem acts_gossip (hready : s.connections.Ready s.peer.identity)
    (hrunning : s.peer.isStopped = false) : s.Acts none s.gossip :=
  acts_of_post (Peer.acts_gossip hrunning) hready fun q => by simp

end Station

end OverlayCensus
