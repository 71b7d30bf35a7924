/-
  OverlayCensus — how the peers of an overlay are linked.

  The registry tells each peer whom to dial, and whoever is dialed hears of it by an
  introduction.  In whatever order these messages arrive, a peer that has a connection to another
  is its neighbour, or its introduction to it is under way (`Linking.known`).  As each link is
  dialed from one of its ends, both know of it once nothing is under way any more.

  * `after`, `afterAll`: a cluster after a message has arrived anywhere, or a peer has gossiped;
    `Step` lists what this can do, and `step_after` proves that this is all;
  * `Linking`: what holds while peers are linked, `Linking.after`: whatever happens;
  * `Assigned`: whoever does not know yet whom to dial will be told;
  * `neighbors_of_idle`: in the end the neighbours of a peer are those of the overlay.
-/
import Mathlib
import OverlayCensus.Proofs.OverlayDialing
import OverlayCensus.Proofs.StationSteps

namespace OverlayCensus

/-- A message leaves the registry its name and its overlay, and does not stop it. -/
theorem Registry.receive_keeps (r : Registry) (m : Message) (now : ℕ) :
    (r.receive m now).identity = r.identity ∧ (r.receive m now).overlay = r.overlay ∧
      (r.receive m now).stopped = r.stopped := by
  cases m with
  | register identity devices =>
    simp only [receive, register]
    cases Inventory.ofText? devices with
    | none => split_ifs <;> exact ⟨rfl, rfl, rfl⟩
    | some inventory => split_ifs <;> exact ⟨rfl, rfl, rfl⟩
  | listPeersResponse peer neighbors =>
    simp only [receive, recordCheck]
    split
    · exact ⟨rfl, rfl, rfl⟩
    · split <;> exact ⟨rfl, rfl, rfl⟩
  | _ => exact ⟨rfl, rfl, rfl⟩

namespace Cluster

open Connections (introductionTo)

variable {net net' : Cluster} {o : Overlay} {p q : PeerAddress} {s : Station}

/-! ## Runs -/

/-- What happens at one time: a message arrives, or a peer gossips. -/
inductive Event where
  | deliver (d : Delivery)
  | gossip (p : PeerAddress)
deriving DecidableEq, Repr

/-- The cluster after an event. -/
def after (net : Cluster) : Event → Cluster
  | .deliver d => net.deliver d.index d.pick d.now
  | .gossip p => net.gossip p

/-- The cluster after events in order. -/
def afterAll (net : Cluster) (es : List Event) : Cluster :=
  es.foldl after net

/-- A cluster without a message that its addressee has received. -/
def without (net : Cluster) (i : ℕ) : Cluster :=
  { net with flight := net.flight.eraseIdx i }

/-- What an event can do to a cluster: a message is lost, comes to the registry or comes to a
    peer, or a peer gossips; or there is no such message or peer. -/
inductive Step (net : Cluster) : Event → Cluster → Prop
  | idle {d : Delivery} : net.flight[d.index]? = none → Step net (.deliver d) net
  | silent {p : PeerAddress} : net.station? p = none → Step net (.gossip p) net
  | lost {d : Delivery} {m : Envelope} : net.flight[d.index]? = some m →
      m.receiver ≠ net.registry.identity ∧ net.station? m.receiver = none ∨
        net.registry.stopped = true → Step net (.deliver d) (net.without d.index)
  | noted {d : Delivery} {m : Envelope} : net.flight[d.index]? = some m →
      m.receiver = net.registry.identity →
      Step net (.deliver d)
        { net.without d.index with
          registry := net.registry.receive m.message d.now
          connections := net.connections.greet m.message }
  | handled {d : Delivery} {m : Envelope} {s : Station} : net.flight[d.index]? = some m →
      net.station? m.receiver = some s →
      Step net (.deliver d)
        ((net.without d.index).update m.receiver (s.receive d.pick m.message))
  | gossiped {p : PeerAddress} {s : Station} : net.station? p = some s →
      Step net (.gossip p) (net.update p s.gossip)

/-- **An event is one of these steps.** -/
theorem step_after (net : Cluster) (e : Event) : net.Step e (net.after e) := by
  cases e with
  | gossip p =>
    rw [after, gossip]
    cases hs : net.station? p with
    | none => exact .silent hs
    | some s => exact .gossiped hs
  | deliver d =>
    rw [after, deliver]
    cases hm : net.flight[d.index]? with
    | none => exact .idle hm
    | some m =>
      simp only [receive]
      have hstation : ({ net with flight := net.flight.eraseIdx d.index } : Cluster).station?
          m.receiver = net.station? m.receiver := rfl
      split_ifs with hreg hstopped
      · exact .lost hm (Or.inr hstopped)
      · exact .noted hm hreg
      · rw [hstation]
        cases hs : net.station? m.receiver with
        | none => exact .lost hm (Or.inl ⟨hreg, hs⟩)
        | some s => exact .handled hm hs

/-- What every event keeps, every run keeps. -/
theorem afterAll_induction {P : Cluster → Prop} (hstep : ∀ net e, P net → P (net.after e))
    (h : P net) (es : List Event) : P (net.afterAll es) := by
  induction es generalizing net with
  | nil => exact h
  | cons e es ih => exact ih (hstep net e h)

theorem perm_flight {i : ℕ} {m : Envelope} (h : net.flight[i]? = some m) :
    net.flight.Perm (m :: (net.without i).flight) := by
  obtain ⟨hi, rfl⟩ := List.getElem?_eq_some_iff.1 h
  exact (List.getElem_cons_eraseIdx_perm hi).symm

/-! ## Stations -/

theorem identity_of_station? (h : net.station? p = some s) : s.peer.identity = p := by
  simpa using List.find?_some h

theorem find?_replaced {t : Station} (ht : t.peer.identity = p) (stations : List Station)
    (q : PeerAddress) :
    (stations.map fun s => if s.peer.identity = p then t else s).find?
        (fun s => s.peer.identity = q) =
      if q = p then (stations.find? fun s => s.peer.identity = p).map fun _ => t
      else stations.find? fun s => s.peer.identity = q := by
  induction stations with
  | nil => simp
  | cons s stations ih =>
    rw [List.map_cons, List.find?_cons, List.find?_cons, List.find?_cons, ih]
    by_cases hs : s.peer.identity = p
    · by_cases hq : q = p
      · simp [hs, hq, ht]
      · simp [hs, hq, ht, Ne.symm hq]
    · by_cases hq : q = p
      · simp [hs, hq]
      · simp [hs, hq]

theorem station?_update {r : Station × List Envelope} (hr : r.1.peer.identity = p)
    (hs : net.station? p = some s) (q : PeerAddress) :
    (net.update p r).station? q = if q = p then some r.1 else net.station? q := by
  rw [station?] at hs
  rw [station?, update, find?_replaced hr, hs, Option.map_some, station?]

/-- The neighbours of a peer; none if it has no station. -/
def neighborsOf (net : Cluster) (p : PeerAddress) : List PeerAddress :=
  ((net.station? p).map fun s => s.peer.neighbors).getD []

theorem neighborsOf_eq (h : net.station? p = some s) : net.neighborsOf p = s.peer.neighbors := by
  rw [neighborsOf, h]
  rfl

/-! ## What holds while peers are linked -/

/-- A message that fits the overlay: only peers and the registry introduce themselves, to peers
    only those who are neighbours, and everyone is told to dial whom it has to. -/
def Fits (net : Cluster) (o : Overlay) (m : Envelope) : Prop :=
  match m.message with
  | .introduction q => (q = net.registry.identity ∨ q ∈ o.peers) ∧
    (m.receiver ∈ o.peers → q = net.registry.identity ∨ m.receiver ∈ net.neighborsOf q)
  | .initiateConnections assigned _ => assigned = o.listOf m.receiver
  | .shutdown => False
  | _ => True

theorem Fits.mono {m : Envelope} (h : net.Fits o m)
    (hidentity : net'.registry.identity = net.registry.identity)
    (hsubset : ∀ q, net.neighborsOf q ⊆ net'.neighborsOf q) : net'.Fits o m := by
  obtain ⟨receiver, message⟩ := m
  cases message with
  | introduction q =>
    refine ⟨hidentity ▸ h.1, fun hpeer => ?_⟩
    rw [hidentity]
    exact (h.2 hpeer).imp_right fun hq => hsubset q hq
  | _ => exact h

/-- Other messages do not bear on links. -/
theorem fits_of_tag {m : Envelope}
    (h : m.message.tag ∉ [MessageTag.introduction, .initiateConnections, .shutdown]) :
    net.Fits o m := by
  obtain ⟨receiver, message⟩ := m
  cases message <;> simp [Message.tag] at h <;> trivial

theorem fits_of_carried {m : Envelope} (h : m.message.tag ∈ MessageTag.carried) : net.Fits o m :=
  have hapart : ∀ tag ∈ MessageTag.carried,
      tag ∉ [MessageTag.introduction, .initiateConnections, .shutdown] := by decide
  fits_of_tag (hapart _ h)

/-- The station of a peer while peers are linked. -/
structure Joining (net : Cluster) (o : Overlay) (p : PeerAddress) (s : Station) : Prop where
  registry : s.peer.registry = net.registry.identity
  running : s.peer.isStopped = false
  ready : s.connections.Ready p
  /-- Neighbours are those of the overlay. -/
  linked : ∀ q ∈ s.peer.neighbors, q ∈ o.neighborsOf p
  /-- There is a connection to every neighbour. -/
  reached : ∀ q ∈ s.peer.neighbors, s.connections.isConnected q = true
  /-- Whoever has a connection to another is its neighbour, or will be. -/
  known : ∀ q, s.connections.isConnected q = true → q = net.registry.identity ∨
    p ∈ net.neighborsOf q ∨ q ∈ o.peers ∧ introductionTo p q ∈ net.flight

/-- A cluster whose registry holds an overlay, while its peers are linked. -/
structure Linking (net : Cluster) (o : Overlay) : Prop where
  distinct : o.Distinct
  overlay : net.registry.overlay = some o
  running : net.registry.stopped = false
  apart : net.registry.identity ∉ o.peers
  ready : net.connections.Ready net.registry.identity
  peers : ∀ p, (net.station? p).isSome = true ↔ p ∈ o.peers
  flight : ∀ m ∈ net.flight, net.Fits o m
  stations : ∀ p s, net.station? p = some s → net.Joining o p s

/-- Whoever does not know yet whom to dial will be told. -/
def Assigned (net : Cluster) (o : Overlay) : Prop :=
  ∀ p ∈ o.peers, (∃ devices, ⟨p, .initiateConnections (o.listOf p) devices⟩ ∈ net.flight) ∨
    ∀ q ∈ o.listOf p, q ∈ net.neighborsOf p

namespace Linking

theorem exists_station (h : net.Linking o) (hp : p ∈ o.peers) : ∃ s, net.station? p = some s :=
  Option.isSome_iff_exists.1 ((h.peers p).2 hp)

theorem mem_peers (h : net.Linking o) (hs : net.station? p = some s) : p ∈ o.peers :=
  (h.peers p).1 (by rw [hs]; rfl)

theorem ne_registry (h : net.Linking o) (hs : net.station? p = some s) :
    p ≠ net.registry.identity :=
  fun hp => h.apart (hp ▸ h.mem_peers hs)

theorem mem_neighborsOf (h : net.Linking o) (hq : q ∈ net.neighborsOf p) : q ∈ o.neighborsOf p := by
  cases hs : net.station? p with
  | none =>
    rw [neighborsOf, hs] at hq
    cases hq
  | some s =>
    rw [neighborsOf_eq hs] at hq
    exact (h.stations p s hs).linked q hq

/-! ### What happens elsewhere -/

/-- What happens at the registry, or to messages to others than peers, changes nothing. -/
theorem congr (h : net.Linking o) (hstations : net'.stations = net.stations)
    (hidentity : net'.registry.identity = net.registry.identity)
    (hoverlay : net'.registry.overlay = some o) (hrunning : net'.registry.stopped = false)
    (hready : net'.connections.Ready net.registry.identity)
    (hkept : ∀ m ∈ net.flight, m.receiver ∈ o.peers → m ∈ net'.flight)
    (hflight : ∀ m ∈ net'.flight, net.Fits o m) : net'.Linking o := by
  have hstation : net'.station? = net.station? := by
    funext p
    rw [station?, station?, hstations]
  have hneighbors : net'.neighborsOf = net.neighborsOf := by
    funext p
    rw [neighborsOf, neighborsOf, hstation]
  refine ⟨h.distinct, hoverlay, hrunning, ?_, ?_, ?_, fun m hm => ?_, fun p s hs => ?_⟩
  · rw [hidentity]
    exact h.apart
  · rw [hidentity]
    exact hready
  · rw [hstation]
    exact h.peers
  · exact (hflight m hm).mono hidentity fun q => by rw [hneighbors]; exact List.Subset.refl _
  · rw [hstation] at hs
    have hjoining := h.stations p s hs
    refine ⟨hjoining.registry.trans hidentity.symm, hjoining.running, hjoining.ready,
      hjoining.linked, hjoining.reached, fun q hq => ?_⟩
    rw [hidentity, hneighbors]
    exact (hjoining.known q hq).imp_right fun hq => hq.imp_right fun ⟨hpeer, hm⟩ =>
      ⟨hpeer, hkept _ hm hpeer⟩

end Linking

theorem Assigned.congr (h : net.Assigned o) (hstations : net'.stations = net.stations)
    (hkept : ∀ m ∈ net.flight, m.receiver ∈ o.peers → m ∈ net'.flight) : net'.Assigned o := by
  intro p hp
  rw [neighborsOf, station?, hstations]
  exact (h p hp).imp_left fun ⟨devices, hin⟩ => ⟨devices, hkept _ hin hp⟩

/-! ### What a peer does -/

/-- A peer does something, with a message that was in flight to it or without one. -/
structure Acting (net : Cluster) (o : Overlay) (p : PeerAddress) (s : Station)
    (m : Option Message) (rest : List Envelope) (r : Station × List Envelope) : Prop where
  linking : net.Linking o
  station : net.station? p = some s
  acts : s.Acts m r
  flight : net.flight.Perm (m.toList.map (Envelope.mk p) ++ rest)

/-- The cluster after it. -/
def acted (net : Cluster) (p : PeerAddress) (rest : List Envelope) (r : Station × List Envelope) :
    Cluster :=
  ({ net with flight := rest } : Cluster).update p r

namespace Acting

variable {m : Option Message} {rest : List Envelope} {r : Station × List Envelope}
  (h : net.Acting o p s m rest r)
include h

theorem station?_acted (q : PeerAddress) :
    (net.acted p rest r).station? q = if q = p then some r.1 else net.station? q := by
  have hstation : ({ net with flight := rest } : Cluster).station? p = some s := h.station
  exact station?_update (h.acts.identity.trans (identity_of_station? h.station)) hstation q

theorem neighborsOf_acted (q : PeerAddress) :
    (net.acted p rest r).neighborsOf q =
      if q = p then r.1.peer.neighbors else net.neighborsOf q := by
  rw [neighborsOf, h.station?_acted]
  split_ifs <;> rfl

/-- Nobody loses a neighbour. -/
theorem neighborsOf_subset (q : PeerAddress) :
    net.neighborsOf q ⊆ (net.acted p rest r).neighborsOf q := by
  intro a ha
  rw [h.neighborsOf_acted]
  split_ifs with hq
  · subst hq
    rw [neighborsOf_eq h.station] at ha
    exact (h.acts.neighbors a).2 (Or.inl ha)
  · exact ha

theorem mem_peers : p ∈ o.peers :=
  h.linking.mem_peers h.station

theorem identity : s.peer.identity = p :=
  identity_of_station? h.station

theorem registry : s.peer.registry = net.registry.identity :=
  (h.linking.stations p s h.station).registry

theorem fits {message : Message} (hm : m = some message) : net.Fits o ⟨p, message⟩ :=
  h.linking.flight _ (h.flight.mem_iff.2 (by simp [hm]))

/-- Only the registry and neighbours introduce themselves. -/
theorem introduced (hm : m = some (.introduction q)) :
    q = net.registry.identity ∨ p ∈ net.neighborsOf q :=
  (h.fits hm).2 h.mem_peers

/-- A peer gains neighbours of the overlay. -/
theorem linked (hq : q ∈ r.1.peer.neighbors) : q ∈ o.neighborsOf p := by
  rcases (h.acts.neighbors q).1 hq with hold | hnew
  · exact (h.linking.stations p s h.station).linked q hold
  · have hdistinct := h.linking.distinct
    cases hm : m with
    | none => simp [hm, Peer.gained] at hnew
    | some message =>
      cases message with
      | introduction a =>
        simp only [hm, Peer.gained, h.registry] at hnew
        split_ifs at hnew with ha
        · cases hnew
        · obtain rfl := List.mem_singleton.1 hnew
          have hback := (h.introduced hm).resolve_left fun hreg => ha (Or.inl hreg)
          exact hdistinct.neighborsOf_symm (h.linking.mem_neighborsOf hback)
      | initiateConnections assigned devices =>
        have hassigned : assigned = o.listOf p := h.fits hm
        rw [hm, Peer.gained, hassigned] at hnew
        exact hdistinct.mem_neighborsOf_iff.2 (Or.inl hnew)
      | _ => simp [hm, Peer.gained] at hnew

theorem mem_peers_of_linked (hq : q ∈ r.1.peer.neighbors) : q ∈ o.peers :=
  have hdistinct := h.linking.distinct
  hdistinct.mem_peers_of_neighborsOf (hdistinct.neighborsOf_symm (h.linked hq))

/-- What was in flight fits the overlay, and so does what is sent. -/
theorem fits_acted {e : Envelope} (he : e ∈ (net.acted p rest r).flight) :
    (net.acted p rest r).Fits o e := by
  rcases List.mem_append.1 he with he | he
  · have hold := h.linking.flight e (h.flight.mem_iff.2 (List.mem_append_right _ he))
    exact hold.mono rfl h.neighborsOf_subset
  · obtain ⟨receiver, message⟩ := e
    rcases h.acts.sent_cases he with ⟨hmessage, -, -, -, hreceiver⟩ | ⟨-, -, hmessage⟩ | htag
    · obtain rfl : message = .introduction s.peer.identity := hmessage
      refine ⟨Or.inr (h.identity ▸ h.mem_peers), fun hpeer => ?_⟩
      rcases hreceiver with hneighbor | ⟨hreg, -⟩
      · rw [h.identity, h.neighborsOf_acted, if_pos rfl]
        exact Or.inr hneighbor
      · exact absurd (h.registry ▸ hreg ▸ hpeer) h.linking.apart
    · obtain rfl : message = .listPeersResponse s.peer.identity s.peer.neighbors := hmessage
      exact fits_of_tag (by simp [Message.tag])
    · exact fits_of_carried htag

theorem mem_flight {e : Envelope} (he : e ∈ net.flight) :
    e ∈ (net.acted p rest r).flight ∨ e.receiver = p ∧ m = some e.message := by
  rcases List.mem_append.1 (h.flight.mem_iff.1 he) with he | he
  · obtain ⟨message, hm, rfl⟩ := List.mem_map.1 he
    exact Or.inr ⟨rfl, Option.mem_toList.1 hm⟩
  · exact Or.inl (List.mem_append_left _ he)

/-- Whoever has a connection to another is its neighbour, or will be. -/
theorem known_self (hq : r.1.connections.isConnected q = true) :
    q = net.registry.identity ∨ p ∈ (net.acted p rest r).neighborsOf q ∨
      q ∈ o.peers ∧ introductionTo p q ∈ (net.acted p rest r).flight := by
  have hjoining := h.linking.stations p s h.station
  have hintroduced : m = some (.introduction q) →
      q = net.registry.identity ∨ p ∈ (net.acted p rest r).neighborsOf q := fun hm =>
    (h.introduced hm).imp_right fun hmem => h.neighborsOf_subset q hmem
  rcases h.acts.connected q hq with hold | hm | hsent
  · rcases hjoining.known q hold with hreg | hmem | ⟨hpeer, hin⟩
    · exact Or.inl hreg
    · exact Or.inr (Or.inl (h.neighborsOf_subset q hmem))
    · rcases h.mem_flight hin with hin | ⟨hqp, hm⟩
      · exact Or.inr (Or.inr ⟨hpeer, hin⟩)
      · -- a peer that has dialed itself
        obtain rfl : q = p := hqp
        exact (hintroduced hm).imp_right Or.inl
  · exact (hintroduced hm).imp_right Or.inl
  · have hin : introductionTo p q ∈ (net.acted p rest r).flight := by
      rw [h.identity] at hsent
      exact List.mem_append_right _ hsent
    rcases h.acts.sent_cases hsent with
      ⟨-, -, -, -, hneighbor | ⟨hreg, -⟩⟩ | ⟨-, -, hmessage⟩ | htag
    · exact Or.inr (Or.inr ⟨h.mem_peers_of_linked hneighbor, hin⟩)
    · exact Or.inl (hreg.trans h.registry)
    · cases hmessage
    · simp [introductionTo, Message.tag, MessageTag.carried] at htag

theorem known_other {p' : PeerAddress} {s' : Station} (hs' : net.station? p' = some s')
    (hne : p' ≠ p) (hq : s'.connections.isConnected q = true) :
    q = net.registry.identity ∨ p' ∈ (net.acted p rest r).neighborsOf q ∨
      q ∈ o.peers ∧ introductionTo p' q ∈ (net.acted p rest r).flight := by
  rcases (h.linking.stations p' s' hs').known q hq with hreg | hmem | ⟨hpeer, hin⟩
  · exact Or.inl hreg
  · exact Or.inr (Or.inl (h.neighborsOf_subset q hmem))
  · rcases h.mem_flight hin with hin | ⟨hqp, hm⟩
    · exact Or.inr (Or.inr ⟨hpeer, hin⟩)
    · -- the introduction has arrived
      obtain rfl : q = p := hqp
      have hgained : p' ∈ s.peer.gained m := by
        have hreg : p' ≠ s.peer.registry := h.registry ▸ h.linking.ne_registry hs'
        have hself : p' ≠ s.peer.identity := h.identity ▸ hne
        rw [hm]
        simp [introductionTo, Peer.gained, hreg, hself]
      refine Or.inr (Or.inl ?_)
      rw [h.neighborsOf_acted, if_pos rfl]
      exact (h.acts.neighbors p').2 (Or.inr hgained)

/-- **Whatever a peer does, linking goes on.** -/
theorem linking_acted : (net.acted p rest r).Linking o := by
  have hlinking := h.linking
  refine ⟨hlinking.distinct, hlinking.overlay, hlinking.running, hlinking.apart, hlinking.ready,
    fun q => ?_, fun e he => h.fits_acted he, fun p' s' hs' => ?_⟩
  · rw [h.station?_acted, ← hlinking.peers]
    split_ifs with hq
    · simp [hq, h.station]
    · rfl
  · rw [h.station?_acted] at hs'
    split_ifs at hs' with hp'
    · obtain rfl := Option.some.inj hs'
      subst hp'
      refine ⟨h.acts.registry.trans h.registry, h.acts.running, h.identity ▸ h.acts.ready,
        fun q hq => h.linked hq, fun q hq => ?_, fun q hq => h.known_self hq⟩
      rcases (h.acts.neighbors q).1 hq with hold | hnew
      · exact h.acts.kept q ((hlinking.stations _ s h.station).reached q hold)
      · exact h.acts.reached q hnew
    · have hjoining := hlinking.stations p' s' hs'
      exact ⟨hjoining.registry, hjoining.running, hjoining.ready, hjoining.linked, hjoining.reached,
        fun q hq => h.known_other hs' hp' hq⟩

/-- **Whoever is told whom to dial** has them as neighbours from then on. -/
theorem assigned_acted (hassigned : net.Assigned o) : (net.acted p rest r).Assigned o := by
  intro p' hp'
  rcases hassigned p' hp' with ⟨devices, hin⟩ | hdone
  · rcases h.mem_flight hin with hin | ⟨hqp, hm⟩
    · exact Or.inl ⟨devices, hin⟩
    · obtain rfl : p' = p := hqp
      refine Or.inr fun q hq => ?_
      rw [h.neighborsOf_acted, if_pos rfl]
      refine (h.acts.neighbors q).2 (Or.inr ?_)
      rw [hm]
      exact hq
  · exact Or.inr fun q hq => h.neighborsOf_subset p' (hdone q hq)

end Acting

/-! ### What happens to a cluster -/

theorem Linking.acting_receive (h : net.Linking o) {i : ℕ} {m : Envelope}
    (hm : net.flight[i]? = some m) (hs : net.station? m.receiver = some s) (pick : ℕ) :
    net.Acting o m.receiver s (some m.message) (net.without i).flight
      (s.receive pick m.message) := by
  have hjoining := h.stations _ s hs
  have hgoes : m.message ≠ .shutdown := by
    intro hshutdown
    have hfits := h.flight m (List.mem_of_getElem? hm)
    simp only [Fits, hshutdown] at hfits
  have hready : s.connections.Ready s.peer.identity := by
    rw [identity_of_station? hs]
    exact hjoining.ready
  exact ⟨h, hs, Station.acts_receive hready hjoining.running pick hgoes, perm_flight hm⟩

theorem Linking.acting_gossip (h : net.Linking o) (hs : net.station? p = some s) :
    net.Acting o p s none net.flight s.gossip := by
  have hjoining := h.stations p s hs
  have hready : s.connections.Ready s.peer.identity := by
    rw [identity_of_station? hs]
    exact hjoining.ready
  exact ⟨h, hs, Station.acts_gossip hready hjoining.running, List.Perm.refl _⟩

/-- Only messages to others than peers are lost. -/
theorem Linking.receiver_of_lost (h : net.Linking o) {m : Envelope}
    (hlost : m.receiver ≠ net.registry.identity ∧ net.station? m.receiver = none ∨
      net.registry.stopped = true) : m.receiver ∉ o.peers := by
  rcases hlost with ⟨-, hnone⟩ | hstopped
  · rw [← h.peers, hnone]
    exact Bool.false_ne_true
  · rw [h.running] at hstopped
    cases hstopped

theorem mem_without {i : ℕ} {m e : Envelope} (hm : net.flight[i]? = some m)
    (hgone : m.receiver ∉ o.peers) (he : e ∈ net.flight) (hpeer : e.receiver ∈ o.peers) :
    e ∈ (net.without i).flight := by
  refine (List.mem_cons.1 ((perm_flight hm).mem_iff.1 he)).resolve_left ?_
  rintro rfl
  exact hgone hpeer

theorem mem_of_without {i : ℕ} {e : Envelope} (he : e ∈ (net.without i).flight) :
    e ∈ net.flight :=
  List.mem_of_mem_eraseIdx he

/-- **Whatever happens, linking goes on**, and no peer forgets whom it had to dial. -/
theorem Linking.after (h : net.Linking o) (e : Event) :
    (net.after e).Linking o ∧ (net.Assigned o → (net.after e).Assigned o) := by
  have hstep := step_after net e
  generalize net.after e = net' at hstep
  cases hstep with
  | idle | silent => exact ⟨h, id⟩
  | @lost d m hm hlost =>
    have hkept := fun e => mem_without (e := e) hm (h.receiver_of_lost hlost)
    exact ⟨h.congr rfl rfl h.overlay h.running h.ready hkept fun e he =>
      h.flight e (mem_of_without he), fun hassigned => hassigned.congr rfl hkept⟩
  | @noted d m hm hreg =>
    have hkept := fun e => mem_without (e := e) hm (hreg ▸ h.apart : m.receiver ∉ o.peers)
    obtain ⟨hidentity, hoverlay, hstopped⟩ := net.registry.receive_keeps m.message d.now
    exact ⟨h.congr rfl hidentity (hoverlay.trans h.overlay) (hstopped.trans h.running)
      (h.ready.greet m.message) hkept fun e he => h.flight e (mem_of_without he),
      fun hassigned => hassigned.congr rfl hkept⟩
  | @handled d m s hm hs =>
    have hacting := h.acting_receive hm hs d.pick
    exact ⟨hacting.linking_acted, hacting.assigned_acted⟩
  | gossiped hs =>
    have hacting := h.acting_gossip hs
    exact ⟨hacting.linking_acted, hacting.assigned_acted⟩

/-- **Linking goes on in every run.** -/
theorem Linking.afterAll (h : net.Linking o) (hassigned : net.Assigned o) (es : List Event) :
    (net.afterAll es).Linking o ∧ (net.afterAll es).Assigned o :=
  afterAll_induction (P := fun net => net.Linking o ∧ net.Assigned o)
    (fun _ e ⟨h, hassigned⟩ => ⟨(h.after e).1, (h.after e).2 hassigned⟩) ⟨h, hassigned⟩ es

/-! ## When nothing is under way -/

/-- No message of certain kinds is in flight. -/
def Idle (net : Cluster) (tags : List MessageTag) : Prop :=
  ∀ m ∈ net.flight, m.message.tag ∉ tags

instance (net : Cluster) (tags : List MessageTag) : Decidable (net.Idle tags) :=
  inferInstanceAs (Decidable (∀ m ∈ net.flight, _))

/-- The kinds of messages by which peers are linked. -/
def linkingTags : List MessageTag :=
  [.introduction, .initiateConnections]

/-- **When nothing is under way, neighbours are those of the overlay.** -/
theorem Linking.mem_neighborsOf_iff (h : net.Linking o) (hassigned : net.Assigned o)
    (hidle : net.Idle linkingTags) : q ∈ net.neighborsOf p ↔ q ∈ o.neighborsOf p := by
  refine ⟨h.mem_neighborsOf, fun hq => ?_⟩
  have hdials : ∀ p ∈ o.peers, ∀ q ∈ o.listOf p, q ∈ net.neighborsOf p := by
    intro p hp
    refine (hassigned p hp).resolve_left fun ⟨devices, hin⟩ => hidle _ hin ?_
    simp [Message.tag, linkingTags]
  have hp := h.distinct.mem_peers_of_neighborsOf hq
  rcases h.distinct.mem_neighborsOf_iff.1 hq with hlist | hlist
  · exact hdials p hp q hlist
  · -- the other end has dialed, and its introduction has arrived
    have hpeer := h.distinct.mem_peers_of_neighborsOf (h.distinct.neighborsOf_symm hq)
    obtain ⟨s, hs⟩ := h.exists_station hpeer
    have hdialed := hdials q hpeer p hlist
    rw [neighborsOf_eq hs] at hdialed
    have hjoining := h.stations q s hs
    rcases hjoining.known p (hjoining.reached p hdialed) with hreg | hmem | ⟨-, hin⟩
    · exact absurd (hreg ▸ hp) h.apart
    · exact hmem
    · exact absurd (by simp [introductionTo, Message.tag, linkingTags]) (hidle _ hin)

/-- So the list of its neighbours is that of the overlay, in order. -/
theorem Linking.neighbors_of_idle (h : net.Linking o) (hassigned : net.Assigned o)
    (hidle : net.Idle linkingTags) (hs : net.station? p = some s) :
    s.peer.neighbors = (PeerSet.ofList (o.neighborsOf p)).toList := by
  refine congrArg PeerSet.toList (PeerSet.ext_mem fun q => ?_)
  rw [PeerSet.mem_ofList, ← h.mem_neighborsOf_iff hassigned hidle, neighborsOf_eq hs]
  exact PeerSet.mem_toList.symm

end Cluster

end OverlayCensus
