/-
  OverlayCensus — connecting an overlay and checking it.

  Connecting tells each peer whom to dial.  A check asks every peer for its neighbours; each
  answers once, and as its neighbours are those of the overlay, every answer agrees.

  * `Linking.execute`: linking goes on when the registry carries out a command;
  * `Linking.connect`: after connecting, every peer will be told whom to dial;
  * `Checking`: what holds during a check, `Checking.after`: whatever happens;
  * `links_of_connectPeers`: so peers are linked as the overlay says, and a check finds it so.
-/
import Mathlib
import OverlayCensus.Proofs.ClusterArrivals
import OverlayCensus.Proofs.RegistryConnecting
import OverlayCensus.Proofs.WireRoundTrip

namespace OverlayCensus

open Connections (introductionTo)

/-! ## Commands -/

namespace Registry

variable {o : Overlay} {r : Registry}

theorem execute_checkPeers (hoverlay : r.overlay = some o) (hrunning : r.stopped = false)
    (occasion : Occasion) :
    (r.execute occasion .checkPeers).registry = { r with check := ⟨o.size, 0, 0⟩ } ∧
      (r.execute occasion .checkPeers).outgoing =
        o.peers.map fun p => .send p .listPeersRequest := by
  simp [execute, checkPeers, hoverlay, say, unlessStopped, hrunning, Overlay.peers]

/-- Only reports are checked. -/
theorem check_receive {m : Message} (hm : m.tag ≠ .listPeersResponse) (now : ℕ) :
    (r.receive m now).check = r.check := by
  cases m with
  | register identity devices =>
    simp only [receive, register]
    cases Inventory.ofText? devices with
    | none => split_ifs <;> rfl
    | some inventory => split_ifs <;> rfl
  | listPeersResponse peer neighbors => exact absurd rfl hm
  | _ => rfl

/-- A report that agrees with the overlay counts. -/
theorem check_receive_report (h : o.Distinct) (hoverlay : r.overlay = some o) {p : PeerAddress}
    (hp : p ∈ o.peers) {reported : List PeerAddress}
    (hreported : ∀ q, q ∈ reported ↔ q ∈ o.neighborsOf p) (now : ℕ) :
    (r.receive (.listPeersResponse p reported) now).check =
      { r.check with responses := r.check.responses + 1, successes := r.check.successes + 1 } := by
  obtain ⟨ns, hns, hneighbors⟩ := h.neighbors_eq_ok hp
  have hagrees : PeerSet.ofList (ns.map Prod.fst) = PeerSet.ofList reported :=
    PeerSet.ext_mem fun q => by
      rw [PeerSet.mem_ofList, PeerSet.mem_ofList, hreported, hneighbors]
  simp [receive, recordCheck, hoverlay, hns, hagrees]

end Registry

namespace Cluster

variable {net net' : Cluster} {o : Overlay} {p q : PeerAddress} {s : Station}

/-- The kinds of messages by which an overlay is checked. -/
def checkTags : List MessageTag :=
  [.listPeersRequest, .listPeersResponse]

/-- What is in flight after a command. -/
theorem mem_flight_cases {old sent : List Envelope} {fresh : List PeerAddress} {m : Envelope}
    (hperm : net.flight.Perm (old ++ (fresh.map (introductionTo q) ++ sent)))
    (hm : m ∈ net.flight) : m ∈ old ∨ (∃ p, m = introductionTo q p) ∨ m ∈ sent := by
  rcases List.mem_append.1 (hperm.mem_iff.1 hm) with hm | hm
  · exact Or.inl hm
  · refine Or.inr ((List.mem_append.1 hm).imp_left fun hm => ?_)
    obtain ⟨p, -, rfl⟩ := List.mem_map.1 hm
    exact ⟨p, rfl⟩

/-- **Linking goes on when the registry carries out a command** that keeps its overlay and does
    not stop it. -/
theorem Linking.execute (h : net.Linking o) (occasion : Occasion) (c : RegistryCommand)
    (hidentity : (net.registry.execute occasion c).registry.identity = net.registry.identity)
    (hoverlay : (net.registry.execute occasion c).registry.overlay = some o)
    (hrunning : (net.registry.execute occasion c).registry.stopped = false)
    (hfits : ∀ m ∈ (net.registry.execute occasion c).outgoing.filterMap Outgoing.envelope?,
      net.Fits o m) :
    (net.execute occasion c).Linking o ∧ ∃ fresh : List PeerAddress,
      (net.execute occasion c).flight.Perm (net.flight ++
        (fresh.map (introductionTo net.registry.identity) ++
          (net.registry.execute occasion c).outgoing.filterMap Outgoing.envelope?)) := by
  obtain ⟨fresh, hposted⟩ := h.ready.post (net.registry.execute occasion c).outgoing
  have hperm : (net.execute occasion c).flight.Perm (net.flight ++
      (fresh.map (introductionTo net.registry.identity) ++
        (net.registry.execute occasion c).outgoing.filterMap Outgoing.envelope?)) :=
    hposted.sent.append_left _
  refine ⟨h.congr rfl hidentity hoverlay hrunning ?_ (fun m hm _ => ?_) fun m hm => ?_,
    fresh, hperm⟩
  · simp only [Cluster.execute, hrunning]
    exact hposted.ready
  · exact hperm.mem_iff.2 (List.mem_append_left _ hm)
  · rcases mem_flight_cases hperm hm with hm | ⟨p, rfl⟩ | hm
    · exact h.flight m hm
    · exact ⟨Or.inl rfl, fun _ => Or.inl rfl⟩
    · exact hfits m hm

/-- **After connecting, every peer will be told whom to dial.** -/
theorem Linking.connect (h : net.Linking o) (occasion : Occasion) :
    (net.execute occasion .connectPeers).Linking o ∧
      (net.execute occasion .connectPeers).Assigned o ∧
      (net.Idle checkTags → (net.execute occasion .connectPeers).Idle checkTags) := by
  obtain ⟨hregistry, hout⟩ :=
    Registry.execute_connectPeers h.distinct h.overlay h.running occasion
  have hvertices := net.registry.map_fst_issuesIn Inventory.patience o.vertices.toList
    occasion.draws
  set issues := net.registry.issuesIn Inventory.patience o.vertices.toList occasion.draws
  have henvelopes : (net.registry.execute occasion .connectPeers).outgoing.filterMap
      Outgoing.envelope? = issues.map fun a =>
        ⟨a.1.peer, .initiateConnections (o.listOf a.1.peer) a.2.render⟩ := by
    rw [hout]
    exact Outgoing.filterMap_envelope?_send ..
  have hfits : ∀ m ∈ (net.registry.execute occasion .connectPeers).outgoing.filterMap
      Outgoing.envelope?, net.Fits o m := by
    intro m hm
    rw [henvelopes] at hm
    obtain ⟨a, -, rfl⟩ := List.mem_map.1 hm
    rfl
  obtain ⟨hlinking, fresh, hperm⟩ := h.execute occasion .connectPeers (by rw [hregistry])
    (by rw [hregistry]; exact h.overlay) (by rw [hregistry]; exact h.running) hfits
  rw [henvelopes] at hperm
  refine ⟨hlinking, fun p hp => Or.inl ?_, fun hidle m hm => ?_⟩
  · obtain ⟨v, hv, rfl⟩ := List.mem_map.1 hp
    rw [← hvertices, List.mem_map] at hv
    obtain ⟨⟨v, inventory⟩, hv, rfl⟩ := hv
    refine ⟨inventory.render,
      hperm.mem_iff.2 (List.mem_append_right _ (List.mem_append_right _ ?_))⟩
    exact List.mem_map_of_mem hv
  · rcases mem_flight_cases hperm hm with hm | ⟨p, rfl⟩ | hm
    · exact hidle m hm
    · simp [introductionTo, Message.tag, checkTags]
    · obtain ⟨a, -, rfl⟩ := List.mem_map.1 hm
      simp [Message.tag, checkTags]

/-! ## Fresh peers -/

/-- A registry with an overlay, and peers at its vertices that are running and have no neighbours,
    nor a connection to anyone but the registry.  Queries and gossip may be in flight. -/
structure Fresh (net : Cluster) (o : Overlay) : Prop where
  overlay : net.registry.overlay = some o
  running : net.registry.stopped = false
  apart : net.registry.identity ∉ o.peers
  ready : net.connections.Ready net.registry.identity
  peers : ∀ p, (net.station? p).isSome = true ↔ p ∈ o.peers
  flight : ∀ m ∈ net.flight, m.message.tag ∈ MessageTag.carried
  registries : ∀ s ∈ net.stations, s.peer.registry = net.registry.identity
  links : ∀ s ∈ net.stations, s.peer.links = .empty
  connections : ∀ s ∈ net.stations, s.connections.Ready s.peer.identity
  connected : ∀ s ∈ net.stations, ∀ q, s.connections.isConnected q = true →
    q = net.registry.identity

theorem not_mem_checkTags : ∀ tag ∈ MessageTag.introduction :: MessageTag.carried,
    tag ∉ checkTags := by decide

theorem Fresh.idle_check (h : net.Fresh o) : net.Idle checkTags := fun m hm =>
  not_mem_checkTags _ (List.mem_cons_of_mem _ (h.flight m hm))

theorem mem_of_station? (h : net.station? p = some s) : s ∈ net.stations :=
  List.mem_of_find?_eq_some h

theorem Fresh.linking (h : net.Fresh o) (hdistinct : o.Distinct) : net.Linking o := by
  refine ⟨hdistinct, h.overlay, h.running, h.apart, h.ready, h.peers,
    fun m hm => fits_of_carried (h.flight m hm), fun p s hs => ?_⟩
  have hmem := mem_of_station? hs
  have hnone : s.peer.neighbors = [] := by rw [Peer.neighbors, h.links s hmem]; rfl
  refine ⟨h.registries s hmem, by rw [Peer.isStopped, h.links s hmem]; rfl,
    identity_of_station? hs ▸ h.connections s hmem, ?_, ?_,
    fun q hq => Or.inl (h.connected s hmem q hq)⟩
  · simp [hnone]
  · simp [hnone]

/-! ## Checks -/

/-- How far a check has come: of those who are expected to answer, each has been asked, or its
    answer is under way, or it has been counted and agrees. -/
structure Counted (net : Cluster) (o : Overlay) : Prop where
  expected : net.registry.check.expected = o.size
  total : countTag .listPeersRequest net.flight + countTag .listPeersResponse net.flight +
    net.registry.check.responses = o.size
  agreeing : net.registry.check.successes = net.registry.check.responses

/-- A cluster whose peers are linked as the overlay says, during a check. -/
structure Checking (net : Cluster) (o : Overlay) : Prop extends net.Counted o where
  linking : net.Linking o
  settled : ∀ p q, q ∈ o.neighborsOf p → q ∈ net.neighborsOf p
  asked : ∀ m ∈ net.flight, m.message = .listPeersRequest → m.receiver ∈ o.peers
  reported : ∀ m ∈ net.flight, ∀ p reported, m.message = .listPeersResponse p reported →
    m.receiver = net.registry.identity ∧ p ∈ o.peers ∧ ∀ q, q ∈ reported ↔ q ∈ o.neighborsOf p

/-- The registry after an arrival. -/
theorem Linking.registry_deliver (h : net.Linking o) {d : Delivery} {m : Envelope}
    (hm : net.flight[d.index]? = some m) :
    (net.after (.deliver d)).registry =
      if m.receiver = net.registry.identity then net.registry.receive m.message d.now
      else net.registry := by
  have hstep := step_after net (.deliver d)
  generalize net.after (.deliver d) = net' at hstep
  cases hstep with
  | idle hnone =>
    rw [hm] at hnone
    cases hnone
  | lost hm' hlost =>
    cases hm.symm.trans hm'
    rcases hlost with ⟨hother, -⟩ | hstopped
    · rw [if_neg hother]
      rfl
    · rw [h.running] at hstopped
      cases hstopped
  | noted hm' hreg =>
    cases hm.symm.trans hm'
    rw [if_pos hreg]
  | handled hm' hs =>
    cases hm.symm.trans hm'
    rw [if_neg (h.ne_registry hs)]
    rfl

theorem Linking.check_deliver (h : net.Linking o) {d : Delivery} {m : Envelope}
    (hm : net.flight[d.index]? = some m) (hreport : m.message.tag ≠ .listPeersResponse) :
    (net.after (.deliver d)).registry.check = net.registry.check := by
  rw [h.registry_deliver hm]
  split_ifs
  · exact Registry.check_receive hreport d.now
  · rfl

/-- Nobody loses a neighbour. -/
theorem Linking.neighborsOf_after (h : net.Linking o) (e : Event) (p : PeerAddress) :
    net.neighborsOf p ⊆ (net.after e).neighborsOf p := by
  have hstep := step_after net e
  generalize net.after e = net' at hstep
  cases hstep with
  | idle | silent | lost | noted => exact List.Subset.refl _
  | @handled d m s hm hs => exact (h.acting_receive hm hs d.pick).neighborsOf_subset p
  | gossiped hs => exact (h.acting_gossip hs).neighborsOf_subset p

/-- The registry keeps its name. -/
theorem identity_after (net : Cluster) (e : Event) :
    (net.after e).registry.identity = net.registry.identity := by
  have hstep := step_after net e
  generalize net.after e = net' at hstep
  cases hstep with
  | @noted d m => exact (net.registry.receive_keeps m.message d.now).1
  | _ => rfl

theorem identity_afterAll (net : Cluster) (es : List Event) :
    (net.afterAll es).registry.identity = net.registry.identity :=
  afterAll_induction (P := fun net' => net'.registry.identity = net.registry.identity)
    (fun net' e h => (identity_after net' e).trans h) rfl es

namespace Checking

/-- **An arrival moves a peer on**: its request becomes an answer, and its answer is counted. -/
theorem counted_deliver (h : net.Checking o) {d : Delivery} {m : Envelope}
    (hm : net.flight[d.index]? = some m) : (net.after (.deliver d)).Counted o := by
  have hlinking := h.linking
  have hmem : m ∈ net.flight := List.mem_of_getElem? hm
  have hrequests := hlinking.countTag_deliver hm .listPeersRequest (by decide)
  have hreports := hlinking.countTag_deliver hm .listPeersResponse (by decide)
  obtain ⟨hexpected, htotal, hagreeing⟩ := h.toCounted
  by_cases hreport : m.message.tag = .listPeersResponse
  · obtain ⟨p, reported, hmessage⟩ := Message.tag_eq_listPeersResponse_iff.1 hreport
    obtain ⟨hreg, hpeer, hagrees⟩ := h.reported m hmem p reported hmessage
    have hcheck : (net.after (.deliver d)).registry.check = { net.registry.check with
        responses := net.registry.check.responses + 1
        successes := net.registry.check.successes + 1 } := by
      rw [hlinking.registry_deliver hm, if_pos hreg, hmessage]
      exact Registry.check_receive_report hlinking.distinct hlinking.overlay hpeer hagrees d.now
    simp only [hmessage, Message.tag, reduceCtorEq, if_true, if_false, false_and, and_false]
      at hrequests hreports
    exact ⟨by rw [hcheck]; exact hexpected, by rw [hcheck]; dsimp only; omega,
      by rw [hcheck]; exact congrArg Nat.succ hagreeing⟩
  · have hcheck := hlinking.check_deliver hm hreport
    have hmoved : countTag .listPeersRequest (net.after (.deliver d)).flight +
          countTag .listPeersResponse (net.after (.deliver d)).flight =
        countTag .listPeersRequest net.flight + countTag .listPeersResponse net.flight := by
      by_cases hrequest : m.message = .listPeersRequest
      · have hpeer := h.asked m hmem hrequest
        simp only [hrequest, hpeer, Message.tag, reduceCtorEq, if_true, if_false, false_and,
          and_self] at hrequests hreports
        omega
      · rw [if_neg (mt Message.tag_eq_listPeersRequest_iff.1 hrequest), if_neg (by simp)]
          at hrequests
        rw [if_neg hreport, if_neg fun hasks => hrequest hasks.2.1] at hreports
        omega
    exact ⟨hcheck ▸ hexpected, by rw [hcheck, hmoved]; exact htotal, hcheck ▸ hagreeing⟩

/-- **Whatever happens, a check goes on.** -/
theorem after (h : net.Checking o) (e : Event) : (net.after e).Checking o := by
  have hlinking := h.linking
  have hcounted : (net.after e).Counted o := by
    cases e with
    | gossip p =>
      have hregistry : (net.after (.gossip p)).registry = net.registry := by
        rw [Cluster.after, gossip]
        split <;> rfl
      obtain ⟨hexpected, htotal, hagreeing⟩ := h.toCounted
      refine ⟨hregistry ▸ hexpected, ?_, hregistry ▸ hagreeing⟩
      rw [hregistry, hlinking.countTag_gossip p (by decide), hlinking.countTag_gossip p (by decide)]
      exact htotal
    | deliver d =>
      cases hm : net.flight[d.index]? with
      | none =>
        have hkept : net.after (.deliver d) = net := by
          simp [Cluster.after, deliver, hm]
        rw [hkept]
        exact h.toCounted
      | some m => exact h.counted_deliver hm
  refine ⟨hcounted, (hlinking.after e).1,
    fun p q hq => hlinking.neighborsOf_after e p (h.settled p q hq), fun m hm hrequest => ?_, fun m hm p reported hreport => ?_⟩
  · rcases hlinking.mem_flight_after hm with hold | htag | ⟨p, s, -, -, rfl⟩
    · exact h.asked m hold hrequest
    · rw [hrequest] at htag
      simp [Message.tag, MessageTag.carried] at htag
    · cases hrequest
  · rw [identity_after]
    rcases hlinking.mem_flight_after hm with hold | htag | ⟨p', s, hs, -, rfl⟩
    · exact h.reported m hold p reported hreport
    · rw [hreport] at htag
      simp [Message.tag, MessageTag.carried] at htag
    · cases hreport
      refine ⟨rfl, hlinking.mem_peers hs, fun q => ?_⟩
      rw [← neighborsOf_eq hs]
      exact ⟨hlinking.mem_neighborsOf, h.settled _ q⟩

theorem afterAll (h : net.Checking o) (es : List Event) : (net.afterAll es).Checking o :=
  afterAll_induction (P := fun net => net.Checking o) (fun _ e h => h.after e) h es

/-- **When all have answered, all have been counted.** -/
theorem check_of_idle (h : net.Checking o) (hidle : net.Idle checkTags) :
    net.registry.check = ⟨o.size, o.size, o.size⟩ := by
  have hrequests : countTag .listPeersRequest net.flight = 0 :=
    countTag_eq_zero_iff.2 fun m hm htag => hidle m hm (by simp [htag, checkTags])
  have hreports : countTag .listPeersResponse net.flight = 0 :=
    countTag_eq_zero_iff.2 fun m hm htag => hidle m hm (by simp [htag, checkTags])
  obtain ⟨hexpected, htotal, hagreeing⟩ := h.toCounted
  rw [hrequests, hreports, zero_add, zero_add] at htotal
  cases hcheck : net.registry.check
  simp only [hcheck] at hexpected htotal hagreeing
  rw [hagreeing, htotal, hexpected]

/-- **All can answer.** -/
theorem exists_idle (h : net.Checking o) : ∃ es, (net.afterAll es).Idle checkTags := by
  obtain ⟨es, hchecking, hasked⟩ := exists_idle_of_lt (P := fun net => net.Checking o)
    .listPeersRequest (fun net e h => h.after e)
    (fun net d m h hm htag => by
      have hcount := h.linking.countTag_deliver hm .listPeersRequest (by decide)
      rw [if_pos htag, if_neg (by simp)] at hcount
      omega) h
  obtain ⟨es', ⟨-, hasked⟩, hanswered⟩ := exists_idle_of_lt
    (P := fun net => net.Checking o ∧ net.Idle [.listPeersRequest]) .listPeersResponse
    (fun net e h => ⟨h.1.after e, h.1.linking.idle_after (by decide) h.2 e⟩)
    (fun net d m h hm htag => by
      have hcount := h.1.linking.countTag_deliver hm .listPeersResponse (by decide)
      have hreport : m.message ≠ .listPeersRequest := by
        rintro hrequest
        rw [hrequest] at htag
        cases htag
      rw [if_pos htag, if_neg (by simp [hreport])] at hcount
      omega) ⟨hchecking, hasked⟩
  refine ⟨es ++ es', fun m hm => ?_⟩
  rw [Cluster.afterAll, List.foldl_append] at hm
  simpa [checkTags] using ⟨by simpa using hasked m hm, by simpa using hanswered m hm⟩

end Checking

/-- A check begins with a request to each peer. -/
theorem Linking.ask (h : net.Linking o) (occasion : Occasion) :
    (net.execute occasion .checkPeers).Linking o ∧
      (net.execute occasion .checkPeers).registry =
        { net.registry with check := ⟨o.size, 0, 0⟩ } ∧
      ∃ fresh : List PeerAddress, (net.execute occasion .checkPeers).flight.Perm (net.flight ++
        (fresh.map (introductionTo net.registry.identity) ++
          o.peers.map fun p => ⟨p, .listPeersRequest⟩)) := by
  obtain ⟨hregistry, hout⟩ := Registry.execute_checkPeers h.overlay h.running occasion
  have henvelopes : (net.registry.execute occasion .checkPeers).outgoing.filterMap
      Outgoing.envelope? = o.peers.map fun p => ⟨p, .listPeersRequest⟩ := by
    rw [hout, Outgoing.filterMap_envelope?_send]
  have hfits : ∀ m ∈ (net.registry.execute occasion .checkPeers).outgoing.filterMap
      Outgoing.envelope?, net.Fits o m := by
    intro m hm
    rw [henvelopes] at hm
    obtain ⟨p, -, rfl⟩ := List.mem_map.1 hm
    trivial
  obtain ⟨hlinking, fresh, hperm⟩ := h.execute occasion .checkPeers (by rw [hregistry])
    (by rw [hregistry]; exact h.overlay) (by rw [hregistry]; exact h.running) hfits
  exact ⟨hlinking, hregistry, fresh, henvelopes ▸ hperm⟩

/-- **A check begins where peers are linked** and no other check is under way. -/
theorem Linking.check (h : net.Linking o) (hassigned : net.Assigned o)
    (hidle : net.Idle linkingTags) (hunchecked : net.Idle checkTags) (occasion : Occasion) :
    (net.execute occasion .checkPeers).Checking o := by
  obtain ⟨hlinking, hregistry, fresh, hperm⟩ := h.ask occasion
  have hcount : ∀ tag ∈ checkTags, countTag tag (net.execute occasion .checkPeers).flight =
      countTag tag (o.peers.map fun p => ⟨p, .listPeersRequest⟩) := by
    intro tag htag
    have hintroduction : tag ≠ .introduction := by
      rintro rfl
      simp [checkTags] at htag
    have hnone : countTag tag net.flight = 0 :=
      countTag_eq_zero_iff.2 fun m hm heq => hunchecked m hm (heq ▸ htag)
    rw [countTag_perm hperm, countTag_append, countTag_append, hnone,
      countTag_introductions hintroduction, zero_add, zero_add]
  have hrequests : ∀ m ∈ (net.execute occasion .checkPeers).flight, m.message.tag ∈ checkTags →
      ∃ p ∈ o.peers, m = ⟨p, .listPeersRequest⟩ := by
    intro m hm htag
    rcases mem_flight_cases hperm hm with hm | ⟨p, rfl⟩ | hm
    · exact absurd htag (hunchecked m hm)
    · simp [introductionTo, Message.tag, checkTags] at htag
    · obtain ⟨p, hp, rfl⟩ := List.mem_map.1 hm
      exact ⟨p, hp, rfl⟩
  refine ⟨⟨by rw [hregistry], ?_, by rw [hregistry]⟩, hlinking, fun p q hq => ?_,
    fun m hm hrequest => ?_, fun m hm p reported hreport => ?_⟩
  · rw [hcount _ (by decide), hcount _ (by decide), hregistry, ← Overlay.length_peers]
    simp [countTag, List.countP_map, Function.comp_def, Message.tag]
  · exact (h.mem_neighborsOf_iff hassigned hidle).2 hq
  · obtain ⟨p, hp, rfl⟩ := hrequests m hm (by simp [hrequest, Message.tag, checkTags])
    exact hp
  · obtain ⟨p', -, rfl⟩ := hrequests m hm (by simp [hreport, Message.tag, checkTags])
    cases hreport

/-- Without a request there is no report. -/
theorem Linking.idle_check_after (h : net.Linking o) (hidle : net.Idle checkTags) (e : Event) :
    (net.after e).Idle checkTags := by
  intro m hm
  rcases h.mem_flight_after hm with hold | htag | ⟨p, s, -, hrequest, -⟩
  · exact hidle m hold
  · exact not_mem_checkTags _ htag
  · exact absurd (by simp [Message.tag, checkTags]) (hidle _ hrequest)

/-! ## From bytes to messages -/

/-- Messages of certain kinds whose lengths fit are read back from their bytes. -/
def ReadBack (net : Cluster) (tags : List MessageTag) : Prop :=
  ∀ m ∈ net.flight, m.message.tag ∈ tags → m.message.Fits →
    Message.decode m.message.encode = .ok m.message

/-- The messages that link peers hold addresses of the registry and its overlay only. -/
theorem Linking.readBack (h : net.Linking o)
    (hreadable : ∀ p ∈ net.registry.identity :: o.peers, p.Readable) :
    net.ReadBack linkingTags := by
  rintro ⟨receiver, message⟩ hm htag hlengths
  refine Message.decode_encode hlengths fun a ha => hreadable a ?_
  have hfits := h.flight _ hm
  rcases List.mem_pair.1 htag with hintroduction | hassigning
  · obtain ⟨q, rfl⟩ := Message.tag_eq_introduction_iff.1 hintroduction
    obtain rfl := List.mem_singleton.1 ha
    exact List.mem_cons.2 hfits.1
  · obtain ⟨assigned, devices, rfl⟩ := Message.tag_eq_initiateConnections_iff.1 hassigning
    obtain rfl : assigned = o.listOf receiver := hfits
    have hback := h.distinct.neighborsOf_symm (h.distinct.mem_neighborsOf_iff.2 (Or.inl ha))
    exact List.mem_cons_of_mem _ (h.distinct.mem_peers_of_neighborsOf hback)

/-- So do those of a check. -/
theorem Checking.readBack (h : net.Checking o)
    (hreadable : ∀ p ∈ net.registry.identity :: o.peers, p.Readable) :
    net.ReadBack (linkingTags ++ checkTags) := by
  rintro ⟨receiver, message⟩ hm htag hlengths
  rcases List.mem_append.1 htag with hlinking | hcheck
  · exact h.linking.readBack hreadable _ hm hlinking hlengths
  · refine Message.decode_encode hlengths fun a ha => hreadable a ?_
    rcases List.mem_pair.1 hcheck with hrequest | hreport
    · obtain rfl := Message.tag_eq_listPeersRequest_iff.1 hrequest
      cases ha
    · obtain ⟨p, reported, rfl⟩ := Message.tag_eq_listPeersResponse_iff.1 hreport
      obtain ⟨-, hpeer, hagrees⟩ := h.reported _ hm p reported rfl
      have hdistinct := h.linking.distinct
      refine List.mem_cons_of_mem _ ?_
      rcases List.mem_cons.1 ha with rfl | ha
      · exact hpeer
      · exact hdistinct.mem_peers_of_neighborsOf (hdistinct.neighborsOf_symm ((hagrees a).1 ha))

/-! ## Connecting and checking -/

/-- Every peer of an overlay has the neighbours that the overlay gives it, in order. -/
def LinkedAs (net : Cluster) (o : Overlay) : Prop :=
  ∀ p ∈ o.peers, ∃ s ns, net.station? p = some s ∧ o.neighbors p = .ok ns ∧
    s.peer.neighbors = (PeerSet.ofList (ns.map Prod.fst)).toList

theorem Linking.linkedAs (h : net.Linking o) (hassigned : net.Assigned o)
    (hidle : net.Idle linkingTags) : net.LinkedAs o := by
  intro p hp
  obtain ⟨s, hs⟩ := h.exists_station hp
  obtain ⟨ns, hns, hneighbors⟩ := h.distinct.neighbors_eq_ok hp
  exact ⟨s, ns, hs, hns, hneighbors ▸ h.neighbors_of_idle hassigned hidle hs⟩

/-- **Connecting links the peers of an overlay as it says**, in whatever order messages arrive
    and peers gossip, once nobody has still to be told whom to dial or who has dialed.  A check
    after that finds every peer in order. -/
theorem links_of_connectPeers (hdistinct : o.Distinct)
    (hreadable : ∀ p ∈ net.registry.identity :: o.peers, p.Readable) (hfresh : net.Fresh o)
    (occasion : Occasion) (es : List Event) :
    let linked := (net.execute occasion .connectPeers).afterAll es
    linked.ReadBack linkingTags ∧ (∃ more, (linked.afterAll more).Idle linkingTags) ∧
      (linked.Idle linkingTags → linked.LinkedAs o ∧ ∀ occasion' es',
        let checked := (linked.execute occasion' .checkPeers).afterAll es'
        checked.ReadBack (linkingTags ++ checkTags) ∧
          (∃ more, (checked.afterAll more).Idle checkTags) ∧
          (checked.Idle checkTags → checked.registry.check = ⟨o.size, o.size, o.size⟩)) := by
  intro linked
  obtain ⟨hstart, hassigned, hunasked⟩ := (hfresh.linking hdistinct).connect occasion
  obtain ⟨hlinking, htold⟩ := hstart.afterAll hassigned es
  have hunchecked : linked.Idle checkTags :=
    (afterAll_induction (P := fun net => net.Linking o ∧ net.Idle checkTags)
      (fun _ e h => ⟨(h.1.after e).1, h.1.idle_check_after h.2 e⟩)
      ⟨hstart, hunasked hfresh.idle_check⟩ es).2
  have hidentity : linked.registry.identity = net.registry.identity := by
    rw [identity_afterAll]
    exact congrArg Registry.identity
      (Registry.execute_connectPeers hdistinct hfresh.overlay hfresh.running occasion).1
  rw [← hidentity] at hreadable
  refine ⟨hlinking.readBack hreadable, hlinking.exists_idle_linking, fun hidle =>
    ⟨hlinking.linkedAs htold hidle, fun occasion' es' => ?_⟩⟩
  have hchecking := (hlinking.check htold hidle hunchecked occasion').afterAll es'
  have hidentity' : ((linked.execute occasion' .checkPeers).afterAll es').registry.identity =
      linked.registry.identity := by
    rw [identity_afterAll]
    exact (congrArg Registry.identity
      (Registry.execute_checkPeers hlinking.overlay hlinking.running occasion').1).trans rfl
  exact ⟨hchecking.readBack (hidentity'.symm ▸ hreadable), hchecking.exists_idle,
    hchecking.check_of_idle⟩

namespace Sample

open OverlayCensus.Sample (peer)

/-- The ends of a triangle, in an order that is not that of its peers. -/
def corners : List EdgeEnd :=
  [⟨0, peer 2, 0⟩, ⟨1, peer 3, 0⟩, ⟨2, peer 1, 0⟩]

/-- Three peers that are linked to each other. -/
def triangle : Overlay :=
  (((Overlay.bare ⟨1, 2⟩ corners).link 0 1 1).link 0 2 1).link 1 2 1

theorem distinct_triangle : triangle.Distinct := by
  have hfirst : ((Overlay.bare ⟨1, 2⟩ corners).link 0 1 1).Simple :=
    (Overlay.simple_bare ⟨1, 2⟩ corners).link (by decide) (by decide) (by decide)
      (Overlay.not_adj_bare _ _ _ _) 1
  have hnew : 2 ∉ ((Overlay.bare ⟨1, 2⟩ corners).link 0 1 1).targetsAt 0 := by decide
  have hsecond := hfirst.link (by decide) (by decide) (by decide) hnew 1
  have hnew' : 2 ∉ (((Overlay.bare ⟨1, 2⟩ corners).link 0 1 1).link 0 2 1).targetsAt 1 := by decide
  exact ⟨hsecond.link (by decide) (by decide) (by decide) hnew' 1, by decide, by decide +kernel⟩

/-- A peer that is new. -/
def station (p : PeerAddress) : Station where
  peer := ⟨.new p (.ofCounts 0 []) {} (.ofWords fun _ => 0), .empty, peer 9, .empty⟩
  connections := .start p

/-- A registry that holds the triangle, and new peers. -/
def start : Cluster where
  registry := { Registry.start (peer 9) with overlay := some triangle }
  connections := .start (peer 9)
  stations := triangle.peers.map station
  flight := []

theorem fresh_start : start.Fresh triangle := by
  have hstations : ∀ s ∈ start.stations, ∃ p ∈ triangle.peers, s = station p := fun s hs => by
    obtain ⟨p, hp, rfl⟩ := List.mem_map.1 hs
    exact ⟨p, hp, rfl⟩
  refine ⟨rfl, rfl, by decide +kernel, Connections.ready_start _, fun p => ?_, by simp [start],
    fun s hs => ?_, fun s hs => ?_, fun s hs => ?_, fun s hs q hq => ?_⟩
  · simp only [station?, start, List.find?_isSome, List.mem_map, exists_exists_and_eq_and,
      decide_eq_true_eq]
    exact exists_eq_right
  · obtain ⟨p, -, rfl⟩ := hstations s hs
    rfl
  · obtain ⟨p, -, rfl⟩ := hstations s hs
    rfl
  · obtain ⟨p, -, rfl⟩ := hstations s hs
    exact Connections.ready_start p
  · obtain ⟨p, -, rfl⟩ := hstations s hs
    cases hq

/-- An occasion without files, at which every draw is zero. -/
def withoutFiles : Occasion where
  now := 0
  draws := .ofWords fun _ => 0
  id := .ofNat 1
  read _ := .error .notFound
  obstacle _ := none

/-- Messages arrive, each from its position among those that are on their way. -/
def deliveriesAt (positions : List ℕ) : List Event :=
  positions.map fun i => .deliver ⟨i, 0, 0⟩

/-- The triangle after the messages have arrived that link its peers, the latest first. -/
def linked : Cluster :=
  (start.execute withoutFiles .connectPeers).afterAll (deliveriesAt [5, 4, 3, 3, 2, 1, 6, 5, 0])

/-- And after a check, in which the last peer is the first to answer. -/
def checked : Cluster :=
  (linked.execute withoutFiles .checkPeers).afterAll (deliveriesAt [18, 18, 17, 17, 16, 16])

/-- The peers of a triangle are linked, and a check finds all three in order. -/
theorem linkedAs_triangle :
    (triangle.Distinct ∧ (∀ p ∈ start.registry.identity :: triangle.peers, p.Readable) ∧
      start.Fresh triangle) ∧
    (linked.Idle linkingTags ∧ linked.LinkedAs triangle) ∧
      checked.Idle checkTags ∧ checked.registry.check = ⟨3, 3, 3⟩ := by
  have hreadable : ∀ p ∈ start.registry.identity :: triangle.peers, p.Readable := by decide +kernel
  have hlinked : linked.Idle linkingTags := by decide +kernel
  have hchecked : checked.Idle checkTags := by decide +kernel
  obtain ⟨-, -, hlinks⟩ := links_of_connectPeers distinct_triangle hreadable fresh_start withoutFiles
    (deliveriesAt [5, 4, 3, 3, 2, 1, 6, 5, 0])
  obtain ⟨hlinkedAs, hcheck⟩ := hlinks hlinked
  obtain ⟨-, -, hcounted⟩ := hcheck withoutFiles (deliveriesAt [18, 18, 17, 17, 16, 16])
  exact ⟨⟨distinct_triangle, hreadable, fresh_start⟩, ⟨hlinked, hlinkedAs⟩, hchecked,
    hcounted hchecked⟩

end Sample

end Cluster

end OverlayCensus
