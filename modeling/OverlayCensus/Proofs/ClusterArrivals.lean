/-
  OverlayCensus — what an arrival adds to the messages in flight.

  Whoever is told whom to dial introduces itself, but nobody answers an introduction with another
  one, and only a request is answered by a report.  So the messages that link peers become fewer,
  and all of them can arrive.

  * `countTag`: how many messages of a kind are in flight, and `countTag_sent`: what a peer adds;
  * `flight_deliver`, `mem_flight_after`: what is in flight after an event;
  * `countTag_deliver`, `countTag_introduction_lt`: of which kinds there are fewer;
  * `exists_idle_linking`: all messages can arrive by which peers are linked.
-/
import Mathlib
import OverlayCensus.Proofs.ClusterLinking

namespace OverlayCensus

open Connections (introductionTo)

/-! ## Counting messages -/

namespace Message

variable {m : Message}

theorem tag_eq_introduction_iff : m.tag = .introduction ↔ ∃ q, m = .introduction q := by
  cases m with
  | query kind q => cases kind <;> simp [tag, QueryKind.tag]
  | _ => simp [tag]

theorem tag_eq_initiateConnections_iff :
    m.tag = .initiateConnections ↔
      ∃ assigned devices, m = .initiateConnections assigned devices := by
  cases m with
  | query kind q => cases kind <;> simp [tag, QueryKind.tag]
  | _ => simp [tag]

theorem tag_eq_listPeersRequest_iff : m.tag = .listPeersRequest ↔ m = .listPeersRequest := by
  cases m with
  | query kind q => cases kind <;> simp [tag, QueryKind.tag]
  | _ => simp [tag]

theorem tag_eq_listPeersResponse_iff :
    m.tag = .listPeersResponse ↔ ∃ p reported, m = .listPeersResponse p reported := by
  cases m with
  | query kind q => cases kind <;> simp [tag, QueryKind.tag]
  | _ => simp [tag]

end Message

/-- The number of messages of a kind. -/
def countTag (tag : MessageTag) (ms : List Envelope) : ℕ :=
  ms.countP fun m => m.message.tag = tag

section
variable {tag : MessageTag} {ms ms' : List Envelope}

@[simp] theorem countTag_nil (tag : MessageTag) : countTag tag [] = 0 := rfl

@[simp] theorem countTag_append (tag : MessageTag) (ms ms' : List Envelope) :
    countTag tag (ms ++ ms') = countTag tag ms + countTag tag ms' :=
  List.countP_append

theorem countTag_cons (tag : MessageTag) (m : Envelope) (ms : List Envelope) :
    countTag tag (m :: ms) = countTag tag ms + if m.message.tag = tag then 1 else 0 := by
  simp [countTag, List.countP_cons]

theorem countTag_perm (h : ms.Perm ms') : countTag tag ms = countTag tag ms' :=
  h.countP_eq _

theorem countTag_eq_zero_iff : countTag tag ms = 0 ↔ ∀ m ∈ ms, m.message.tag ≠ tag := by
  simp [countTag, List.countP_eq_zero]

theorem countTag_introductions (htag : tag ≠ .introduction) (own : PeerAddress)
    (fresh : List PeerAddress) : countTag tag (fresh.map (introductionTo own)) = 0 := by
  refine countTag_eq_zero_iff.2 fun m hm => ?_
  obtain ⟨p, -, rfl⟩ := List.mem_map.1 hm
  exact htag.symm

/-- **What a peer adds to the messages of a kind**: a report, if it was asked for one. -/
theorem Station.Acts.countTag_sent {s : Station} {m : Option Message} {r : Station × List Envelope}
    (h : s.Acts m r) (htag : tag ∉ MessageTag.introduction :: MessageTag.carried) :
    countTag tag r.2 = countTag tag (s.peer.report m) := by
  obtain ⟨fresh, carried, hperm, -, htags⟩ := h.sent
  have hcarried : countTag tag carried = 0 := countTag_eq_zero_iff.2 fun m hm heq =>
    htag (List.mem_cons_of_mem _ (heq ▸ htags m hm))
  rw [countTag_perm hperm, countTag_append, countTag_append, hcarried,
    countTag_introductions (List.ne_of_not_mem_cons htag)]
  omega

end

namespace Cluster

variable {net net' : Cluster} {o : Overlay} {p q : PeerAddress} {s : Station}

/-! ## What an arrival adds -/

/-- What is in flight after an arrival: what a peer sends because of it, or nothing more. -/
theorem Linking.flight_deliver (h : net.Linking o) {d : Delivery} {m : Envelope}
    (hm : net.flight[d.index]? = some m) :
    ∃ sent, (net.after (.deliver d)).flight = (net.without d.index).flight ++ sent ∧
      (m.receiver ∉ o.peers ∧ sent = [] ∨ ∃ s r, sent = r.2 ∧
        net.Acting o m.receiver s (some m.message) (net.without d.index).flight r) := by
  have hstep := step_after net (.deliver d)
  generalize net.after (.deliver d) = net' at hstep
  cases hstep with
  | idle hnone =>
    rw [hm] at hnone
    cases hnone
  | lost hm' hlost =>
    cases hm.symm.trans hm'
    exact ⟨[], (List.append_nil _).symm, Or.inl ⟨h.receiver_of_lost hlost, rfl⟩⟩
  | noted hm' hreg =>
    cases hm.symm.trans hm'
    exact ⟨[], (List.append_nil _).symm, Or.inl ⟨hreg ▸ h.apart, rfl⟩⟩
  | handled hm' hs =>
    cases hm.symm.trans hm'
    exact ⟨_, rfl, Or.inr ⟨_, _, rfl, h.acting_receive hm hs d.pick⟩⟩

/-- What a peer sends is an introduction, a query or gossip, or the report for which a request
    asks. -/
theorem Acting.tag_sent {m : Option Message} {rest : List Envelope} {r : Station × List Envelope}
    (h : net.Acting o p s m rest r) {e : Envelope} (he : e ∈ r.2) :
    e.message.tag ∈ MessageTag.introduction :: MessageTag.carried ∨
      ∃ p s, net.station? p = some s ∧ ⟨p, .listPeersRequest⟩ ∈ net.flight ∧
        e = ⟨net.registry.identity, .listPeersResponse p s.peer.neighbors⟩ := by
  obtain ⟨receiver, sent⟩ := e
  rcases h.acts.sent_cases he with ⟨hintroduction, -⟩ | ⟨rfl, hreceiver, hreport⟩ | htag
  · exact Or.inl (by simp [show sent = _ from hintroduction, Message.tag])
  · refine Or.inr ⟨p, s, h.station, h.flight.mem_iff.2 (by simp), ?_⟩
    rw [Envelope.mk.injEq]
    exact ⟨hreceiver.trans h.registry, h.identity ▸ hreport⟩
  · exact Or.inl (List.mem_cons_of_mem _ htag)

/-- **What is in flight after an event** was in flight before, or is an introduction, a query or
    gossip, or the report for which a request asks. -/
theorem Linking.mem_flight_after (h : net.Linking o) {e : Event} {m : Envelope}
    (hm : m ∈ (net.after e).flight) :
    m ∈ net.flight ∨ m.message.tag ∈ MessageTag.introduction :: MessageTag.carried ∨
      ∃ p s, net.station? p = some s ∧ ⟨p, .listPeersRequest⟩ ∈ net.flight ∧
        m = ⟨net.registry.identity, .listPeersResponse p s.peer.neighbors⟩ := by
  have hstep := step_after net e
  generalize net.after e = net' at hstep hm
  cases hstep with
  | idle | silent => exact Or.inl hm
  | lost | noted => exact Or.inl (mem_of_without hm)
  | @handled d _ _ hm' hs =>
    exact (List.mem_append.1 hm).imp mem_of_without (h.acting_receive hm' hs d.pick).tag_sent
  | gossiped hs => exact (List.mem_append.1 hm).imp_right (h.acting_gossip hs).tag_sent

/-- An arrival takes its message away and adds a report, if it asks a peer for one. -/
theorem Linking.countTag_deliver (h : net.Linking o) {d : Delivery} {m : Envelope}
    (hm : net.flight[d.index]? = some m) (tag : MessageTag)
    (htag : tag ∉ MessageTag.introduction :: MessageTag.carried) :
    countTag tag (net.after (.deliver d)).flight + (if m.message.tag = tag then 1 else 0) =
      countTag tag net.flight +
        if tag = .listPeersResponse ∧ m.message = .listPeersRequest ∧ m.receiver ∈ o.peers then 1
        else 0 := by
  obtain ⟨sent, hflight, hsent⟩ := h.flight_deliver hm
  rw [hflight, countTag_append, countTag_perm (perm_flight hm), countTag_cons]
  have hreport : countTag tag sent =
      if tag = .listPeersResponse ∧ m.message = .listPeersRequest ∧ m.receiver ∈ o.peers then 1
      else 0 := by
    rcases hsent with ⟨hgone, rfl⟩ | ⟨s, r, rfl, hacting⟩
    · simp [hgone]
    · rw [hacting.acts.countTag_sent htag]
      simp only [hacting.mem_peers, and_true]
      cases m.message with
      | listPeersRequest => simp [Peer.report, countTag_cons, Message.tag, eq_comm]
      | _ => simp [Peer.report]
  omega

/-- A round of gossip adds queries and gossip, and introductions. -/
theorem Linking.countTag_gossip (h : net.Linking o) (p : PeerAddress) {tag : MessageTag}
    (htag : tag ∉ MessageTag.introduction :: MessageTag.carried) :
    countTag tag (net.after (.gossip p)).flight = countTag tag net.flight := by
  have hstep := step_after net (.gossip p)
  generalize net.after (.gossip p) = net' at hstep
  cases hstep with
  | silent => rfl
  | gossiped hs =>
    have hacting := h.acting_gossip hs
    simp [update, hacting.acts.countTag_sent htag, Peer.report]

/-- Nobody answers an introduction with another one. -/
theorem Linking.countTag_introduction_lt (h : net.Linking o) {d : Delivery} {m : Envelope}
    (hm : net.flight[d.index]? = some m) (htag : m.message.tag = .introduction) :
    countTag .introduction (net.after (.deliver d)).flight < countTag .introduction net.flight := by
  obtain ⟨sent, hflight, hsent⟩ := h.flight_deliver hm
  rw [hflight, countTag_append, countTag_perm (perm_flight hm), countTag_cons, if_pos htag]
  have hnone : countTag .introduction sent = 0 := by
    rcases hsent with ⟨-, rfl⟩ | ⟨s, r, rfl, hacting⟩
    · rfl
    · refine countTag_eq_zero_iff.2 fun e he hintroduction => ?_
      obtain ⟨q, hq⟩ := Message.tag_eq_introduction_iff.1 htag
      rw [hq] at hacting
      rcases hacting.acts.sent_cases he with
        ⟨-, -, hnew, hother, hreceiver⟩ | ⟨hrequest, -⟩ | hcarried
      · rcases hreceiver with hneighbor | ⟨-, hrequest⟩
        · -- a peer is connected to its neighbours, and now to the one that has come
          rcases (hacting.acts.neighbors _).1 hneighbor with hold | hgained
          · exact hnew ((h.stations _ s hacting.station).reached _ hold)
          · rw [Peer.gained] at hgained
            split_ifs at hgained
            · cases hgained
            · exact hother (by rw [List.mem_singleton.1 hgained])
        · cases hrequest
      · cases hrequest
      · rw [hintroduction] at hcarried
        simp [MessageTag.carried] at hcarried
  omega

/-! ## All messages can arrive -/

/-- If messages of a kind become fewer whenever one of them arrives, all of them can arrive. -/
theorem exists_idle_of_lt {P : Cluster → Prop} (tag : MessageTag)
    (hstep : ∀ net e, P net → P (net.after e))
    (hlt : ∀ net d m, P net → net.flight[d.index]? = some m → m.message.tag = tag →
      countTag tag (net.after (.deliver d)).flight < countTag tag net.flight)
    (h : P net) : ∃ es, P (net.afterAll es) ∧ (net.afterAll es).Idle [tag] := by
  induction hn : countTag tag net.flight using Nat.strong_induction_on generalizing net with
  | _ n ih =>
    subst hn
    by_cases hidle : net.Idle [tag]
    · exact ⟨[], h, hidle⟩
    · rw [Idle] at hidle
      push Not at hidle
      obtain ⟨m, hm, htag⟩ := hidle
      obtain ⟨i, hi⟩ := List.mem_iff_getElem?.1 hm
      have hless := hlt net ⟨i, 0, 0⟩ m h hi (List.mem_singleton.1 htag)
      obtain ⟨es, hes⟩ := ih _ hless (hstep net (.deliver ⟨i, 0, 0⟩) h) rfl
      exact ⟨.deliver ⟨i, 0, 0⟩ :: es, hes⟩

/-- A message that is not brought about by any other does not come back. -/
theorem Linking.idle_after (h : net.Linking o) {tag : MessageTag}
    (htag : tag ∉ [MessageTag.introduction, .listPeersResponse] ++ MessageTag.carried)
    (hidle : net.Idle [tag]) (e : Event) : (net.after e).Idle [tag] := by
  intro m hm hmem
  obtain rfl := List.mem_singleton.1 hmem
  rcases h.mem_flight_after hm with hold | hnew | ⟨p, s, -, -, rfl⟩
  · exact hidle m hold hmem
  · exact htag (by simp only [List.cons_append, List.mem_cons] at hnew ⊢; tauto)
  · exact htag (by simp [Message.tag])

/-- **All messages can arrive that connecting brings about.** -/
theorem Linking.exists_idle_linking (h : net.Linking o) :
    ∃ es, (net.afterAll es).Idle linkingTags := by
  have hassigning : MessageTag.initiateConnections ∉
      [MessageTag.introduction, .listPeersResponse] ++ MessageTag.carried := by decide
  -- first everyone is told whom to dial, then the introductions arrive
  obtain ⟨es, hlinking, htold⟩ := exists_idle_of_lt (P := fun net => net.Linking o)
    .initiateConnections (fun net e h => (h.after e).1)
    (fun net d m h hm htag => by
      have hcount := h.countTag_deliver hm .initiateConnections (by decide)
      rw [if_pos htag, if_neg (by simp)] at hcount
      omega) h
  obtain ⟨es', ⟨-, htold⟩, hcome⟩ := exists_idle_of_lt
    (P := fun net => net.Linking o ∧ net.Idle [.initiateConnections]) .introduction
    (fun net e h => ⟨(h.1.after e).1, h.1.idle_after hassigning h.2 e⟩)
    (fun net d m h hm htag => h.1.countTag_introduction_lt hm htag) ⟨hlinking, htold⟩
  refine ⟨es ++ es', fun m hm => ?_⟩
  rw [Cluster.afterAll, List.foldl_append] at hm
  simpa [linkingTags] using ⟨by simpa using hcome m hm, by simpa using htold m hm⟩

end Cluster

end OverlayCensus
