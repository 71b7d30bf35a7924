/-
  OverlayCensus — a random walk is one token.

  A peer that handles a walk sends on one message: to a neighbour as long as the walk may
  go on and there is a neighbour, and to the originator otherwise.  So there is one copy of
  a walk, in flight or with the registry, and it tells how often it has been delivered to a
  peer and what the peers that have handled it hold.

  * `Engine.sent_onRandomWalk`: the one message that a peer sends;
  * `Token`: one copy is left, and where it is; `token_start`: it is so at the start, and
    `Token.append_aside`, `Token.append_handled`: every delivery keeps it;
  * `walk_is_token`: so it is in every state of a run, and the registry receives the copy
    in the end.
-/
import Mathlib
import OverlayCensus.Proofs.FloodSending
import OverlayCensus.Proofs.HopOrder
import OverlayCensus.Proofs.Topology

namespace OverlayCensus

/-! ## One message -/

/-- **A peer that handles a walk sends on one message**, to a neighbour if the walk may go
    on and there is one. -/
theorem Engine.sent_onRandomWalk (e : Engine) (neighbors : List PeerAddress) (pick : Nat)
    (q : Query) :
    ∃ p, (e.onRandomWalk neighbors pick q).2 = [p] ∧
      if q.mayForward = true ∧ neighbors ≠ [] then p.receiver ∈ neighbors
      else p.receiver = q.originator := by
  have hback : (e.next q).originator = q.originator := (e.next_isHopOf q).2.1
  rw [onRandomWalk_sent]
  cases q.mayForward with
  | false =>
    refine ⟨reply .randomWalk (e.next q), rfl, ?_⟩
    rw [if_neg fun h => Bool.false_ne_true h.1]
    exact hback
  | true =>
    simp only [true_and]
    cases hchoose : choose (candidates neighbors q.sender) pick with
    | some p =>
      have hmem := (mem_candidates.1 (mem_of_choose hchoose)).1
      exact ⟨_, rfl, by rw [if_pos (List.ne_nil_of_mem hmem)]; exact hmem⟩
    | none =>
      by_cases hsender : q.sender ∈ neighbors
      · refine ⟨⟨.direct, q.sender, .query .randomWalk (e.next q)⟩, by simp [hsender], ?_⟩
        rw [if_pos (List.ne_nil_of_mem hsender)]
        exact hsender
      · -- a neighbour that is not the sender would have been chosen
        have hnil : neighbors = [] := by
          rw [List.eq_nil_iff_forall_not_mem]
          intro p hp
          have hcandidate : p ∈ candidates neighbors q.sender :=
            mem_candidates.2 ⟨hp, fun he => hsender (he ▸ hp)⟩
          rw [choose_eq_none_iff.1 hchoose] at hcandidate
          cases hcandidate
        refine ⟨reply .randomWalk (e.next q), by simp [hsender], ?_⟩
        rw [if_neg (by simp [hnil])]
        exact hback

/-- This message has come a hop farther and carries what the peer holds as well. -/
theorem Engine.exists_sent_onRandomWalk (e : Engine) (neighbors : List PeerAddress) (pick : Nat)
    {q : Query} (hfits : e.IsNew q → e.Fits q) :
    ∃ p q', (e.onRandomWalk neighbors pick q).2 = [p] ∧ p.envelope.copyOf? q.id = some q' ∧
      q'.hop = Int32.satAdd q.hop 1 ∧ q'.totals = q.totals + e.gain q ∧
      if q.mayForward = true ∧ neighbors ≠ [] then p.receiver ∈ neighbors
      else p.receiver = q.originator := by
  have hh : e.Handled .randomWalk q (e.onRandomWalk neighbors pick q) := handled_onRandomWalk
  obtain ⟨p, hp, hreceiver⟩ := e.sent_onRandomWalk neighbors pick q
  obtain ⟨q', hq', hhop, hnext⟩ := hop_of_handled hh (hp ▸ List.mem_singleton_self p)
  have hcopy : p.envelope.copyOf? q.id = some q' :=
    Envelope.copyOf?_eq_some_iff.2 ⟨⟨.randomWalk, hq'⟩, hhop.1⟩
  have htotals := hh.carried_eq (by decide) hfits
  rw [hp, List.map_singleton, carried_cons_of_some hcopy, carried_nil, add_zero] at htotals
  exact ⟨p, q', hp, hcopy, hnext, htotals, hreceiver⟩

namespace Network

/-! ## The one copy -/

/-- The copies of a query that a run has delivered to peers. -/
def stops (net : Network) (x : Uuid) (ds : List Delivery) : List Query :=
  copies x ((net.delivered ds).filter fun m => net.IsPeer m.receiver)

/-- A copy of a walk after `k` deliveries to peers: it has come as many hops and carries
    what the peers reached hold. -/
structure Carries (net : Network) (q : Query) (k : ℕ) (reached : Finset PeerAddress)
    (q' : Query) : Prop where
  hop : q'.hop.toInt = k
  totals : q'.totals = ∑ p ∈ reached, net.share q.metric p

/-- A walk may be at its end: it has been delivered to peers as often as its limit says, and
    at least once, or else less often and to one without neighbours. -/
structure Ends (net : Network) (q : Query) (k : ℕ) (reached : Finset PeerAddress) : Prop where
  pos : 1 ≤ k
  le : (k : ℤ) ≤ max 1 q.limit.toInt
  full : (∀ p ∈ reached, net.neighborsOf p ≠ []) → (k : ℤ) = max 1 q.limit.toInt

/-- One copy of a walk is left after `k` deliveries to peers.  It is in flight to a peer
    before the end of the walk, and to the registry or there at the end. -/
structure Token (net : Network) (q : Query) (k : ℕ) (reached : Finset PeerAddress)
    (flight received : List Envelope) : Prop where
  one : (copies q.id flight).length + (copies q.id received).length = 1
  carries : ∀ q' ∈ copies q.id flight ++ copies q.id received, net.Carries q k reached q'
  goes : ∀ m ∈ flight, (m.copyOf? q.id).isSome →
    net.IsPeer m.receiver ∧ (k : ℤ) < max 1 q.limit.toInt ∨
      m.receiver = net.registry ∧ net.Ends q k reached
  back : copies q.id received ≠ [] → net.Ends q k reached

namespace Token
variable {net : Network} {q : Query} {k : ℕ} {reached : Finset PeerAddress}
  {flight rest sent received : List Envelope} {m : Envelope}

theorem perm (h : net.Token q k reached flight received) (hp : flight.Perm rest) :
    net.Token q k reached rest received where
  one := (copies_perm (x := q.id) hp).length_eq ▸ h.one
  carries q' hq' := h.carries q' (((copies_perm hp).append_right _).mem_iff.2 hq')
  goes m hm := h.goes m (hp.mem_iff.2 hm)
  back := h.back

/-- The copy is no longer than to its end on its way. -/
theorem le_limit (h : net.Token q k reached flight received) : (k : ℤ) ≤ max 1 q.limit.toInt := by
  by_cases hback : copies q.id received = []
  · have hone := h.one
    rw [hback, List.length_nil, add_zero] at hone
    obtain ⟨q', hq'⟩ := List.length_eq_one_iff.1 hone
    have hmem : q' ∈ copies q.id flight := by rw [hq']; exact List.mem_singleton_self q'
    obtain ⟨m, hm, hc⟩ := mem_copies.1 hmem
    rcases h.goes m hm (by rw [hc]; rfl) with ⟨-, hlt⟩ | ⟨-, hends⟩
    · exact hlt.le
    · exact hends.le
  · exact (h.back hback).le

/-- A message that is no copy changes nothing. -/
theorem aside (h : net.Token q k reached (m :: rest) received) (hm : m.copyOf? q.id = none)
    (hsent : copies q.id sent = []) {seen : List Envelope} (hseen : copies q.id seen = []) :
    net.Token q k reached (rest ++ sent) (received ++ seen) := by
  have hflight : copies q.id (rest ++ sent) = copies q.id (m :: rest) := by
    rw [copies_append, hsent, List.append_nil, copies_cons_of_none hm]
  have hreceived : copies q.id (received ++ seen) = copies q.id received := by
    rw [copies_append, hseen, List.append_nil]
  refine ⟨by rw [hflight, hreceived]; exact h.one, by rw [hflight, hreceived]; exact h.carries,
    fun m' hm' hc => ?_, by rw [hreceived]; exact h.back⟩
  rcases List.mem_append.1 hm' with hm' | hm'
  · exact h.goes m' (List.mem_cons_of_mem m hm') hc
  · rw [copies_eq_nil_iff.1 hsent m' hm'] at hc
    cases hc

/-- If the next message is the copy, there is no other. -/
theorem alone (h : net.Token q k reached (m :: rest) received) {q' : Query}
    (hq' : m.copyOf? q.id = some q') : copies q.id rest = [] ∧ copies q.id received = [] := by
  have hone := h.one
  rw [copies_cons_of_some hq', List.length_cons] at hone
  exact ⟨List.length_eq_zero_iff.1 (by omega), List.length_eq_zero_iff.1 (by omega)⟩

/-- The registry receives the copy at the end of the walk. -/
theorem arrive (h : net.Token q k reached (m :: rest) received) {q' : Query}
    (hq' : m.copyOf? q.id = some q') (hpeer : ¬ net.IsPeer m.receiver)
    (hsent : copies q.id sent = []) :
    m.receiver = net.registry ∧ net.Token q k reached (rest ++ sent) (received ++ [m]) := by
  obtain ⟨hreg, hends⟩ := (h.goes m List.mem_cons_self (by rw [hq']; rfl)).resolve_left
    fun hp => hpeer hp.1
  obtain ⟨hrest, hreceived⟩ := h.alone hq'
  have hflight : copies q.id (rest ++ sent) = [] := by rw [copies_append, hrest, hsent]; rfl
  have hback : copies q.id (received ++ [m]) = [q'] := by
    rw [copies_append, hreceived, copies_cons_of_some hq']
    rfl
  refine ⟨hreg, by rw [hflight, hback]; rfl, fun q'' hq'' => ?_, fun m' hm' hc => ?_, fun _ => hends⟩
  · rw [hflight, hback, List.nil_append, List.mem_singleton] at hq''
    subst hq''
    refine h.carries q'' ?_
    rw [copies_cons_of_some hq']
    exact List.mem_cons_self
  · rw [copies_eq_nil_iff.1 hflight m' hm'] at hc
    cases hc

/-- **A peer that handles the copy sends it on**, to a neighbour before the end of the walk
    and else to the registry. -/
theorem handled (h : net.Token q k reached (m :: rest) received) {q' q'' : Query} {m' : Envelope}
    (hq' : m.copyOf? q.id = some q') (hpeer : net.IsPeer m.receiver) (hlimit : q'.limit = q.limit)
    (hneighbors : ∀ p ∈ net.neighborsOf m.receiver, net.IsPeer p)
    (hq'' : m'.copyOf? q.id = some q'') (hhop : q''.hop = Int32.satAdd q'.hop 1)
    (htotals : q''.totals = ∑ p ∈ insert m.receiver reached, net.share q.metric p)
    (hreceiver : if q'.mayForward = true ∧ net.neighborsOf m.receiver ≠ [] then
        m'.receiver ∈ net.neighborsOf m.receiver else m'.receiver = net.registry) :
    net.Token q (k + 1) (insert m.receiver reached) (rest ++ [m']) received := by
  obtain ⟨hrest, hreceived⟩ := h.alone hq'
  have hflight : copies q.id (rest ++ [m']) = [q''] := by
    rw [copies_append, hrest, copies_cons_of_some hq'']
    rfl
  have hcame : q'.hop.toInt = k := by
    refine (h.carries q' ?_).hop
    rw [copies_cons_of_some hq']
    exact List.mem_cons_self
  have hlt : (k : ℤ) < max 1 q.limit.toInt := by
    rcases h.goes m List.mem_cons_self (by rw [hq']; rfl) with ⟨-, hlt⟩ | ⟨hreg, -⟩
    · exact hlt
    · exact absurd hreg hpeer.1
  have hpos : 0 ≤ q'.hop.toInt := by omega
  have hbelow : q'.hop.toInt < max 1 q'.limit.toInt := by rw [hlimit, hcame]; exact hlt
  have hnext := Query.toInt_next_of_lt hpos hbelow
  refine ⟨by rw [hflight, hreceived]; rfl, fun q₀ hq₀ => ?_, fun m₀ hm₀ hc => ?_,
    fun hne => absurd hreceived hne⟩
  · rw [hflight, hreceived, List.append_nil, List.mem_singleton] at hq₀
    subst hq₀
    exact ⟨by rw [hhop, hnext]; push_cast; omega, htotals⟩
  · rcases List.mem_append.1 hm₀ with hm₀ | hm₀
    · rw [copies_eq_nil_iff.1 hrest m₀ hm₀] at hc
      cases hc
    · rw [List.mem_singleton] at hm₀
      subst hm₀
      by_cases hon : q'.mayForward = true ∧ net.neighborsOf m.receiver ≠ []
      · rw [if_pos hon] at hreceiver
        obtain ⟨-, hless⟩ := Query.toInt_next_of_mayForward hon.1
        exact Or.inl ⟨hneighbors _ hreceiver, by rw [hlimit] at hless; push_cast; omega⟩
      · rw [if_neg hon] at hreceiver
        refine Or.inr ⟨hreceiver, by omega, by push_cast; omega, fun hall => ?_⟩
        have hend := Query.next_eq_of_not_mayForward hpos hbelow
          fun hforward => hon ⟨hforward, hall _ (Finset.mem_insert_self _ _)⟩
        rw [hlimit, hcame] at hend
        exact_mod_cast hend

end Token

/-! ## Whole runs -/

section
variable {net : Network} {x : Uuid} {ds : List Delivery} {d : Delivery} {m : Envelope}
  (hm : (net.afterAll ds).flight[d.index]? = some m)
include hm

theorem length_stops_append_of_copy {q : Query} (hq : m.copyOf? x = some q)
    (hp : net.IsPeer m.receiver) :
    (net.stops x (ds ++ [d])).length = (net.stops x ds).length + 1 := by
  rw [stops, delivered_append hm, List.filter_append, copies_append, List.length_append,
    List.filter_cons_of_pos (by simpa using hp), copies_cons_of_some hq]
  rfl

theorem stops_append_of_ne (h : m.copyOf? x = none ∨ ¬ net.IsPeer m.receiver) :
    net.stops x (ds ++ [d]) = net.stops x ds := by
  rw [stops, delivered_append hm, List.filter_append, copies_append]
  by_cases hp : net.IsPeer m.receiver
  · rw [List.filter_cons_of_pos (by simpa using hp),
      copies_cons_of_none (h.resolve_right (not_not.2 hp))]
    exact List.append_nil _
  · rw [List.filter_cons_of_neg (by simpa using hp)]
    exact List.append_nil _

end

section
variable {net : Network} {q : Query} {ds : List Delivery} {d : Delivery} {m : Envelope}
  {rest : List Envelope}
  (h : net.Token q (net.stops q.id ds).length (net.handlers q.id ds) (m :: rest) (net.received ds))
  (hm : (net.afterAll ds).flight[d.index]? = some m)
include h hm

/-- What no peer handles as a copy leaves the token alone, or brings it to the registry. -/
theorem Token.append_aside {sent : List Envelope}
    (hkept : m.copyOf? q.id = none ∨ ¬ net.IsPeer m.receiver) (hsent : copies q.id sent = []) :
    net.Token q (net.stops q.id (ds ++ [d])).length (net.handlers q.id (ds ++ [d]))
      (rest ++ sent) (net.received (ds ++ [d])) := by
  rw [stops_append_of_ne hm hkept, handlers_append_of_ne hm hkept, received_append hm]
  cases hc : m.copyOf? q.id with
  | none =>
    refine h.aside hc hsent (copies_eq_nil_iff.2 fun m' hm' => ?_)
    rw [List.mem_singleton.1 (List.mem_of_mem_filter hm')]
    exact hc
  | some q' =>
    obtain ⟨hreg, htoken⟩ := h.arrive hc (hkept.resolve_left (by simp [hc])) hsent
    rw [List.filter_cons_of_pos (by simpa using hreg)]
    exact htoken

/-- A peer that handles the copy sends it on with its own share. -/
theorem Token.append_handled {n : Node} {q' : Query} (hq' : m.copyOf? q.id = some q')
    (hpeer : net.IsPeer m.receiver) (hlimit : q'.limit = q.limit)
    (horiginator : q'.originator = net.registry)
    (hown : n.neighbors = net.neighborsOf m.receiver) (hneighbors : ∀ p ∈ n.neighbors, net.IsPeer p)
    (hfits : n.engine.IsNew q' → n.engine.Fits q')
    (hsum : ∑ p ∈ net.handlers q.id (ds ++ [d]), net.share q.metric p =
      ∑ p ∈ net.handlers q.id ds, net.share q.metric p + n.engine.gain q') :
    net.Token q (net.stops q.id (ds ++ [d])).length (net.handlers q.id (ds ++ [d]))
      (rest ++ (n.engine.onRandomWalk n.neighbors d.pick q').2.map Parcel.envelope)
      (net.received (ds ++ [d])) := by
  obtain ⟨p, q'', hone, hcopy, hhop, htotals, hreceiver⟩ :=
    n.engine.exists_sent_onRandomWalk n.neighbors d.pick hfits
  have hid : q'.id = q.id := (Envelope.copyOf?_eq_some_iff.1 hq').2
  have hcame : q' ∈ copies q.id (m :: rest) ++ copies q.id (net.received ds) := by
    rw [copies_cons_of_some hq']
    exact List.mem_cons_self
  have htotals : q''.totals = ∑ p ∈ net.handlers q.id (ds ++ [d]), net.share q.metric p := by
    rw [htotals, (h.carries q' hcame).totals, hsum]
  rw [hid] at hcopy
  rw [handlers_append_of_copy hm hq' hpeer] at htotals ⊢
  rw [length_stops_append_of_copy hm hq' hpeer, received_append hm, hone, List.map_singleton,
    List.filter_cons_of_neg (by simpa using hpeer.1), List.filter_nil, List.append_nil]
  rw [hown] at hneighbors hreceiver
  rw [horiginator] at hreceiver
  exact h.handled hq' hpeer hlimit hneighbors hcopy hhop htotals hreceiver

end

section
variable {net : Network} {entry : PeerAddress} {q : Query} {now : Nat} {ds : List Delivery}

/-- A walk that has just been injected is on its way to the entry. -/
theorem token_start (hregistry : net.registry ∉ net.peers) (hentry : entry ∈ net.peers)
    (hfresh : net.Fresh q.id) (hhop : q.hop = 0) (hzero : q.totals = 0) :
    (net.start entry .randomWalk q now).Token q 0 ∅
      (net.start entry .randomWalk q now).flight [] := by
  have hcopies : copies q.id (net.start entry .randomWalk q now).flight = [q] :=
    copies_start hfresh
  refine ⟨by rw [hcopies]; rfl, fun q' hq' => ?_, fun m hm hc => ?_, fun hne => absurd rfl hne⟩
  · rw [hcopies, copies_nil, List.append_nil, List.mem_singleton] at hq'
    rw [hq']
    exact ⟨by rw [hhop]; rfl, hzero⟩
  · rcases List.mem_append.1 hm with hm | hm
    · exact absurd (Envelope.isSome_copyOf?_iff.1 hc) (hfresh.flight m hm)
    · rw [List.mem_singleton.1 hm]
      have hpeer : (net.start entry .randomWalk q now).IsPeer entry :=
        isPeer_of_mem_peers hregistry hentry
      exact Or.inl ⟨hpeer, by push_cast; omega⟩

/-- **In every state of a run, one copy of a walk is left.** -/
theorem token_afterAll (hneighbors : ∀ n ∈ net.nodes, ∀ p ∈ n.neighbors, p ∈ net.peers)
    (hregistry : net.registry ∉ net.peers) (hentry : entry ∈ net.peers)
    (hfresh : net.Fresh q.id) (hhop : q.hop = 0) (hzero : q.totals = 0)
    (horiginator : q.originator = net.registry)
    (hlogs : (net.start entry .randomWalk q now).LogsSuffice ds)
    (hfit : (net.start entry .randomWalk q now).TotalsFit q.id ds) :
    (net.start entry .randomWalk q now).Token q
      ((net.start entry .randomWalk q now).stops q.id ds).length
      ((net.start entry .randomWalk q now).handlers q.id ds)
      ((net.start entry .randomWalk q now).afterAll ds).flight
      ((net.start entry .randomWalk q now).received ds) := by
  induction ds using List.reverseRecOn with
  | nil => exact token_start hregistry hentry hfresh hhop hzero
  | append_singleton ds d ih =>
    have ih := ih hlogs.of_append_singleton (along_append_singleton.1 hfit).1
    have hnext := (along_append_singleton.1 hfit).2
    have hlater := later_afterAll (net.start entry .randomWalk q now) ds
    have hafter := afterAll_append_singleton (net.start entry .randomWalk q now) ds d
    cases hm : ((net.start entry .randomWalk q now).afterAll ds).flight[d.index]? with
    | none =>
      rw [afterAll_append_of_none hm, stops, handlers, received, delivered_append_of_none hm]
      exact ih
    | some m =>
      have ih := ih.perm (perm_flight hm)
      cases copyStep (x := q.id) (step_after hm) with
      | aside sent hkept hflight hsent _ =>
        rw [isPeer_congr hlater] at hkept
        rw [hafter, hflight]
        exact ih.append_aside hm hkept hsent
      | @handled n kind q' r hpeer hn hk hid hr hflight _ =>
        have hq' : m.copyOf? q.id = some q' := Envelope.copyOf?_eq_some_iff.2 ⟨⟨kind, hk⟩, hid⟩
        obtain ⟨rfl, hhop'⟩ := (isHop_afterAll (isHop_start hfresh) ds).1 m
          (List.mem_of_getElem? hm) kind q' hk hid
        have hsum := sum_handlers_append hfresh hlogs.of_append_singleton hm hq' hpeer hn
        have hown : n.neighbors = (net.start entry .randomWalk q now).neighborsOf m.receiver := by
          rw [← hlater.neighborsOf, neighborsOf_eq hn]
        have hreached : ∀ p ∈ n.neighbors, (net.start entry .randomWalk q now).IsPeer p := by
          intro p hp
          obtain ⟨n₀, hn₀, hmem⟩ := mem_neighborsOf (hown ▸ hp)
          exact isPeer_of_mem_peers hregistry (hneighbors n₀ (mem_of_node? hn₀) p hmem)
        rw [isPeer_congr hlater] at hpeer
        rw [hafter, hflight, ← hr]
        exact ih.append_handled hm hq' hpeer hhop'.2.2.2 (hhop'.2.1.trans horiginator) hown
          hreached (hnext m hm n hn q' hq') hsum
end

/-! ## The way of the token -/

/-- During a run, a copy of a query that is in flight is delivered sooner or later. -/
def Attended (net : Network) (x : Uuid) (ds : ℕ → Delivery) : Prop :=
  ∀ j, copies x (net.afterAll (firstOf ds j)).flight ≠ [] →
    ∃ k m, j ≤ k ∧ (net.afterAll (firstOf ds k)).flight[(ds k).index]? = some m ∧
      (m.copyOf? x).isSome

theorem attended_of_index_zero {net : Network} {x : Uuid} {ds : ℕ → Delivery}
    (hfifo : ∀ k, (ds k).index = 0) : net.Attended x ds := by
  intro j hne
  obtain ⟨q, hq⟩ := List.exists_mem_of_ne_nil _ hne
  obtain ⟨m, hm, hc⟩ := mem_copies.1 hq
  obtain ⟨k, rest, hjk, hflight⟩ := exists_front hfifo hm
  exact ⟨k, m, hjk, getElem?_front hfifo hflight, by rw [hc]; rfl⟩

theorem length_stops_mono (net : Network) (x : Uuid) (ds : ℕ → Delivery) :
    Monotone fun k => (net.stops x (firstOf ds k)).length := by
  refine monotone_nat_of_le_succ fun k => ?_
  rw [firstOf_succ, stops, stops, delivered_append_singleton, List.filter_append, copies_append,
    List.length_append]
  exact Nat.le_add_right _ _

/-- A token that is delivered again and again comes to the registry: every other delivery is
    one to a peer, and these have a limit. -/
theorem exists_received {net : Network} {q : Query} {ds : ℕ → Delivery}
    (htoken : ∀ k, net.Token q (net.stops q.id (firstOf ds k)).length
      (net.handlers q.id (firstOf ds k)) (net.afterAll (firstOf ds k)).flight
      (net.received (firstOf ds k)))
    (hattended : net.Attended q.id ds) :
    ∃ k, (copies q.id (net.received (firstOf ds k))).length = 1 := by
  by_contra! hnever
  have hnone : ∀ k, copies q.id (net.received (firstOf ds k)) = [] := by
    intro k
    have hone := (htoken k).one
    have hne := hnever k
    exact List.length_eq_zero_iff.1 (by omega)
  have hmore : ∀ c, ∃ k, c ≤ (net.stops q.id (firstOf ds k)).length := by
    intro c
    induction c with
    | zero => exact ⟨0, Nat.zero_le _⟩
    | succ c ih =>
      obtain ⟨j, hj⟩ := ih
      have hone := (htoken j).one
      rw [hnone j, List.length_nil, add_zero] at hone
      obtain ⟨k, m, hjk, hm, hc⟩ := hattended j fun hnil => by simp [hnil] at hone
      have hpeer : net.IsPeer m.receiver := by
        rcases (htoken k).goes m (List.mem_of_getElem? hm) hc with ⟨hp, -⟩ | ⟨hreg, -⟩
        · exact hp
        · have hback := hnone (k + 1)
          rw [firstOf_succ, received_append hm, List.filter_cons_of_pos (by simpa using hreg),
            copies_append, List.append_eq_nil_iff] at hback
          rw [copies_eq_nil_iff.1 hback.2 m List.mem_cons_self] at hc
          cases hc
      obtain ⟨q', hq'⟩ := Option.isSome_iff_exists.1 hc
      have hmono := length_stops_mono net q.id ds hjk
      refine ⟨k + 1, ?_⟩
      rw [firstOf_succ, length_stops_append_of_copy hm hq' hpeer]
      exact Nat.succ_le_succ (hj.trans hmono)
  obtain ⟨k, hk⟩ := hmore ((max 1 q.limit.toInt).toNat + 1)
  have hle := (htoken k).le_limit
  omega

/-- **A random walk is one token.**  In every state of a run, one copy of it is in flight or
    has been received by the registry, and it is received if every copy in flight is
    delivered sooner or later.  It has come as many hops as there have been deliveries to
    peers; these are at least one and no more than the limit, or than one, and no fewer if
    no peer on the way is without neighbours.  Its totals are the shares of the peers on the
    way, each of them counted once. -/
theorem walk_is_token {net : Network} {entry : PeerAddress} {q : Query} {now : ℕ}
    {ds : ℕ → Delivery} (hneighbors : ∀ n ∈ net.nodes, ∀ p ∈ n.neighbors, p ∈ net.peers)
    (hregistry : net.registry ∉ net.peers) (hentry : entry ∈ net.peers)
    (hfresh : net.Fresh q.id) (hhop : q.hop = 0) (hzero : q.totals = 0)
    (horiginator : q.originator = net.registry)
    (hlogs : ∀ k, (net.start entry .randomWalk q now).LogsSuffice (firstOf ds k))
    (hfit : ∀ k, (net.start entry .randomWalk q now).TotalsFit q.id (firstOf ds k)) :
    let home := net.start entry .randomWalk q now
    (∀ k, (copies q.id (home.afterAll (firstOf ds k)).flight).length +
        (copies q.id (home.received (firstOf ds k))).length = 1) ∧
      (home.Attended q.id ds → ∃ k, (copies q.id (home.received (firstOf ds k))).length = 1) ∧
      ∀ k, ∀ q' ∈ copies q.id (home.received (firstOf ds k)),
        let visits : ℤ := (home.stops q.id (firstOf ds k)).length
        q'.hop.toInt = visits ∧ 1 ≤ visits ∧ visits ≤ max 1 q.limit.toInt ∧
          ((∀ p ∈ home.handlers q.id (firstOf ds k), net.neighborsOf p ≠ []) →
            visits = max 1 q.limit.toInt) ∧
          q'.totals = ∑ p ∈ home.handlers q.id (firstOf ds k), net.share q.metric p := by
  intro home
  have htoken := fun k => token_afterAll hneighbors hregistry hentry hfresh hhop hzero horiginator
    (hlogs k) (hfit k)
  refine ⟨fun k => (htoken k).one, exists_received htoken, fun k q' hq' => ?_⟩
  obtain ⟨hcame, htotals⟩ := (htoken k).carries q' (List.mem_append_right _ hq')
  obtain ⟨hpos, hle, hfull⟩ := (htoken k).back (List.ne_nil_of_mem hq')
  exact ⟨hcame, by exact_mod_cast hpos, hle, hfull, htotals⟩

open Sample in
/-- A walk with a limit of four hops, which comes back to its first peer on the way. -/
theorem walk_is_token_kite :
    let home := kite.start (peer 1) .randomWalk (query 4) 0
    let ds : ℕ → Delivery := fun _ => ⟨0, 0, 0⟩
    (∀ n ∈ kite.nodes, ∀ p ∈ n.neighbors, p ∈ kite.peers) ∧ kite.registry ∉ kite.peers ∧
      peer 1 ∈ kite.peers ∧ kite.Fresh (query 4).id ∧ (query 4).hop = 0 ∧
      (query 4).totals = 0 ∧ (query 4).originator = kite.registry ∧
      (∀ k, home.LogsSuffice (firstOf ds k)) ∧
      (∀ k, home.TotalsFit (query 4).id (firstOf ds k)) ∧ home.Attended (query 4).id ds ∧
      (∀ k, (copies (query 4).id (home.afterAll (firstOf ds k)).flight).length +
        (copies (query 4).id (home.received (firstOf ds k))).length = 1) ∧
      (∃ k, (copies (query 4).id (home.received (firstOf ds k))).length = 1) ∧
      ∀ k, ∀ q' ∈ copies (query 4).id (home.received (firstOf ds k)),
        let visits : ℤ := (home.stops (query 4).id (firstOf ds k)).length
        q'.hop.toInt = visits ∧ 1 ≤ visits ∧ visits ≤ max 1 (query 4).limit.toInt ∧
          ((∀ p ∈ home.handlers (query 4).id (firstOf ds k), kite.neighborsOf p ≠ []) →
            visits = max 1 (query 4).limit.toInt) ∧
          q'.totals =
            ∑ p ∈ home.handlers (query 4).id (firstOf ds k), kite.share (query 4).metric p := by
  intro home ds
  have hneighbors : ∀ n ∈ kite.nodes, ∀ p ∈ n.neighbors, p ∈ kite.peers := by decide +kernel
  have hregistry : kite.registry ∉ kite.peers := by decide +kernel
  have hentry : peer 1 ∈ kite.peers := by decide +kernel
  have hfresh : kite.Fresh (query 4).id := fresh_query 4
  have hlogs : ∀ k, home.LogsSuffice (firstOf ds k) := by
    have hqueries : ∀ m ∈ home.flight, IsQueryOf home.peers {(query 4).id} m := by
      intro m hm
      have hm : m ∈ [(⟨peer 1, .query .randomWalk (query 4)⟩ : Envelope)] := hm
      rw [List.mem_singleton.1 hm]
      exact ⟨_, _, rfl, by decide +kernel, Finset.mem_singleton_self _⟩
    exact fun k => logsSuffice_of_isQueryOf hqueries (by decide +kernel) _
  have hidle : (home.afterAll (firstOf ds 5)).flight = [] := by decide +kernel
  have hfit : ∀ k, home.TotalsFit (query 4).id (firstOf ds k) := by
    intro k
    induction k with
    | zero => trivial
    | succ k ih =>
      rw [firstOf_succ]
      refine along_append_singleton.2 ⟨ih, ?_⟩
      rcases Nat.lt_or_ge k 5 with hk | hk
      · interval_cases k <;> decide +kernel
      · rw [afterAll_firstOf_of_idle hidle hk]
        decide +kernel
  have hattended : home.Attended (query 4).id ds := attended_of_index_zero fun _ => rfl
  obtain ⟨hone, hreceived, hway⟩ := walk_is_token hneighbors hregistry hentry hfresh rfl
    (by decide) rfl hlogs hfit
  exact ⟨hneighbors, hregistry, hentry, hfresh, rfl, by decide, rfl, hlogs, hfit, hattended, hone,
    hreceived hattended, hway⟩

end Network

end OverlayCensus
