/-
  OverlayCensus — a query on its way to the nearest peer with its metric.

  A peer sends the query on while the distance that it knows is less than the hops left.
  The hops that a first copy has come and the distance that its receiver knows are never
  more together than they were at the entry, and whoever is listed for the distance either
  gets a copy, or is the sender and had a first copy before.

  * `Arrives.near`: no peer handles the query further away than the hops that its first
    copy has come;
  * `exists_handler`: a peer that knows a distance within the hops left leads the query to
    a peer with the metric;
  * `distance_query_reaches_iff`: the query reaches such a peer exactly if one is near
    enough.
-/
import Mathlib
import OverlayCensus.Proofs.DistanceRouting
import OverlayCensus.Proofs.HopOrder

namespace OverlayCensus

/-! ## Hops -/

theorem Engine.toNat_hopsLeft {q : Query} (hpos : 0 ≤ q.hop.toInt)
    (hlt : q.hop.toInt < q.limit.toInt) :
    ((Engine.hopsLeft q).toNat : ℤ) = q.limit.toInt - q.hop.toInt := by
  have hmax := q.limit.toInt_lt
  have hclamp : clampInt (q.limit.toInt - q.hop.toInt) = q.limit.toInt - q.hop.toInt := by
    rw [clampInt]
    omega
  rw [hopsLeft, hclamp, Nat.toUInt32_eq, UInt32.toNat_ofNat_of_lt']
  · omega
  · show _ < 2 ^ 32
    omega

namespace Network

/-! ## The network that is asked -/

section
variable {net home : Network} (entry : PeerAddress) (kind : QueryKind) (q : Query) (now : ℕ)

/-- A query that is injected says nothing about distances. -/
theorem Quiet.start (h : home.Quiet) : (home.start entry kind q now).Quiet := by
  intro m hm
  rcases List.mem_append.1 hm with hm | hm
  · exact h m hm
  · rw [List.mem_singleton.1 hm]
    cases kind <;> simp [Message.tag, QueryKind.tag]

theorem Routing.start (h : net.Routing home) (hquiet : home.Quiet) :
    net.Routing (home.start entry kind q now) :=
  ⟨h.later, h.peers, h.room, h.own, h.lists, h.support, fun m hm htag =>
    absurd htag (hquiet.start entry kind q now m hm)⟩

end

theorem Routing.isPeer {net now : Network} (h : net.Routing now) (hmutual : net.Mutual)
    {p : PeerAddress} (hp : p ∈ net.peers) : now.IsPeer p :=
  isPeer_of_mem_peers (h.later.1 ▸ h.peers ▸ hmutual.registry) (h.peers ▸ hp)

/-! ## No peer is further away than the hops -/

section
variable {net home : Network} {entry p s : PeerAddress} {q q' : Query} {now k : ℕ}
  {ds : ℕ → Delivery} {m : Envelope}

/-- Whom a peer sends a query to is a neighbour, and the copy has come one hop more. -/
theorem Forwards.link (h : Forwards (home.start entry .gossipDistance q now) ds .gossipDistance
      q.id k p q' m)
    (hrouting : net.Routing ((home.start entry .gossipDistance q now).afterAll (firstOf ds k)))
    (hhop : q'.IsHopOf q) (hreceiver : m.receiver ≠ q.originator) :
    q'.mayForward = true ∧ m.receiver ∈ net.neighborsOf p ∧ m.receiver ≠ p ∧
      ∃ q'', m.copyOf? q.id = some q'' ∧ q''.sender = p ∧ q''.hop = Int32.satAdd q'.hop 1 := by
  obtain ⟨n, hn, -, parcel, hparcel, rfl⟩ := h.sent
  have hidentity := identity_of_node? hn
  obtain ⟨-, hforward, htarget⟩ := (Engine.receiver_gossip hparcel).resolve_left
    fun hr => hreceiver (hr.trans hhop.2.1)
  obtain ⟨hnamed, hne, -⟩ := Engine.mem_targets.1 htarget
  rw [hidentity] at hne
  obtain ⟨name, hlists⟩ := DistanceTable.lists_of_mem_holdersWithin hnamed
  have hlink := (hrouting.lists p name parcel.receiver ⟨n, hn, hlists⟩).resolve_left hne
  have hh : n.engine.Handled .gossipDistance q' (n.engine.onGossipQuery .gossipDistance q') :=
    Engine.handled_onGossipQuery (by simp)
  obtain ⟨q'', hq'', hhop', hnext⟩ := Engine.hop_of_handled hh hparcel
  refine ⟨hforward, hlink, hne, q'', ?_, ?_, hnext⟩
  · exact Envelope.copyOf?_eq_some_iff.2 ⟨⟨_, hq''⟩, hhop'.1.trans hhop.1⟩
  · rw [hh.sender hparcel hq'', hidentity]

variable (hmutual : net.Mutual) (hrouting : net.Routing home) (hquiet : home.Quiet)
  (hfresh : home.Fresh q.id) (horiginator : q.originator = net.registry)
  (hfifo : ∀ k, (ds k).index = 0)
  (hlogs : ∀ k, (home.start entry .gossipDistance q now).LogsSuffice (firstOf ds k))
include hmutual hrouting hquiet hfresh horiginator hfifo hlogs

/-- A first copy is the query that was injected, or it comes from a neighbour to which a
    first copy came before, one hop less far. -/
theorem Arrives.origin (h : Arrives (home.start entry .gossipDistance q now) ds q.id k p q') :
    p = entry ∧ q' = q ∨ ∃ i q₀, i < k ∧ q'.sender ≠ p ∧ p ∈ net.neighborsOf q'.sender ∧
      Arrives (home.start entry .gossipDistance q now) ds q.id i q'.sender q₀ ∧
        q'.hop.toInt = q₀.hop.toInt + 1 ∧ q'.hop.toInt < q.limit.toInt := by
  obtain ⟨m, rest, hflight, rfl, hq'⟩ := h.front
  have hm := List.mem_of_getElem? (getElem?_front hfifo hflight)
  refine (forwards_of_flight hfifo hfresh hlogs (by simp) (horiginator.trans hrouting.later.1.symm)
    hm hq' h.peer).imp_right ?_
  rintro ⟨i, p₀, q₀, hi, hforwards⟩
  obtain ⟨hhop, -⟩ := hforwards.arrives.sends hfifo hfresh hlogs
  have hrouting' := (routing_afterAll (hrouting.start entry .gossipDistance q now hquiet)
    hmutual (firstOf ds i)).1
  have hreceiver : m.receiver ≠ q.originator := by
    rw [horiginator, ← hrouting.later.1]
    exact h.peer.1
  obtain ⟨hforward, hlink, hne, q'', hq'', hsender, hnext⟩ :=
    hforwards.link hrouting' hhop hreceiver
  cases hq'.symm.trans hq''
  obtain ⟨hvalue, hlt⟩ := Query.toInt_next_of_mayForward hforward
  rw [hhop.2.2.2] at hlt
  rw [hsender, hnext, hvalue]
  exact ⟨i, q₀, hi, hne.symm, hlink, hforwards.arrives, rfl, hlt⟩

/-- **No peer handles the query further away than the hops of its first copy**, and these
    are below the limit. -/
theorem Arrives.near (hhop : q.hop = 0) (hlimit : 1 ≤ q.limit)
    (h : Arrives (home.start entry .gossipDistance q now) ds q.id k p q') :
    net.graph.Reachable entry p ∧ (net.graph.dist entry p : ℤ) ≤ q'.hop.toInt ∧
      q'.hop.toInt < q.limit.toInt := by
  induction k using Nat.strong_induction_on generalizing p q' with
  | _ k ih =>
    rcases h.origin hmutual hrouting hquiet hfresh horiginator hfifo hlogs with
      ⟨rfl, rfl⟩ | ⟨i, q₀, hi, hne, hlink, harrives, hnext, hlt⟩
    · have hone : (1 : ℤ) ≤ q'.limit.toInt := Int32.le_iff_toInt_le.1 hlimit
      refine ⟨SimpleGraph.Reachable.refl p, ?_, ?_⟩
      · rw [SimpleGraph.dist_self, hhop]
        exact le_rfl
      · rw [hhop, Int32.toInt_zero]
        omega
    · obtain ⟨hreach, hdist, -⟩ := ih i hi harrives
      have hadj : net.graph.Adj q'.sender p := by
        rw [graph, SimpleGraph.fromRel_adj]
        exact ⟨hne, Or.inl hlink⟩
      refine ⟨hreach.trans hadj.reachable, ?_, hlt⟩
      have hstep : net.graph.dist entry p ≤ net.graph.dist entry q'.sender + 1 := by
        obtain ⟨w, hw⟩ := hreach.exists_walk_length_eq_dist
        rw [← hw, ← SimpleGraph.Walk.length_concat w hadj]
        exact SimpleGraph.dist_le _
      omega

end

/-! ## The way to a peer with the metric -/

section
variable {net home : Network} {entry p s : PeerAddress} {q q' : Query} {now k hops : ℕ}
  {ds : ℕ → Delivery}
  (hfifo : ∀ k, (ds k).index = 0) (hfresh : home.Fresh q.id)
  (hlogs : ∀ k, (home.start entry .gossipDistance q now).LogsSuffice (firstOf ds k))
include hfifo hfresh hlogs

/-- A peer sends a first copy on to everyone it lists, if the distance that it knows is less
    than the hops left. -/
theorem Arrives.sends_to_listed
    (h : Arrives (home.start entry .gossipDistance q now) ds q.id k p q')
    (hpos : 0 ≤ q'.hop.toInt) (hhops : 0 < hops) (hlt : hops + q'.hop.toInt < q.limit.toInt)
    (hknown : ((home.start entry .gossipDistance q now).afterAll (firstOf ds k)).KnownAt p
      (.distance q.metric hops))
    (hlisted : ((home.start entry .gossipDistance q now).afterAll (firstOf ds k)).ListedAt p
      q.metric s) (hne : s ≠ p) (hsender : s ≠ q'.sender) :
    ∃ m ∈ ((home.start entry .gossipDistance q now).afterAll (firstOf ds (k + 1))).flight,
      m.receiver = s ∧ ∃ q'', m.copyOf? q.id = some q'' ∧
        q''.hop.toInt = q'.hop.toInt + 1 := by
  obtain ⟨hhop, n, hn, hnew, hsent⟩ := h.sends hfifo hfresh hlogs
  obtain ⟨hid, -, hmetric, hlimit⟩ := hhop
  rw [← hlimit] at hlt
  have hforward : q'.mayForward = true := Query.mayForward_of_lt (by omega)
  have hnamed : s ∈ n.engine.named .gossipDistance q' := by
    obtain ⟨n', hn', hlists⟩ := hlisted
    cases hn.symm.trans hn'
    obtain ⟨n', hn', hknows⟩ := hknown
    cases hn.symm.trans hn'
    rw [← hmetric] at hlists hknows
    refine DistanceTable.mem_holdersWithin hlists hknows ?_
    have hleft := Engine.toNat_hopsLeft hpos (show q'.hop.toInt < q'.limit.toInt by omega)
    omega
  have hmem : s ∈ n.engine.targets q' (n.engine.named .gossipDistance q') :=
    Engine.mem_targets.2 ⟨hnamed, by rwa [identity_of_node? hn], hsender⟩
  have hreceivers := Engine.receivers_of_new_gossip .gossipDistance hnew hforward
  rw [if_neg (List.ne_nil_of_mem hmem)] at hreceivers
  rw [← hreceivers] at hmem
  obtain ⟨parcel, hparcel, rfl⟩ := List.mem_map.1 hmem
  have hh : n.engine.Handled .gossipDistance q' (n.engine.onGossipQuery .gossipDistance q') :=
    Engine.handled_onGossipQuery (by simp)
  obtain ⟨q'', hq'', hhop', hnext⟩ := Engine.hop_of_handled hh hparcel
  refine ⟨parcel.envelope, hsent parcel hparcel, rfl, q'', ?_, ?_⟩
  · exact Envelope.copyOf?_eq_some_iff.2 ⟨⟨_, hq''⟩, hhop'.1.trans hid⟩
  · rw [hnext, (Query.toInt_next_of_mayForward hforward).1]

end

section
variable {net home : Network} {entry p s : PeerAddress} {q q' : Query} {now k hops : ℕ}
  {ds : ℕ → Delivery}
  (hmutual : net.Mutual) (hrouting : net.Routing home) (hquiet : home.Quiet)
  (hfresh : home.Fresh q.id) (hhop : q.hop = 0) (hlimit : 1 ≤ q.limit)
  (horiginator : q.originator = net.registry) (hsender : q.sender ∉ net.neighborsOf entry)
  (hfifo : ∀ k, (ds k).index = 0)
  (hlogs : ∀ k, (home.start entry .gossipDistance q now).LogsSuffice (firstOf ds k))
include hmutual hrouting hquiet hfresh hhop hlimit horiginator hsender hfifo hlogs

/-- **A peer that knows a distance within the hops left** leads the query to a peer with the
    metric. -/
theorem exists_handler (h : Arrives (home.start entry .gossipDistance q now) ds q.id k p q')
    (hknown : home.KnownAt p (.distance q.metric hops))
    (hlt : hops + q'.hop.toInt < q.limit.toInt) :
    ∃ k, ∃ p ∈ (home.start entry .gossipDistance q now).handlers q.id (firstOf ds k),
      q.metric ∈ net.namesOf p := by
  induction hops using Nat.strong_induction_on generalizing k p q' with
  | _ hops ih =>
    have hpos : 0 ≤ q'.hop.toInt := by
      have hnear := h.near hmutual hrouting hquiet hfresh horiginator hfifo hlogs hhop hlimit
      omega
    have hstart : net.Routing (home.start entry .gossipDistance q now) :=
      hrouting.start entry .gossipDistance q now hquiet
    have hsame := (quiet_afterAll (hquiet.start entry .gossipDistance q now) hstart hmutual
      (firstOf ds k)).2
    have hknown' := (hsame p q.metric hops).2 hknown
    rcases (routing_afterAll hstart hmutual (firstOf ds k)).1.support p q.metric hops hknown' with
      hown | ⟨s, hlink, hlisted, n, hn, d, hd, hle⟩
    · exact ⟨k + 1, p, h.mem_handlers_succ hfifo, hown⟩
    · have hs : home.KnownAt s (.distance q.metric d.toNat) := (hsame s q.metric _).1 ⟨n, hn, hd⟩
      have hmax := q.limit.toInt_lt
      have hless : d.toNat < hops := by
        rw [toNat_nextHop] at hle
        omega
      by_cases hself : s = p
      · subst hself
        exact ih d.toNat hless h hs (by omega)
      · by_cases hback : s = q'.sender
        · -- the peer that sent the copy had a first copy before
          subst hback
          rcases h.origin hmutual hrouting hquiet hfresh horiginator hfifo hlogs with
            ⟨rfl, rfl⟩ | ⟨i, q₀, -, -, -, harrives, hnext, -⟩
          · exact absurd hlink hsender
          · exact ih d.toNat hless harrives hs (by omega)
        · obtain ⟨m, hm, rfl, q'', hq'', hnext⟩ := h.sends_to_listed hfifo hfresh hlogs hpos
            (by omega) hlt hknown' hlisted hself hback
          have hpeer := hstart.isPeer hmutual (hmutual.mem_peers hlink)
          obtain ⟨k', q₁, harrives, hle'⟩ :=
            exists_arrives_of_sent hfifo (hopOrder_start hfresh) hm hq'' hpeer
          rw [Int32.le_iff_toInt_le] at hle'
          exact ih d.toNat hless harrives hs (by omega)

end

/-! ## Which queries reach a peer with the metric -/

/-- **A query is led to a peer with its metric exactly if one is near enough.**  All peers
    are new, have told their tables in one or more exchanges, and no distances are told any
    more.  The query comes from outside and has made no hop.  Messages are delivered in the
    order of sending, for as long as there are any.  Then a peer with the metric handles the
    query if and only if such a peer is fewer links away from the entry than the limit. -/
theorem distance_query_reaches_iff {net : Network} {entry : PeerAddress} {q : Query} {now : ℕ}
    {rounds : List (List Delivery)} {ds : ℕ → Delivery} (hmutual : net.Mutual)
    (hseeded : net.DistancesSeeded) (hrounds : rounds ≠ [])
    (hquiet : (net.exchanges rounds).Quiet) (hentry : entry ∈ net.peers)
    (hfresh : (net.exchanges rounds).Fresh q.id) (hhop : q.hop = 0) (hlimit : 1 ≤ q.limit)
    (horiginator : q.originator = net.registry) (hsender : q.sender ∉ net.neighborsOf entry)
    (hfifo : ∀ k, (ds k).index = 0)
    (hlogs : ∀ k, ((net.exchanges rounds).start entry .gossipDistance q now).LogsSuffice
      (firstOf ds k)) :
    (∃ k, ∃ p ∈ ((net.exchanges rounds).start entry .gossipDistance q now).handlers q.id
        (firstOf ds k), q.metric ∈ net.namesOf p) ↔
      ∃ p, net.graph.Reachable entry p ∧ q.metric ∈ net.namesOf p ∧
        (net.graph.dist entry p : ℤ) < q.limit.toInt := by
  obtain ⟨hrouting, hshared⟩ := routing_exchanges hmutual hseeded rounds
  constructor
  · rintro ⟨k, p, hp, hname⟩
    obtain ⟨j, q', -, harrives⟩ := exists_arrives hfifo hp
    obtain ⟨hreach, hdist, hlt⟩ :=
      harrives.near hmutual hrouting hquiet hfresh horiginator hfifo hlogs hhop hlimit
    exact ⟨p, hreach, hname, hdist.trans_lt hlt⟩
  · rintro ⟨p, hreach, hname, hlt⟩
    obtain ⟨w, hw⟩ := hreach.exists_walk_length_eq_dist
    have hknown := (hshared hrounds).knownAt_of_walk hrouting hquiet hmutual w hname
    rw [hw] at hknown
    have hstart := hrouting.start entry .gossipDistance q now hquiet
    obtain ⟨k, q', harrives, hle⟩ := exists_arrives_of_sent (j := 0) hfifo
      (hopOrder_start hfresh) (List.mem_append_right _ (List.mem_singleton_self _))
      (Envelope.copyOf?_query entry .gossipDistance q) (hstart.isPeer hmutual hentry)
    rw [Int32.le_iff_toInt_le, hhop, Int32.toInt_zero] at hle
    exact exists_handler hmutual hrouting hquiet hfresh hhop hlimit horiginator hsender hfifo hlogs
      harrives hknown (by omega)

open Sample in
/-- The third peer of a row hears of the metric from the second, and the query goes two hops
    to the first. -/
theorem distance_query_reaches_iff_row :
    row.Mutual ∧ row.DistancesSeeded ∧ [inOrder 10] ≠ [] ∧
      (row.exchanges [inOrder 10]).Quiet ∧ peer 3 ∈ row.peers ∧
      (row.exchanges [inOrder 10]).Fresh (query 3).id ∧ (query 3).hop = 0 ∧
      1 ≤ (query 3).limit ∧ (query 3).originator = row.registry ∧
      (query 3).sender ∉ row.neighborsOf (peer 3) ∧
      (∀ k, ((row.exchanges [inOrder 10]).start (peer 3) .gossipDistance (query 3) 0).LogsSuffice
        (firstOf (fun _ => ⟨0, 0, 0⟩) k)) ∧
      ((∃ k, ∃ p ∈ ((row.exchanges [inOrder 10]).start (peer 3) .gossipDistance (query 3)
          0).handlers (query 3).id (firstOf (fun _ => ⟨0, 0, 0⟩) k),
          (query 3).metric ∈ row.namesOf p) ↔
        ∃ p, row.graph.Reachable (peer 3) p ∧ (query 3).metric ∈ row.namesOf p ∧
          (row.graph.dist (peer 3) p : ℤ) < (query 3).limit.toInt) := by
  have hseeded : row.DistancesSeeded :=
    ⟨by decide +kernel, engines_row, by decide +kernel, injOn_nameKey_row⟩
  have htold : row.exchanges [inOrder 10] = told := afterAll_exchange_row
  have hquiet : told.Quiet := by decide +kernel
  have hfresh : told.Fresh (query 3).id :=
    ⟨by decide +kernel, by decide +kernel, by decide +kernel, by decide +kernel⟩
  have hentry : peer 3 ∈ row.peers := by decide +kernel
  have horiginator : (query 3).originator = row.registry := by decide +kernel
  have hsender : (query 3).sender ∉ row.neighborsOf (peer 3) := by decide +kernel
  have hlogs : ∀ k, (told.start (peer 3) .gossipDistance (query 3) 0).LogsSuffice
      (firstOf (fun _ => ⟨0, 0, 0⟩) k) := by
    have hflight : (told.start (peer 3) .gossipDistance (query 3) 0).flight =
        [⟨peer 3, .query .gossipDistance (query 3)⟩] := by decide +kernel
    have hqueries : ∀ m ∈ (told.start (peer 3) .gossipDistance (query 3) 0).flight,
        IsQueryOf (told.start (peer 3) .gossipDistance (query 3) 0).peers {(query 3).id} m := by
      intro m hm
      rw [hflight, List.mem_singleton] at hm
      subst hm
      exact ⟨_, _, rfl, by decide +kernel, Finset.mem_singleton_self _⟩
    exact fun k => logsSuffice_of_isQueryOf hqueries (by decide +kernel) _
  rw [← htold] at hquiet hfresh hlogs
  exact ⟨linked_row.mutual, hseeded, by simp, hquiet, hentry, hfresh, rfl, by decide, horiginator,
    hsender, hlogs, distance_query_reaches_iff linked_row.mutual hseeded (by simp) hquiet hentry
      hfresh rfl (by decide) horiginator hsender (fun _ => rfl) hlogs⟩

end Network

end OverlayCensus
