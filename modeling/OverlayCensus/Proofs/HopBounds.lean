/-
  OverlayCensus — how far the copies of a query come.

  A peer passes a query on only if the next hop may travel further, and otherwise answers its
  originator.  This holds whatever the peer remembers: one that has forgotten a query may pass
  it on again, but not beyond its limit.

  * `Sent`: a peer has sent a message in the course of a run, and `sent_of_flight`: every
    message in flight was sent or was there from the start;
  * `InBounds`: where a copy is addressed bounds the hops that it has come; `InBounds.sent`: so
    it is with every copy that a peer sends because of one;
  * `maxHop_afterAll`: the deepest hop in the results is that of a copy;
  * `hops_bounded`: so limits are kept in all states of a run, and no copy changes what was
    asked, whom to answer, or who has sent it.
-/
import Mathlib
import OverlayCensus.Proofs.HopOrder
import OverlayCensus.Proofs.Topology

namespace OverlayCensus

/-! ## Queries that go on -/

/-- A query that goes to anyone but its originator may travel further, or is a flood without
    a limit. -/
theorem Engine.mayForward_of_sent {e : Engine} {neighbors : List PeerAddress} {pick : ℕ}
    {kind : QueryKind} {q : Query} {p : Parcel} (hlimit : ¬ Endless kind q)
    (hp : p ∈ (e.onQuery neighbors pick kind q).2) (hne : p.receiver ≠ q.originator) :
    q.mayForward = true := by
  by_contra hend
  exact hne (receiver_of_end (fun h => absurd h hlimit) (fun _ => hend) hp)

namespace Network

/-! ## Who has sent a message -/

/-- A peer has handled a message in the course of a run, and has sent another one because
    of it. -/
def Sent (net : Network) (ds : List Delivery) (p : PeerAddress) (m : Envelope) : Prop :=
  ∃ front d back cause n r, ds = front ++ d :: back ∧
    (net.afterAll front).flight[d.index]? = some cause ∧ cause.receiver = p ∧
    (net.afterAll front).node? p = some n ∧
    n.engine.handle n.neighbors d.pick cause.message = some r ∧ m ∈ r.2.map Parcel.envelope

variable {net : Network} {ds : List Delivery} {d : Delivery} {m : Envelope} {p : PeerAddress}

theorem Sent.append (h : net.Sent ds p m) (d : Delivery) : net.Sent (ds ++ [d]) p m := by
  obtain ⟨front, d', back, cause, n, r, rfl, hrest⟩ := h
  exact ⟨front, d', back ++ [d], cause, n, r, by simp, hrest⟩

/-- **Every message in flight was there from the start or was sent by a peer.** -/
theorem sent_of_flight (h : m ∈ (net.afterAll ds).flight) :
    m ∈ net.flight ∨ ∃ p, net.Sent ds p m := by
  induction ds using List.reverseRecOn with
  | nil => exact Or.inl h
  | append_singleton ds d ih =>
    rw [afterAll_append_singleton] at h
    have hold : m ∈ (net.afterAll ds).flight → m ∈ net.flight ∨ ∃ p, net.Sent (ds ++ [d]) p m :=
      fun h => (ih h).imp_right fun ⟨p, hsent⟩ => ⟨p, hsent.append d⟩
    cases hm : (net.afterAll ds).flight[d.index]? with
    | none =>
      rw [after_of_none hm] at h
      exact hold h
    | some cause =>
      rcases mem_flight_of_step (step_after hm) h with h | ⟨n, r, hn, hr, parcel, hp, rfl⟩
      · exact hold h
      · exact Or.inr ⟨_, ds, d, [], cause, n, r, rfl, hm, rfl, hn, hr, List.mem_map_of_mem hp⟩

/-- A query names as its sender the peer that has sent it. -/
theorem Sent.sender {kind : QueryKind} {q : Query} (h : net.Sent ds p m)
    (hq : m.message = .query kind q) : q.sender = p := by
  obtain ⟨front, d, back, cause, n, r, rfl, hcause, rfl, hn, hr, hmem⟩ := h
  obtain ⟨parcel, hp, rfl⟩ := List.mem_map.1 hmem
  obtain ⟨q₀, -, hh, -⟩ := Engine.query_of_sent hr hp hq
  exact (hh.sender hp hq).trans (identity_of_node? hn)

/-! ## Hops of copies -/

/-- The hops that a copy of a query has come, if a message is one: at least one and no more
    than the limit, or than one, to the registry, and to anyone else one less. -/
def InBounds (registry : PeerAddress) (q : Query) (m : Envelope) : Prop :=
  ∀ kind q', m.message = .query kind q' → q'.id = q.id →
    (m.receiver = registry → 1 ≤ q'.hop.toInt ∧ q'.hop.toInt ≤ max 1 q.limit.toInt) ∧
      (m.receiver ≠ registry → 0 ≤ q'.hop.toInt ∧ q'.hop.toInt ≤ max 0 (q.limit.toInt - 1))

/-- **What a peer sends because of a copy keeps to the bounds**, whether the peer has seen the
    query before or not. -/
theorem InBounds.sent {registry : PeerAddress} {kind : QueryKind} {q : Query} {n : Node}
    {pick : ℕ} {r : Engine × List Parcel} (hm : InBounds registry q m) (hhop : IsHop kind q m)
    (hpeer : m.receiver ≠ registry) (horiginator : q.originator = registry)
    (hlimit : ¬ Endless kind q) (hr : n.engine.handle n.neighbors pick m.message = some r)
    {parcel : Parcel} (hp : parcel ∈ r.2) : InBounds registry q parcel.envelope := by
  intro kind' q'' hq'' hid
  obtain ⟨q', hq', hh, hlater⟩ := Engine.query_of_sent hr hp hq''
  have hid' : q'.id = q.id := hlater.1.symm.trans hid
  obtain ⟨rfl, hsame⟩ := hhop kind' q' hq' hid'
  have hlimit' : q'.limit = q.limit := hsame.2.2.2
  obtain ⟨hpos, hcame⟩ := (hm kind' q' hq' hid').2 hpeer
  -- the message sent is one hop further, which does not pass the range of the hops
  have hnext : q''.hop.toInt = q'.hop.toInt + 1 := by
    obtain ⟨q₁, hq₁, -, hnext⟩ := Engine.hop_of_handled hh hp
    obtain rfl : q₁ = q'' := by injection hq₁.symm.trans hq''
    rw [hnext, Query.toInt_next_of_lt hpos (by rw [hlimit']; omega)]
  refine ⟨fun _ => by omega, fun hne => ?_⟩
  have hforward : q'.mayForward = true := by
    rw [hq', Engine.handle_query, Option.some.injEq] at hr
    refine Engine.mayForward_of_sent (by rwa [endless_congr hsame]) (hr ▸ hp) fun hback => hne ?_
    exact hback.trans (hsame.2.1.trans horiginator)
  have hless := (Query.toInt_next_of_mayForward hforward).2
  rw [hlimit'] at hless
  omega

/-! ## The deepest hop -/

end Network

namespace Results

variable {x : Uuid} {m : Message} {now : ℕ}

/-- The deepest hop that the results of a query tell is at most a bound. -/
def MaxHopLe (r : Results) (x : Uuid) (bound : ℤ) : Prop :=
  ∀ t, r.get? x = some t → t.maxHop.toInt ≤ bound

theorem toInt_maxHop_add (t : Tally) (o : Observation) (now : ℕ) :
    (t.add o now).maxHop.toInt = max t.maxHop.toInt o.hop.toInt := by
  rw [Tally.add]
  split_ifs with hlt
  · rw [Int32.lt_iff_toInt_lt] at hlt
    exact (max_eq_right hlt.le).symm
  · rw [Int32.lt_iff_toInt_lt] at hlt
    exact (max_eq_left (not_lt.1 hlt)).symm

theorem MaxHopLe.track {r : Results} {bound : ℤ} (h : r.MaxHopLe x bound) (hbound : 0 ≤ bound)
    (id : Uuid) (kind : QueryKind) (limit : Int32) (now : ℕ) :
    (r.track id kind limit now).MaxHopLe x bound := by
  intro t ht
  rw [get?_track] at ht
  split_ifs at ht with hid
  · cases hx : r.get? x with
    | none =>
      rw [hx] at ht
      cases ht
      exact hbound
    | some t' =>
      rw [hx] at ht
      exact h t (hx.trans ht)
  · exact h t ht

/-- A partial result of the query within the bound keeps the deepest hop within it. -/
theorem MaxHopLe.observeMessage {r : Results} {bound : ℤ} (h : r.MaxHopLe x bound)
    (hbound : 0 ≤ bound) (hm : ∀ kind q, m = .query kind q → q.id = x → q.hop.toInt ≤ bound) :
    (r.observeMessage m now).2.MaxHopLe x bound := by
  cases m with
  | query kind q =>
    intro t ht
    simp only [Results.observeMessage, Observation.ofMessage?] at ht
    rw [get?_observe] at ht
    split_ifs at ht with hid
    · cases ht
      rw [toInt_maxHop_add]
      refine max_le ?_ (hm kind q rfl hid)
      cases hx : r.get? x with
      | none => exact hbound
      | some t => exact h t hx
    · exact h t ht
  | _ => exact h

end Results

namespace Network

variable {net : Network} {ds : List Delivery} {x : Uuid}

/-- **The deepest hop in the results is one of a copy** that was addressed to the registry. -/
theorem maxHop_afterAll {bound : ℤ} (hbound : 0 ≤ bound) (hstart : net.results.MaxHopLe x bound)
    (hflight : ∀ m ∈ net.delivered ds, m.receiver = net.registry →
      ∀ kind q, m.message = .query kind q → q.id = x → q.hop.toInt ≤ bound) :
    (net.afterAll ds).results.MaxHopLe x bound := by
  induction ds using List.reverseRecOn with
  | nil => exact hstart
  | append_singleton ds d ih =>
    have hdel := delivered_append_singleton net ds d
    have ih := ih fun m hm => hflight m (hdel ▸ List.mem_append_left _ hm)
    rw [afterAll_append_singleton]
    cases hm : (net.afterAll ds).flight[d.index]? with
    | none =>
      rw [after_of_none hm]
      exact ih
    | some m =>
      have hmem : m ∈ net.delivered (ds ++ [d]) := by
        rw [hdel, hm]
        exact List.mem_append_right _ List.mem_cons_self
      have hstep := step_after hm
      generalize (net.afterAll ds).after d = next at hstep
      cases hstep with
      | observed hreg =>
        exact ih.observeMessage hbound
          (hflight m hmem (hreg.trans (later_afterAll net ds).1))
      | lost | refused | handled => exact ih

/-! ## Whole runs -/

/-- **No copy of a query passes its limit**, however often peers forget that they have seen
    it.  In every state of a run, every copy in flight is of the kind of the query and says
    what was asked, whom to answer and how far to go; but for the first one, it names the peer
    that has sent it.  A copy on its way to a peer has come fewer hops than the limit says, one
    to the registry at least one and no more than the limit, or than one; so the deepest hop in
    the results is no deeper. -/
theorem hops_bounded {entry : PeerAddress} {kind : QueryKind} {q : Query} {now : ℕ}
    (hregistry : net.registry ∉ net.peers) (hentry : entry ≠ net.registry)
    (hflight : ∀ m ∈ net.flight, m.queryId? ≠ some q.id) (hresults : net.results.get? q.id = none)
    (hhop : q.hop = 0) (horiginator : q.originator = net.registry)
    (hlimit : kind = .flood → q.limit ≠ Query.unlimited) (ds : List Delivery) :
    let home := net.start entry kind q now
    (∀ m ∈ (home.afterAll ds).flight, ∀ kind' q', m.message = .query kind' q' → q'.id = q.id →
      kind' = kind ∧ q'.originator = q.originator ∧ q'.metric = q.metric ∧ q'.limit = q.limit ∧
        (m = ⟨entry, .query kind q⟩ ∨ home.Sent ds q'.sender m) ∧
        (m.receiver ∈ net.peers →
          0 ≤ q'.hop.toInt ∧ q'.hop.toInt ≤ max 0 (q.limit.toInt - 1)) ∧
        (m.receiver = net.registry →
          1 ≤ q'.hop.toInt ∧ q'.hop.toInt ≤ max 1 q.limit.toInt)) ∧
      ∀ tally, (home.afterAll ds).results.get? q.id = some tally →
        tally.maxHop.toInt ≤ max 1 q.limit.toInt := by
  intro home
  have hendless : ¬ Endless kind q := fun hend => hlimit hend.1 hend.2
  have hstart : ∀ m ∈ home.flight, IsHop kind q m ∧ InBounds net.registry q m := by
    intro m hm
    rcases List.mem_append.1 hm with hm | hm
    · refine ⟨isHop_of_queryId?_ne (hflight m hm), fun kind' q' hq' hid => ?_⟩
      exact absurd (by simp [Envelope.queryId?, hq', hid]) (hflight m hm)
    · rw [List.mem_singleton.1 hm]
      refine ⟨?_, ?_⟩
      · rintro kind' q' ⟨⟩ -
        exact ⟨rfl, .refl q⟩
      · rintro kind' q' ⟨⟩ -
        rw [hhop]
        exact ⟨fun hreg => absurd hreg hentry, fun _ => ⟨le_rfl, le_max_left _ _⟩⟩
  obtain ⟨hall, hdelivered⟩ := forall_flight_afterAll hstart
    (fun m n n' pick r hm hn hl hr p hp => by
      have hpeer : m.receiver ≠ net.registry := by
        intro hreg
        exact hregistry (hreg ▸ isSome_node?_iff.1 (hn ▸ rfl : (net.node? m.receiver).isSome))
      exact ⟨hm.1.sent hr hp, hm.2.sent hm.1 hpeer horiginator hendless hr hp⟩) ds
  refine ⟨fun m hm kind' q' hq' hid => ?_, ?_⟩
  · obtain ⟨hhops, hbounds⟩ := hall m hm
    obtain ⟨hkind, -, hsame⟩ := hhops kind' q' hq' hid
    obtain ⟨hback, hon⟩ := hbounds kind' q' hq' hid
    refine ⟨hkind, hsame.1, hsame.2.1, hsame.2.2, ?_, fun hpeer => hon ?_, hback⟩
    · rcases sent_of_flight hm with hold | ⟨p, hsent⟩
      · rcases List.mem_append.1 hold with hold | hold
        · exact absurd (by simp [Envelope.queryId?, hq', hid]) (hflight m hold)
        · exact Or.inl (List.mem_singleton.1 hold)
      · rw [hsent.sender hq']
        exact Or.inr hsent
    · exact fun hreg => hregistry (hreg ▸ hpeer)
  · refine maxHop_afterAll (by omega) ?_ fun m hm hreg kind' q' hq' hid => ?_
    · refine Results.MaxHopLe.track (fun t ht => ?_) (by omega) q.id kind q.limit now
      rw [hresults] at ht
      cases ht
    · exact (((hdelivered m hm).2 kind' q' hq' hid).1 hreg).2

end Network

namespace Sample

/-- A peer that remembers one query only. -/
def forgetfulNode (port : UInt16) (neighbors : List UInt16) : Node where
  engine := .new (peer port) (.ofCounts 1 []) { queryCapacity := 1 } (.ofWords fun _ => 0)
  neighbors := neighbors.map peer

/-- Three such peers, linked to each other.  A flood without a limit is on its way to one. -/
def forgetful : Network where
  registry := peer 0
  nodes := [forgetfulNode 1 [2, 3], forgetfulNode 2 [1, 3], forgetfulNode 3 [1, 2]]
  flight := [⟨peer 2, .query .flood { query (-1) with id := .ofNat 8 }⟩]
  results := .empty

end Sample

open Sample in
/-- The other flood makes a peer forget that it has seen the query, and it counts itself a
    second time; but no copy comes further than three hops. -/
theorem Network.hops_bounded_forgetful :
    let home := forgetful.start (peer 1) .flood (query 3) 0
    (forgetful.registry ∉ forgetful.peers ∧ peer 1 ≠ forgetful.registry ∧
        (∀ m ∈ forgetful.flight, m.queryId? ≠ some (query 3).id) ∧
        forgetful.results.get? (query 3).id = none ∧ (query 3).hop = 0 ∧
        (query 3).originator = forgetful.registry ∧ (query 3).limit ≠ Query.unlimited) ∧
      (∃ n ∈ (home.afterAll (inOrder 9)).nodes, n.engine.contributions.count (query 3).id = 2) ∧
      (home.afterAll (inOrder 9)).flight.length = 4 ∧
      (∀ m ∈ (home.afterAll (inOrder 9)).flight, ∀ kind' q', m.message = .query kind' q' →
        q'.id = (query 3).id → kind' = .flood ∧ q'.limit = 3 ∧
          (m.receiver ∈ forgetful.peers → 0 ≤ q'.hop.toInt ∧ q'.hop.toInt ≤ 2) ∧
          (m.receiver = forgetful.registry → 1 ≤ q'.hop.toInt ∧ q'.hop.toInt ≤ 3)) ∧
      ((home.afterAll (inOrder 13)).results.get? (query 3).id).map Tally.maxHop = some 3 ∧
      ∀ tally, (home.afterAll (inOrder 13)).results.get? (query 3).id = some tally →
        tally.maxHop.toInt ≤ 3 := by
  intro home
  have hregistry : forgetful.registry ∉ forgetful.peers := by decide
  have hflight : ∀ m ∈ forgetful.flight, m.queryId? ≠ some (query 3).id := by decide
  have hbounded := @Network.hops_bounded forgetful (peer 1) .flood (query 3) 0
    hregistry (by decide) hflight rfl rfl rfl fun _ => by decide
  refine ⟨⟨hregistry, by decide, hflight, rfl, rfl, rfl, by decide⟩, by decide +kernel,
    by decide +kernel, fun m hm kind' q' hq' hid => ?_, by decide +kernel,
    (hbounded (inOrder 13)).2⟩
  obtain ⟨hkind, -, -, hlimit, -, hon, hback⟩ := (hbounded (inOrder 9)).1 m hm kind' q' hq' hid
  exact ⟨hkind, hlimit, hon, hback⟩

end OverlayCensus
