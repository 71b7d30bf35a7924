/-
  OverlayCensus — how often a flood counts the peers of a tree.

  In a tree, a flood comes to every peer once, and every copy of it gets to all end peers
  ahead of it, those with a single neighbour, each of which replies to the registry.  So the
  totals that a peer has added to its random pick are counted once for every end peer that
  lies behind this pick.

  * `card_endsAhead`: the end peers ahead, branch by branch;
  * `drawn`: the random picks of a run;
  * `TreeState`: where the copies come from, that no peer gets two of them, and what they
    will have added up to in the end;
  * `flood_totals_of_tree`: how often the registry counts each peer.
-/
import Mathlib
import OverlayCensus.Proofs.FloodCoverage
import OverlayCensus.Proofs.FloodSteps
import OverlayCensus.Proofs.Forest

namespace OverlayCensus

namespace Network

/-! ## End peers -/

open Classical in
/-- The peers with a single neighbour that lie ahead of what one peer sends to another. -/
noncomputable def endsAhead (net : Network) (s r : PeerAddress) : Finset PeerAddress :=
  net.peers.toFinset.filter fun p => p ∈ ahead net.graph s r ∧ (net.neighborsOf p).length = 1

section
variable {net : Network} {s r p : PeerAddress}

theorem mem_endsAhead : p ∈ net.endsAhead s r ↔
    p ∈ net.peers ∧ p ∈ ahead net.graph s r ∧ (net.neighborsOf p).length = 1 := by
  simp only [endsAhead, Finset.mem_filter, List.mem_toFinset]

/-- A peer has a single neighbour if there is none besides the one that sends to it. -/
theorem length_neighborsOf_eq_one_iff (hnodup : (net.neighborsOf r).Nodup)
    (hs : s ∈ net.neighborsOf r) :
    (net.neighborsOf r).length = 1 ↔ Engine.candidates (net.neighborsOf r) s = [] := by
  have hlength := Engine.length_candidates hnodup s
  have hpos := List.length_pos_of_mem hs
  rw [if_pos hs] at hlength
  rw [← List.length_eq_zero_iff]
  omega

variable (hlinked : net.Linked) (hnodup : ∀ n ∈ net.nodes, n.neighbors.Nodup)
  (hforest : net.graph.IsAcyclic) (hr : r ∈ net.neighborsOf s)
include hlinked hnodup hforest hr

/-- The end peers ahead are those behind all other neighbours, or the peer itself if there is
    none. -/
theorem endsAhead_eq : net.endsAhead s r =
    if Engine.candidates (net.neighborsOf r) s = [] then {r}
    else (Engine.candidates (net.neighborsOf r) s).toFinset.biUnion (net.endsAhead r) := by
  have hone := length_neighborsOf_eq_one_iff (nodup_neighborsOf hnodup r)
    (hlinked.neighborsOf_symm hr)
  ext p
  rw [mem_endsAhead, mem_ahead_iff hforest (hlinked.adj_iff.2 hr)]
  split_ifs with hnil
  · rw [Finset.mem_singleton]
    constructor
    · rintro ⟨-, rfl | ⟨t, ht, hts, -⟩, -⟩
      · rfl
      · have hmem := Engine.mem_candidates.2 ⟨hlinked.adj_iff.1 ht, hts⟩
        rw [hnil] at hmem
        cases hmem
    · rintro rfl
      exact ⟨hlinked.mem_peers hr, Or.inl rfl, hone.2 hnil⟩
  · rw [Finset.mem_biUnion]
    constructor
    · rintro ⟨hp, rfl | ⟨t, ht, hts, hpt⟩, hlength⟩
      · exact absurd (hone.1 hlength) hnil
      · exact ⟨t, List.mem_toFinset.2 (Engine.mem_candidates.2 ⟨hlinked.adj_iff.1 ht, hts⟩),
          mem_endsAhead.2 ⟨hp, hpt, hlength⟩⟩
    · rintro ⟨t, ht, hpt⟩
      obtain ⟨ht, hts⟩ := Engine.mem_candidates.1 (List.mem_toFinset.1 ht)
      obtain ⟨hp, hpt, hlength⟩ := mem_endsAhead.1 hpt
      exact ⟨hp, Or.inr ⟨t, hlinked.adj_iff.2 ht, hts, hpt⟩, hlength⟩

/-- **Every end peer ahead lies behind one of the other neighbours**, and only one. -/
theorem card_endsAhead : (net.endsAhead s r).card =
    if Engine.candidates (net.neighborsOf r) s = [] then 1
    else ((Engine.candidates (net.neighborsOf r) s).map fun t => (net.endsAhead r t).card).sum := by
  rw [endsAhead_eq hlinked hnodup hforest hr]
  split_ifs
  · exact Finset.card_singleton r
  · have hcandidates : (Engine.candidates (net.neighborsOf r) s).Nodup :=
      (nodup_neighborsOf hnodup r).filter _
    rw [Finset.card_biUnion, List.sum_toFinset _ hcandidates]
    intro t ht u hu hne
    have ht := Engine.mem_candidates.1 (List.mem_toFinset.1 (Finset.mem_coe.1 ht))
    have hu := Engine.mem_candidates.1 (List.mem_toFinset.1 (Finset.mem_coe.1 hu))
    rw [Function.onFun, Finset.disjoint_left]
    intro p hpt hpu
    exact Set.disjoint_left.1 (disjoint_ahead hforest (hlinked.adj_iff.2 ht.1)
      (hlinked.adj_iff.2 hu.1) hne) (mem_endsAhead.1 hpt).2.1 (mem_endsAhead.1 hpu).2.1

/-- The way ahead has an end. -/
theorem endsAhead_nonempty : (net.endsAhead s r).Nonempty := by
  -- there is less ahead with every link, so the last one is not far
  induction hahead : (ahead net.graph s r).ncard using Nat.strong_induction_on generalizing s r with
  | _ k ih =>
    rw [endsAhead_eq hlinked hnodup hforest hr]
    split_ifs with hnil
    · exact Finset.singleton_nonempty r
    · obtain ⟨t, ht⟩ := List.exists_mem_of_ne_nil _ hnil
      obtain ⟨htr, hts⟩ := Engine.mem_candidates.1 ht
      have hfinite := finite_ahead_of_adj (G := net.graph)
        (fun _ _ hadj => hlinked.mem_peers (hlinked.adj_iff.1 hadj)) s r
      have hless := Set.ncard_lt_ncard (ahead_ssubset hforest (hlinked.adj_iff.2 htr) hts) hfinite
      obtain ⟨p, hp⟩ := ih _ (hahead ▸ hless) htr rfl
      exact ⟨p, Finset.mem_biUnion.2 ⟨t, List.mem_toFinset.2 ht, hp⟩⟩

end

/-! ## Random picks -/

/-- The peer that a delivery hands a copy of a query to, and the neighbour that its random
    pick falls on. -/
def drawAt (net : Network) (x : Uuid) (d : Delivery) : Option (PeerAddress × Option PeerAddress) :=
  net.flight[d.index]?.bind fun m => (m.copyOf? x).map fun q =>
    (m.receiver,
      Engine.choose (Engine.candidates (net.neighborsOf m.receiver) q.sender) d.pick)

/-- All of them in a run. -/
def drawn (net : Network) (x : Uuid) : List Delivery → List (PeerAddress × Option PeerAddress)
  | [] => []
  | d :: ds => (net.drawAt x d).toList ++ (net.after d).drawn x ds

/-- The neighbour that the random pick of a peer falls on when a query first comes to it. -/
def carrier? (net : Network) (x : Uuid) (ds : List Delivery) (p : PeerAddress) :
    Option PeerAddress :=
  ((net.drawn x ds).lookup p).join

section
variable {net : Network} {x : Uuid} {ds : List Delivery} {d : Delivery} {m : Envelope} {q : Query}
  {p : PeerAddress}

theorem drawn_append_singleton (net : Network) (x : Uuid) (ds : List Delivery) (d : Delivery) :
    net.drawn x (ds ++ [d]) = net.drawn x ds ++ ((net.afterAll ds).drawAt x d).toList := by
  induction ds generalizing net with
  | nil => simp [drawn]
  | cons d' ds ih =>
    rw [List.cons_append, drawn, ih, drawn, List.append_assoc]
    rfl

theorem drawAt_of_copy (hm : net.flight[d.index]? = some m) (hq : m.copyOf? x = some q) :
    net.drawAt x d = some (m.receiver,
      Engine.choose (Engine.candidates (net.neighborsOf m.receiver) q.sender) d.pick) := by
  rw [drawAt, hm, Option.bind_some, hq, Option.map_some]

theorem drawAt_of_none (hm : net.flight[d.index]? = some m) (hq : m.copyOf? x = none) :
    net.drawAt x d = none := by
  rw [drawAt, hm, Option.bind_some, hq, Option.map_none]

/-- The peers that draw are those that copies are delivered to. -/
theorem lookup_drawn_eq_none_iff :
    (net.drawn x ds).lookup p = none ↔ p ∉ visited x (net.delivered ds) := by
  induction ds using List.reverseRecOn with
  | nil => simp [drawn, visited]
  | append_singleton ds d ih =>
    rw [drawn_append_singleton, List.lookup_append, Option.or_eq_none_iff, ih]
    cases hm : (net.afterAll ds).flight[d.index]? with
    | none => simp [drawAt, delivered_append_singleton, hm]
    | some m =>
      rw [delivered_append hm]
      cases hq : m.copyOf? x with
      | none => simp [drawAt_of_none hm hq, visited_append_of_none hq]
      | some q =>
        rw [drawAt_of_copy hm hq, Option.toList_some, visited_append_of_some hq,
          Finset.mem_insert, List.lookup_cons, List.lookup_nil]
        cases hp : p == m.receiver with
        | true => simp [eq_of_beq hp]
        | false => simp [ne_of_beq_false hp]

/-- What a peer draws is one of its neighbours. -/
theorem mem_of_drawn {c : PeerAddress} (hc : (p, some c) ∈ net.drawn x ds) :
    c ∈ net.neighborsOf p := by
  induction ds generalizing net with
  | nil => cases hc
  | cons d ds ih =>
    rcases List.mem_append.1 hc with hc | hc
    · rw [Option.mem_toList, drawAt] at hc
      obtain ⟨m, -, hc⟩ := Option.bind_eq_some_iff.1 hc
      obtain ⟨q, -, hc⟩ := Option.map_eq_some_iff.1 hc
      obtain ⟨rfl, hpick⟩ := Prod.mk.inj hc
      exact (Engine.mem_candidates.1 (Engine.mem_of_choose hpick)).1
    · rw [← (later_after net d).neighborsOf]
      exact ih hc

theorem mem_of_carrier? {c : PeerAddress} (hc : net.carrier? x ds p = some c) :
    c ∈ net.neighborsOf p := by
  obtain ⟨before, after, hdrawn, -⟩ := List.lookup_eq_some_iff.1 (Option.join_eq_some_iff.1 hc)
  have hmem : (p, some c) ∈ net.drawn x ds := by
    rw [hdrawn]
    exact List.mem_append_right _ List.mem_cons_self
  exact mem_of_drawn hmem

/-- A peer that has drawn keeps to it. -/
theorem carrier?_append_of_mem (hp : p ∈ visited x (net.delivered ds)) :
    net.carrier? x (ds ++ [d]) p = net.carrier? x ds p := by
  obtain ⟨c, hc⟩ := Option.ne_none_iff_exists'.1 (mt lookup_drawn_eq_none_iff.1 (not_not.2 hp))
  rw [carrier?, carrier?, drawn_append_singleton, List.lookup_append, hc, Option.some_or]

/-- A peer draws when the first copy is delivered to it. -/
theorem carrier?_append_of_not_mem (hp : m.receiver ∉ visited x (net.delivered ds))
    (hm : (net.afterAll ds).flight[d.index]? = some m) (hq : m.copyOf? x = some q) :
    net.carrier? x (ds ++ [d]) m.receiver =
      Engine.choose (Engine.candidates (net.neighborsOf m.receiver) q.sender) d.pick := by
  have hlater := later_afterAll net ds
  rw [carrier?, drawn_append_singleton, List.lookup_append, lookup_drawn_eq_none_iff.2 hp,
    Option.none_or, drawAt_of_copy hm hq, hlater.neighborsOf, Option.toList_some,
    List.lookup_cons_self, Option.join_some]

end

/-! ## What comes of a copy -/

/-- How often the registry gets the totals that one peer sends to another: once for every end
    peer ahead.  What is sent to the registry itself it gets once. -/
noncomputable def echoes (net : Network) (s r : PeerAddress) : ℕ :=
  if r = net.registry then 1 else (net.endsAhead s r).card

/-- How often the registry counts a peer in a tree: as often as it gets what the peer sends to
    its random pick, or else what it replies. -/
noncomputable def repeats (net : Network) (x : Uuid) (ds : List Delivery) (p : PeerAddress) : ℕ :=
  net.echoes p ((net.carrier? x ds p).getD net.registry)

/-- What the copies among messages will have added up to. -/
noncomputable def echoed (net : Network) (x : Uuid) (ms : List Envelope) : ℤ × ℤ :=
  (ms.map fun m =>
    ((m.copyOf? x).map fun q => net.echoes q.sender m.receiver • q.totals).getD 0).sum

/-- The addresses that a peer sends a new flood to that comes from another one. -/
def targets (net : Network) (s r : PeerAddress) : List PeerAddress :=
  if Engine.candidates (net.neighborsOf r) s = [] then [net.registry]
  else Engine.candidates (net.neighborsOf r) s

section
variable {net : Network} {x : Uuid} {ms ms' : List Envelope} {m : Envelope} {q : Query}
  {s r : PeerAddress}

theorem echoes_registry (net : Network) (s : PeerAddress) : net.echoes s net.registry = 1 :=
  if_pos rfl

theorem echoes_of_mem (hlinked : net.Linked) (hr : r ∈ net.neighborsOf s) :
    net.echoes s r = (net.endsAhead s r).card :=
  if_neg (hlinked.isPeer_of_mem hr).1

theorem share_nonneg (net : Network) (metric : String) (p : PeerAddress) :
    0 ≤ net.share metric p := by
  cases hn : net.node? p with
  | none => simp [share, hn]
  | some n => rw [share_eq hn]; exact n.engine.metrics.share_nonneg metric

/-- Something comes of everything that a peer sends. -/
theorem one_le_repeats (hlinked : net.Linked) (hnodup : ∀ n ∈ net.nodes, n.neighbors.Nodup)
    (hforest : net.graph.IsAcyclic) (ds : List Delivery) (p : PeerAddress) :
    1 ≤ net.repeats x ds p := by
  rw [repeats]
  cases hc : net.carrier? x ds p with
  | none => rw [Option.getD_none, echoes_registry]
  | some c =>
    have hlink := mem_of_carrier? hc
    rw [Option.getD_some, echoes_of_mem hlinked hlink, Nat.one_le_iff_ne_zero, ← Nat.pos_iff_ne_zero,
      Finset.card_pos]
    exact endsAhead_nonempty hlinked hnodup hforest hlink

/-- **What one peer sends to another comes back by all that it sends it to.** -/
theorem echoes_eq_sum (hlinked : net.Linked) (hnodup : ∀ n ∈ net.nodes, n.neighbors.Nodup)
    (hforest : net.graph.IsAcyclic) (hr : r ∈ net.neighborsOf s) :
    net.echoes s r = ((net.targets s r).map (net.echoes r)).sum := by
  rw [echoes_of_mem hlinked hr, card_endsAhead hlinked hnodup hforest hr, targets]
  split_ifs with hnil
  · rw [List.map_singleton, List.sum_singleton, echoes_registry]
  · refine congrArg List.sum (List.map_congr_left fun t ht => ?_)
    exact (echoes_of_mem hlinked (Engine.mem_candidates.1 ht).1).symm

@[simp] theorem echoed_nil : net.echoed x [] = 0 := rfl

theorem echoed_append : net.echoed x (ms ++ ms') = net.echoed x ms + net.echoed x ms' := by
  simp [echoed]

theorem echoed_cons_of_some (hq : m.copyOf? x = some q) :
    net.echoed x (m :: ms) = net.echoes q.sender m.receiver • q.totals + net.echoed x ms := by
  simp [echoed, hq]

/-- Nothing comes of copies without totals. -/
theorem echoed_of_zero (h : ∀ q ∈ copies x ms, q.totals = 0) : net.echoed x ms = 0 := by
  refine List.sum_eq_zero fun t ht => ?_
  obtain ⟨m, hm, rfl⟩ := List.mem_map.1 ht
  cases hq : m.copyOf? x with
  | none => rfl
  | some q => rw [Option.map_some, Option.getD_some, h q (mem_copies.2 ⟨m, hm, hq⟩), smul_zero]

theorem echoed_of_copies_eq_nil (h : copies x ms = []) : net.echoed x ms = 0 :=
  echoed_of_zero (by simp [h])

theorem echoed_flight {i : ℕ} (hm : net.flight[i]? = some m) (home : Network) :
    home.echoed x net.flight = home.echoed x [m] + home.echoed x (net.without i).flight := by
  rw [← echoed_append]
  exact ((perm_flight hm).map _).sum_eq

/-- What the registry gets it has got. -/
theorem echoed_of_registry (hm : m.receiver = net.registry) : net.echoed x [m] = carried x [m] := by
  cases hq : m.copyOf? x with
  | none =>
    rw [carried_cons_of_none hq, carried_nil]
    exact echoed_of_copies_eq_nil (copies_cons_of_none hq)
  | some q =>
    rw [carried_cons_of_some hq, echoed_cons_of_some hq, hm, echoes_registry, one_smul]
    rfl

theorem echoed_cons_query {route : Route} {kind : QueryKind} {sent : List Parcel}
    (hid : q.id = x) :
    net.echoed x (((⟨route, r, .query kind q⟩ : Parcel) :: sent).map Parcel.envelope) =
      net.echoes q.sender r • q.totals + net.echoed x (sent.map Parcel.envelope) := by
  subst hid
  exact echoed_cons_of_some (Envelope.copyOf?_query r kind q)

/-- The copies of one message to several addresses. -/
theorem echoed_toAll (net : Network) (neighbors exclude : List PeerAddress) (kind : QueryKind)
    (q : Query) :
    net.echoed q.id ((Engine.toAll neighbors exclude (.query kind q)).map Parcel.envelope) =
      (((neighbors.filter fun p => p ∉ exclude).map (net.echoes q.sender)).sum) • q.totals := by
  rw [Engine.toAll, List.map_map, List.sum_smul, List.map_map]
  induction neighbors.filter fun p => p ∉ exclude with
  | nil => rfl
  | cons r rest ih =>
    rw [List.map_cons, List.map_cons, List.sum_cons, ← ih]
    exact echoed_cons_of_some (Envelope.copyOf?_query r kind q)

/-- **What comes of a copy that is new to a peer**: what came in comes back by all that it is
    sent to, and the peer's share by its random pick. -/
theorem echoed_onFlood {e : Engine} (pick : ℕ) (hnodup : (net.neighborsOf e.identity).Nodup)
    (hnew : e.IsNew q) (hlimit : q.limit = Query.unlimited)
    (horiginator : q.originator = net.registry) (hfits : e.Fits q) :
    net.echoed q.id ((e.onFlood (net.neighborsOf e.identity) pick q).2.map Parcel.envelope) =
      ((net.targets q.sender e.identity).map (net.echoes e.identity)).sum • q.totals +
        net.echoes e.identity ((Engine.choose
          (Engine.candidates (net.neighborsOf e.identity) q.sender) pick).getD net.registry) •
            e.gain q := by
  have htotals : (e.accumulated q).totals = q.totals + e.gain q := by
    have hnext := Engine.totals_next fun _ => hfits
    rwa [Engine.next, if_pos hnew] at hnext
  -- the copy with the share, and what follows it to the others
  have hcarried : ∀ route r rest,
      net.echoed q.id (((⟨route, r, .query .flood (e.accumulated q)⟩ : Parcel) :: rest).map
        Parcel.envelope) =
      net.echoes e.identity r • (q.totals + e.gain q) +
        net.echoed q.id (rest.map Parcel.envelope) := by
    intro route r rest
    have hid : (e.accumulated q).id = q.id := rfl
    have hsender : (e.accumulated q).sender = e.identity := rfl
    rw [echoed_cons_query hid, htotals, hsender]
  rw [Engine.onFlood_of_new hnew, hlimit, if_neg (by simp), targets]
  cases hc : Engine.choose (Engine.candidates (net.neighborsOf e.identity) q.sender) pick with
  | none =>
    have horig : (e.accumulated q).originator = net.registry := horiginator
    rw [if_pos (Engine.choose_eq_none_iff.1 hc), Option.getD_none, Engine.reply, hcarried, horig,
      List.map_nil, echoed_nil, add_zero, List.map_singleton, List.sum_singleton, smul_add]
  | some carrier =>
    have hmem := Engine.mem_of_choose hc
    have hid : (e.passOn q).id = q.id := rfl
    have hsender : (e.passOn q).sender = e.identity := rfl
    have htotals' : (e.passOn q).totals = q.totals := rfl
    have hrest := echoed_toAll net (net.neighborsOf e.identity) [q.sender, carrier] .flood
      (e.passOn q)
    rw [Engine.filter_not_mem_pair hnodup, hid, hsender, htotals'] at hrest
    rw [if_neg (List.ne_nil_of_mem hmem), Option.getD_some, hcarried, hrest,
      ← List.sum_map_erase _ hmem, smul_add, add_smul]
    abel

end

/-! ## Away from the entry -/

/-- A link that leads away from the entry of a flood. -/
def Outward (net : Network) (entry s r : PeerAddress) : Prop :=
  r ∈ net.neighborsOf s ∧ entry ∉ ahead net.graph s r

namespace Outward
variable {net : Network} {entry s r t : PeerAddress}

theorem ne_entry (h : net.Outward entry s r) : r ≠ entry := by
  rintro rfl
  exact h.2 (mem_ahead_self net.graph s r)

variable (hlinked : net.Linked) (hforest : net.graph.IsAcyclic)
include hlinked hforest

theorem of_entry (hr : r ∈ net.neighborsOf entry) : net.Outward entry entry r :=
  ⟨hr, not_mem_ahead hforest (hlinked.adj_iff.2 hr)⟩

theorem next (h : net.Outward entry s r) (ht : t ∈ net.neighborsOf r) (hne : t ≠ s) :
    net.Outward entry r t :=
  ⟨ht, fun he => h.2 ((ahead_ssubset hforest (hlinked.adj_iff.2 ht) hne).subset he)⟩

/-- A peer has one neighbour from which a link leads to it. -/
theorem sender_eq (hconnected : ∀ p ∈ net.peers, net.graph.Reachable entry p)
    (h : net.Outward entry s r) (h' : net.Outward entry t r) : s = t :=
  eq_of_not_mem_ahead hforest (hlinked.adj_iff.2 h.1) (hlinked.adj_iff.2 h'.1)
    (hconnected r (hlinked.mem_peers h.1)).symm h.2 h'.2

end Outward

/-! ## A flood in a tree -/

/-- All messages of a run: those that have been delivered and those in flight. -/
def messages (net : Network) (ds : List Delivery) : List Envelope :=
  net.delivered ds ++ (net.afterAll ds).flight

/-- The peers to which copies of a query are addressed, each as often as this is so. -/
def addressees (net : Network) (x : Uuid) (ms : List Envelope) : List PeerAddress :=
  (ms.filter fun m => (m.copyOf? x).isSome ∧ m.receiver ≠ net.registry).map Envelope.receiver

/-- A flood on its way through a tree: its copies lead away from the entry and come from peers
    that have handled it, no two of them to one peer, and those in flight and the results
    together count the peers reached as often as they are counted in the end. -/
structure TreeState (net : Network) (entry : PeerAddress) (q : Query) (ds : List Delivery) :
    Prop where
  origin : ∀ m ∈ net.messages ds, ∀ q' ∈ m.copyOf? q.id, m.receiver = net.registry ∨
    (m.receiver = entry ∧ q' = q) ∨
    (q'.sender ∈ net.handlers q.id ds ∧ net.Outward entry q'.sender m.receiver)
  once : (net.addressees q.id (net.messages ds)).Nodup
  account : (net.afterAll ds).results.totals q.id + net.echoed q.id (net.afterAll ds).flight =
    ∑ p ∈ net.handlers q.id ds, net.repeats q.id ds p • net.share q.metric p

section
variable {net : Network} {entry p : PeerAddress} {x : Uuid} {q q' : Query} {ds : List Delivery}
  {d : Delivery} {m : Envelope} {ms ms' sent : List Envelope}

theorem mem_addressees : p ∈ net.addressees x ms ↔
    ∃ m ∈ ms, m.receiver = p ∧ (m.copyOf? x).isSome ∧ p ≠ net.registry := by
  simp only [addressees, List.mem_map, List.mem_filter, decide_eq_true_eq]
  constructor
  · rintro ⟨m, ⟨hm, hcopy, hp⟩, rfl⟩
    exact ⟨m, hm, rfl, hcopy, hp⟩
  · rintro ⟨m, hm, rfl, hcopy, hp⟩
    exact ⟨m, ⟨hm, hcopy, hp⟩, rfl⟩

theorem addressees_append :
    net.addressees x (ms ++ ms') = net.addressees x ms ++ net.addressees x ms' := by
  simp [addressees]

theorem addressees_of_copies_eq_nil (h : copies x ms = []) : net.addressees x ms = [] := by
  rw [List.eq_nil_iff_forall_not_mem]
  intro p hp
  obtain ⟨m, hm, -, hcopy, -⟩ := mem_addressees.1 hp
  rw [copies_eq_nil_iff.1 h m hm] at hcopy
  cases hcopy

/-- A delivery adds to the messages of a run what is sent because of it. -/
theorem perm_messages (hm : (net.afterAll ds).flight[d.index]? = some m)
    (hflight : (net.afterAll (ds ++ [d])).flight =
      ((net.afterAll ds).without d.index).flight ++ sent) :
    (net.messages (ds ++ [d])).Perm (net.messages ds ++ sent) := by
  rw [messages, messages, delivered_append hm, hflight, ← List.append_assoc, List.append_assoc _ [m]]
  exact ((perm_flight hm).symm.append_left _).append_right _

theorem perm_addressees (hm : (net.afterAll ds).flight[d.index]? = some m)
    (hflight : (net.afterAll (ds ++ [d])).flight =
      ((net.afterAll ds).without d.index).flight ++ sent) :
    (net.addressees x (net.messages (ds ++ [d]))).Perm
      (net.addressees x (net.messages ds) ++ net.addressees x sent) := by
  rw [← addressees_append]
  exact ((perm_messages hm hflight).filter _).map _

/-- A peer that has handled a query is counted as often as before. -/
theorem repeats_append_of_mem (hp : p ∈ net.handlers x ds) :
    net.repeats x (ds ++ [d]) p = net.repeats x ds p := by
  rw [repeats, repeats, carrier?_append_of_mem (mem_handlers.1 hp).1]

/-- A peer sends no two copies of a new flood to one peer. -/
theorem nodup_addressees_onFlood {e : Engine} {neighbors : List PeerAddress} (pick : ℕ)
    (hnodup : neighbors.Nodup) (hnew : e.IsNew q') (hlimit : q'.limit = Query.unlimited) :
    (net.addressees x ((e.onFlood neighbors pick q').2.map Parcel.envelope)).Nodup := by
  have hreceivers := (Engine.receivers_of_new pick hnew hlimit hnodup).nodup_iff
  have hsublist := (List.filter_sublist
    (l := (e.onFlood neighbors pick q').2.map Parcel.envelope)
    (p := fun m => (m.copyOf? x).isSome ∧ m.receiver ≠ net.registry)).map Envelope.receiver
  rw [List.map_map] at hsublist
  refine List.Nodup.sublist hsublist (hreceivers.2 ?_)
  split_ifs
  · exact List.nodup_singleton _
  · exact hnodup.filter _

namespace TreeState
variable (h : net.TreeState entry q ds)
include h

/-- What is in flight to a peer has not come to it before. -/
theorem not_mem_handlers (hm : m ∈ (net.afterAll ds).flight) (hq' : m.copyOf? q.id = some q')
    (hpeer : net.IsPeer m.receiver) : m.receiver ∉ net.handlers q.id ds := by
  intro hold
  obtain ⟨m', hm', hr, hcopy⟩ := mem_visited.1 (mem_handlers.1 hold).1
  have hnodup := h.once
  rw [messages, addressees_append] at hnodup
  exact List.disjoint_of_nodup_append hnodup
    (mem_addressees.2 ⟨m', hm', hr, hcopy, hpeer.1⟩)
    (mem_addressees.2 ⟨m, hm, rfl, by rw [hq', Option.isSome_some], hpeer.1⟩)

/-- A delivery of nothing changes nothing. -/
theorem idle (hafter : net.afterAll (ds ++ [d]) = net.afterAll ds)
    (hdelivered : net.delivered (ds ++ [d]) = net.delivered ds) :
    net.TreeState entry q (ds ++ [d]) := by
  have hmessages : net.messages (ds ++ [d]) = net.messages ds := by
    rw [messages, messages, hafter, hdelivered]
  have hhandlers : net.handlers q.id (ds ++ [d]) = net.handlers q.id ds := by
    rw [handlers, handlers, hdelivered]
  constructor
  · rw [hmessages, hhandlers]
    exact h.origin
  · rw [hmessages]
    exact h.once
  · rw [hafter, hhandlers, h.account]
    exact Finset.sum_congr rfl fun p hp => by rw [repeats_append_of_mem hp]

/-- What no peer handles as a copy is for the registry, or nothing comes of it. -/
theorem echoed_of_kept (hlinked : net.Linked) (hentry : net.IsPeer entry)
    (hm : m ∈ (net.afterAll ds).flight)
    (hkept : m.copyOf? q.id = none ∨ ¬ net.IsPeer m.receiver) :
    (if m.receiver = net.registry then carried q.id [m] else 0) = net.echoed q.id [m] := by
  split_ifs with hregistry
  · exact (echoed_of_registry hregistry).symm
  · cases hq' : m.copyOf? q.id with
    | none => exact (echoed_of_copies_eq_nil (copies_cons_of_none hq')).symm
    | some q' =>
      have hnobody := hkept.resolve_left (by simp [hq'])
      rcases h.origin m (List.mem_append_right _ hm) q' hq' with hreg | ⟨he, -⟩ | ⟨-, hlink, -⟩
      · exact absurd hreg hregistry
      · exact absurd (he ▸ hentry) hnobody
      · exact absurd (hlinked.isPeer_of_mem hlink) hnobody

/-- A message that no peer handles as a copy changes nothing. -/
theorem aside (hlinked : net.Linked) (hentry : net.IsPeer entry)
    (hm : (net.afterAll ds).flight[d.index]? = some m)
    (hkept : m.copyOf? q.id = none ∨ ¬ net.IsPeer m.receiver)
    (hflight : (net.afterAll (ds ++ [d])).flight =
      ((net.afterAll ds).without d.index).flight ++ sent)
    (hsent : copies q.id sent = [])
    (hresults : (net.afterAll (ds ++ [d])).results.totals q.id =
      (net.afterAll ds).results.totals q.id +
        if m.receiver = net.registry then carried q.id [m] else 0) :
    net.TreeState entry q (ds ++ [d]) := by
  have hhandlers := handlers_append_of_ne hm hkept
  constructor
  case origin =>
    intro m' hm' q' hq'
    rw [hhandlers]
    rcases List.mem_append.1 ((perm_messages hm hflight).mem_iff.1 hm') with hm' | hm'
    · exact h.origin m' hm' q' hq'
    · rw [copies_eq_nil_iff.1 hsent m' hm'] at hq'
      cases hq'
  case once =>
    rw [(perm_addressees hm hflight).nodup_iff, addressees_of_copies_eq_nil hsent, List.append_nil]
    exact h.once
  case account =>
    have hkeep := h.echoed_of_kept hlinked hentry (List.mem_of_getElem? hm) hkept
    have haccount := h.account
    rw [echoed_flight hm net, ← hkeep, ← add_assoc, ← hresults] at haccount
    rw [hflight, echoed_append, echoed_of_copies_eq_nil hsent, add_zero, haccount, hhandlers]
    exact Finset.sum_congr rfl fun p hp => by rw [repeats_append_of_mem hp]

section
variable (hlinked : net.Linked) (hnodup : ∀ n ∈ net.nodes, n.neighbors.Nodup)
  (hforest : net.graph.IsAcyclic) (horiginator : q.originator = net.registry) {e : Engine}
  (he : e.identity = m.receiver) (hm : (net.afterAll ds).flight[d.index]? = some m)
  (hq' : m.copyOf? q.id = some q') (hpeer : net.IsPeer m.receiver) (hhop : q'.IsHopOf q)
include hlinked hforest horiginator he hm hq' hpeer hhop

/-- What a peer sends leads further away from the entry, or back to the registry. -/
theorem outward_of_sent {m' : Envelope}
    (hm' : m' ∈ (e.onFlood (net.neighborsOf m.receiver) d.pick q').2.map Parcel.envelope)
    {q'' : Query} (hq'' : q'' ∈ m'.copyOf? q.id) : m'.receiver = net.registry ∨
      (q''.sender = m.receiver ∧ net.Outward entry m.receiver m'.receiver) := by
  obtain ⟨p, hp, rfl⟩ := List.mem_map.1 hm'
  obtain ⟨⟨kind, hk⟩, -⟩ := Envelope.copyOf?_eq_some_iff.1 hq''
  rcases Engine.mem_candidates_of_onFlood hp with ht | hback
  · refine Or.inr ⟨(Engine.handled_onFlood.sender hp hk).trans he, ?_⟩
    obtain ⟨hlink, hne⟩ := Engine.mem_candidates.1 ht
    have hmem := List.mem_append_right (net.delivered ds) (List.mem_of_getElem? hm)
    rcases h.origin m hmem q' hq' with hreg | ⟨hentry, -⟩ | ⟨-, hout⟩
    · exact absurd hreg hpeer.1
    · rw [hentry] at hlink ⊢
      exact .of_entry hlinked hforest hlink
    · exact hout.next hlinked hforest hlink hne
  · exact Or.inl (hback.trans (hhop.2.1.trans horiginator))

include hnodup

/-- **What comes of a copy does not change when a peer handles it**, but for the share that
    the peer adds. -/
theorem echoed_sent (hzero : q.totals = 0) (hlimit : q.limit = Query.unlimited)
    (hnew : e.IsNew q') (hfits : e.Fits q') :
    net.echoed q.id
        ((e.onFlood (net.neighborsOf m.receiver) d.pick q').2.map Parcel.envelope) =
      net.echoed q.id [m] + net.repeats q.id (ds ++ [d]) m.receiver • e.gain q' := by
  have hmem := List.mem_of_getElem? hm
  have hfirst := h.not_mem_handlers hmem hq' hpeer
  have hpick := carrier?_append_of_not_mem (fun hv => hfirst (mem_handlers.2 ⟨hv, hpeer⟩)) hm hq'
  have hsum := echoed_onFlood d.pick (he ▸ nodup_neighborsOf hnodup m.receiver) hnew
    (hhop.2.2.2.trans hlimit) (hhop.2.1.trans horiginator) hfits
  have hcame : ((net.targets q'.sender m.receiver).map (net.echoes m.receiver)).sum • q'.totals =
      net.echoed q.id [m] := by
    rw [echoed_cons_of_some hq', echoed_nil, add_zero]
    rcases h.origin m (List.mem_append_right _ hmem) q' hq' with hreg | ⟨-, rfl⟩ | ⟨-, hout⟩
    · exact absurd hreg hpeer.1
    · rw [hzero, smul_zero, smul_zero]
    · rw [echoes_eq_sum hlinked hnodup hforest hout.1]
  rw [he, hhop.1, ← hpick, hcame] at hsum
  exact hsum

/-- A peer that handles a copy sends it on to peers that have not been sent one, and is
    counted as often as its random pick leads to. -/
theorem handled (hconnected : ∀ p ∈ net.peers, net.graph.Reachable entry p)
    (hzero : q.totals = 0) (hlimit : q.limit = Query.unlimited) (hnew : e.IsNew q')
    (hfits : e.Fits q') (hgain : e.gain q' = net.share q.metric m.receiver)
    (hflight : (net.afterAll (ds ++ [d])).flight = ((net.afterAll ds).without d.index).flight ++
      (e.onFlood (net.neighborsOf m.receiver) d.pick q').2.map Parcel.envelope)
    (hresults : (net.afterAll (ds ++ [d])).results = (net.afterAll ds).results) :
    net.TreeState entry q (ds ++ [d]) := by
  have hfirst := h.not_mem_handlers (List.mem_of_getElem? hm) hq' hpeer
  have hhandlers := handlers_append_of_copy hm hq' hpeer
  constructor
  case origin =>
    intro m' hm' q'' hq''
    rw [hhandlers]
    rcases List.mem_append.1 ((perm_messages hm hflight).mem_iff.1 hm') with hm' | hm'
    · refine (h.origin m' hm' q'' hq'').imp_right fun horigin => ?_
      exact horigin.imp_right fun ⟨hs, hout⟩ => ⟨Finset.mem_insert_of_mem hs, hout⟩
    · refine (h.outward_of_sent hlinked hforest horiginator he hm hq' hpeer hhop hm'
        hq'').imp_right fun ⟨hs, hout⟩ => Or.inr ?_
      rw [hs]
      exact ⟨Finset.mem_insert_self _ _, hout⟩
  case once =>
    rw [(perm_addressees hm hflight).nodup_iff, List.nodup_append']
    refine ⟨h.once, nodup_addressees_onFlood d.pick (nodup_neighborsOf hnodup m.receiver) hnew
      (hhop.2.2.2.trans hlimit), ?_⟩
    -- two copies to one peer would have come from two neighbors
    intro t ht ht'
    obtain ⟨m₁, hm₁, hr₁, hc₁, hreg⟩ := mem_addressees.1 ht
    obtain ⟨m₂, hm₂, rfl, hc₂, -⟩ := mem_addressees.1 ht'
    obtain ⟨q₁, hq₁⟩ := Option.isSome_iff_exists.1 hc₁
    obtain ⟨q₂, hq₂⟩ := Option.isSome_iff_exists.1 hc₂
    obtain ⟨-, hout₂⟩ := (h.outward_of_sent hlinked hforest horiginator he hm hq' hpeer hhop hm₂
      hq₂).resolve_left hreg
    have horigin := (h.origin m₁ hm₁ q₁ hq₁).resolve_left (hr₁ ▸ hreg)
    rw [hr₁] at horigin
    obtain ⟨hs₁, hout₁⟩ := horigin.resolve_left fun hentry => hout₂.ne_entry hentry.1
    exact hfirst (hout₁.sender_eq hlinked hforest hconnected hout₂ ▸ hs₁)
  case account =>
    have hsent := h.echoed_sent hlinked hnodup hforest horiginator he hm hq' hpeer hhop hzero
      hlimit hnew hfits
    have haccount := h.account
    rw [echoed_flight hm net] at haccount
    rw [hflight, echoed_append, hresults, hhandlers, Finset.sum_insert hfirst,
      Finset.sum_congr rfl fun p hp => by rw [repeats_append_of_mem hp], ← haccount, hsent, hgain]
    abel

end

end TreeState

end

section
variable {net : Network} {entry : PeerAddress} {q : Query} {now : ℕ} {ds : List Delivery}

/-- A flood that has just been injected is on its way to the entry. -/
theorem treeState_start (hfresh : net.Fresh q.id) (hzero : q.totals = 0) :
    (net.start entry .flood q now).TreeState entry q [] := by
  constructor
  case origin =>
    intro m hm q' hq'
    have hflight : m ∈ (net.start entry .flood q now).flight := hm
    exact Or.inr (Or.inl (copy_start hfresh hflight hq'))
  case once =>
    have hone : ((net.start entry .flood q now).addressees q.id
        (net.start entry .flood q now).flight).Nodup := by
      have hnew : ((net.start entry .flood q now).addressees q.id
          [⟨entry, .query .flood q⟩]).Nodup :=
        List.Nodup.sublist (List.filter_sublist.map _) (List.nodup_singleton entry)
      rw [start, inject, addressees_append, addressees_of_copies_eq_nil hfresh.copies_flight,
        List.nil_append]
      exact hnew
    exact hone
  case account =>
    have hcopies : ∀ q' ∈ copies q.id (net.start entry .flood q now).flight, q'.totals = 0 := by
      intro q' hq'
      rw [copies_start hfresh, List.mem_singleton] at hq'
      rw [hq', hzero]
    have haccount : (net.start entry .flood q now).account q.id = q.totals := account_start hfresh
    rw [account, carried, copies_start hfresh, List.map_singleton, List.sum_singleton, hzero,
      zero_add] at haccount
    rw [afterAll_nil, haccount, echoed_of_zero hcopies]
    rfl

/-- **A flood on its way through a tree**, from its first delivery to its last. -/
theorem treeState_afterAll (hlinked : net.Linked) (hnodup : ∀ n ∈ net.nodes, n.neighbors.Nodup)
    (hforest : net.graph.IsAcyclic) (hentry : entry ∈ net.peers)
    (hconnected : ∀ p ∈ net.peers, net.graph.Reachable entry p) (hfresh : net.Fresh q.id)
    (hzero : q.totals = 0) (hlimit : q.limit = Query.unlimited)
    (horiginator : q.originator = net.registry)
    (hlogs : (net.start entry .flood q now).LogsSuffice ds)
    (hfit : (net.start entry .flood q now).TotalsFit q.id ds) :
    (net.start entry .flood q now).TreeState entry q ds := by
  have hlinked' : (net.start entry .flood q now).Linked :=
    ⟨hlinked.distinct, hlinked.registry, hlinked.irrefl, hlinked.symm⟩
  have hpeer : (net.start entry .flood q now).IsPeer entry :=
    isPeer_of_mem_peers hlinked'.registry hentry
  induction ds using List.reverseRecOn with
  | nil => exact treeState_start hfresh hzero
  | append_singleton ds d ih =>
    have ih := ih hlogs.of_append_singleton (along_append_singleton.1 hfit).1
    cases floodStep hfresh hlogs with
    | idle hafter hdelivered => exact ih.idle hafter hdelivered
    | aside hm sent hkept hflight hsent hresults =>
      exact ih.aside hlinked' hpeer hm hkept hflight hsent hresults
    | @handled m n q' hm hcopy hto hn hneighbors hhop hnew hgain hflight hresults =>
      have hfirst := ih.not_mem_handlers (List.mem_of_getElem? hm) hcopy hto
      have hfits := (along_append_singleton.1 hfit).2 m hm n hn q' hcopy (hnew.2 hfirst)
      rw [hneighbors] at hflight
      refine ih.handled hlinked' hnodup hforest horiginator (identity_of_node? hn) hm hcopy hto hhop
        hconnected hzero hlimit (hnew.2 hfirst) hfits ?_ hflight hresults
      rw [shares, handlers_append_of_copy hm hcopy hto, Finset.sum_insert hfirst, ← shares,
        add_comm] at hgain
      exact (add_left_cancel hgain).symm

/-- **How often a flood counts the peers of a tree.**  Once no copy is in flight any more, the
    registry has counted every peer as often as there are end peers behind the neighbour that
    the peer's random pick fell on, or once if it had no neighbour to pick.  So it never counts
    too little, and it counts right only if no peer that has something to give picks a way to
    several ends. -/
theorem flood_totals_of_tree (hlinked : net.Linked)
    (hnodup : ∀ n ∈ net.nodes, n.neighbors.Nodup) (hentry : entry ∈ net.peers)
    (hconnected : ∀ p ∈ net.peers, net.graph.Reachable entry p)
    (hforest : net.graph.IsAcyclic) (hfresh : net.Fresh q.id) (hzero : q.totals = 0)
    (hlimit : q.limit = Query.unlimited) (horiginator : q.originator = net.registry)
    (hsender : q.sender ∉ net.neighborsOf entry)
    (hlogs : (net.start entry .flood q now).LogsSuffice ds)
    (hfit : (net.start entry .flood q now).TotalsFit q.id ds)
    (hdone : copies q.id ((net.start entry .flood q now).afterAll ds).flight = []) :
    let home := net.start entry .flood q now
    let totals := (home.afterAll ds).results.totals q.id
    let plain := ∑ p ∈ net.peers.toFinset, net.share q.metric p
    totals = ∑ p ∈ net.peers.toFinset, home.repeats q.id ds p • net.share q.metric p ∧
      plain ≤ totals ∧
      (totals = plain ↔
        ∀ p ∈ net.peers, home.repeats q.id ds p = 1 ∨ net.share q.metric p = 0) := by
  intro home totals plain
  have hlinked' : home.Linked := ⟨hlinked.distinct, hlinked.registry, hlinked.irrefl, hlinked.symm⟩
  have hpeer : home.IsPeer entry := isPeer_of_mem_peers hlinked'.registry hentry
  have hspread := (floodState_afterAll hlinked' hnodup hpeer hlimit horiginator
    (isHop_start hfresh) hfresh.queries hfresh.contributions hlogs
    (floodState_start hfresh hsender)).spread
  have hhandlers : home.handlers q.id ds = net.peers.toFinset := by
    ext p
    rw [hspread.mem_iff_reachable hlinked' hdone, List.mem_toFinset]
    exact ⟨hlinked'.mem_peers_of_reachable hentry, hconnected p⟩
  have haccount : totals =
      ∑ p ∈ net.peers.toFinset, home.repeats q.id ds p • net.share q.metric p := by
    have hstate := (treeState_afterAll hlinked hnodup hforest hentry hconnected hfresh hzero hlimit
      horiginator hlogs hfit).account
    rwa [echoed_of_copies_eq_nil hdone, add_zero, hhandlers] at hstate
  have hle : ∀ p ∈ net.peers.toFinset,
      net.share q.metric p ≤ home.repeats q.id ds p • net.share q.metric p := fun p _ =>
    le_smul_of_one_le_left (net.share_nonneg q.metric p)
      (one_le_repeats hlinked' hnodup hforest ds p)
  refine ⟨haccount, (Finset.sum_le_sum hle).trans haccount.ge, ?_⟩
  calc totals = plain ↔ plain = ∑ p ∈ net.peers.toFinset, home.repeats q.id ds p •
          net.share q.metric p := by rw [← haccount, eq_comm]
    _ ↔ ∀ p ∈ net.peers, home.repeats q.id ds p = 1 ∨ net.share q.metric p = 0 := by
      rw [Finset.sum_eq_sum_iff_of_le hle]
      simp only [List.mem_toFinset]
      refine forall₂_congr fun p _ => ?_
      -- the first time counts it, so nothing may come of all others
      obtain ⟨k, hk⟩ := Nat.exists_eq_add_of_le'
        (one_le_repeats (x := q.id) hlinked' hnodup hforest ds p)
      rw [hk, succ_nsmul, eq_comm, add_eq_right, smul_eq_zero, Nat.add_eq_right]

end

end Network

/-! ## A fork -/

namespace Sample

/-- Three peers linked to a fourth only. -/
def fork : Network where
  registry := peer 0
  nodes := [node 1 3 [("t", 1)] [2], node 2 4 [("t", 1)] [1, 3, 4], node 3 5 [("t", 1)] [2],
    node 4 6 [("t", 1)] [2]]
  flight := []
  results := .empty

/-- A flood without a limit that has just been sent to one of the three. -/
def forkFlooded : Network := fork.start (peer 1) .flood (query (-1)) 0

theorem linked_fork : fork.Linked :=
  ⟨by decide +kernel, by decide +kernel, by decide +kernel, by decide +kernel⟩

theorem isAcyclic_fork : fork.graph.IsAcyclic := by
  refine (SimpleGraph.isAcyclic_starGraph (peer 2)).anti fun p r hadj => ?_
  obtain ⟨n, hn, hr⟩ := Network.mem_neighborsOf (linked_fork.adj_iff.1 hadj)
  have hcentre : ∀ n ∈ fork.nodes, ∀ r ∈ n.neighbors,
      n.engine.identity = peer 2 ∨ r = peer 2 := by decide +kernel
  have hone := hcentre n (Network.mem_of_node? hn) r hr
  rw [Network.identity_of_node? hn] at hone
  exact SimpleGraph.starGraph_adj.2 ⟨hadj.ne, hone⟩

theorem reachable_fork : ∀ p ∈ fork.peers, fork.graph.Reachable (peer 1) p := by
  have hlink : ∀ p r, r ∈ fork.neighborsOf p → fork.graph.Reachable p r := fun p r hr =>
    (linked_fork.adj_iff.2 hr).reachable
  have hcentre : fork.graph.Reachable (peer 1) (peer 2) := hlink _ _ (by decide +kernel)
  intro p hp
  have hall : p = peer 1 ∨ p = peer 2 ∨ p ∈ fork.neighborsOf (peer 2) := by
    revert p
    decide +kernel
  rcases hall with rfl | rfl | hp
  · exact SimpleGraph.Reachable.refl _
  · exact hcentre
  · exact hcentre.trans (hlink _ _ hp)

theorem fresh_fork (limit : Int32) : fork.Fresh (query limit).id := by
  change fork.Fresh (.ofNat 7)
  exact ⟨by decide +kernel, by decide +kernel, by decide +kernel, by decide +kernel⟩

end Sample

namespace Network

open Sample in
/-- A flood of the fork, delivered in order, counts the three devices of its entry twice: both ends
    behind its one neighbour pass them on. -/
theorem flood_overcounts_fork :
    fork.Linked ∧ (∀ n ∈ fork.nodes, n.neighbors.Nodup) ∧ peer 1 ∈ fork.peers ∧
      (∀ p ∈ fork.peers, fork.graph.Reachable (peer 1) p) ∧ fork.graph.IsAcyclic ∧
      fork.Fresh (query (-1)).id ∧ (query (-1)).totals = 0 ∧
      (query (-1)).limit = Query.unlimited ∧ (query (-1)).originator = fork.registry ∧
      (query (-1)).sender ∉ fork.neighborsOf (peer 1) ∧
      forkFlooded.LogsSuffice (inOrder 6) ∧ forkFlooded.TotalsFit (query (-1)).id (inOrder 6) ∧
      copies (query (-1)).id (forkFlooded.afterAll (inOrder 6)).flight = [] ∧
      ((forkFlooded.afterAll (inOrder 6)).results.totals (query (-1)).id).1 = 21 ∧
      ∑ p ∈ fork.peers.toFinset, (fork.share (query (-1)).metric p).1 = 18 := by
  refine ⟨linked_fork, ?_, ?_, reachable_fork, isAcyclic_fork, fresh_fork (-1), ?_, rfl, rfl, ?_, ?_,
    ?_, ?_, ?_, ?_⟩ <;> decide +kernel

open Sample in
/-- A flood of the fork, in which only what the entry sends comes to two ends. -/
theorem flood_totals_of_tree_fork :
    fork.Linked ∧ (∀ n ∈ fork.nodes, n.neighbors.Nodup) ∧ peer 1 ∈ fork.peers ∧
      (∀ p ∈ fork.peers, fork.graph.Reachable (peer 1) p) ∧ fork.graph.IsAcyclic ∧
      fork.Fresh (query (-1)).id ∧ (query (-1)).totals = 0 ∧
      (query (-1)).limit = Query.unlimited ∧ (query (-1)).originator = fork.registry ∧
      (query (-1)).sender ∉ fork.neighborsOf (peer 1) ∧
      forkFlooded.LogsSuffice (inOrder 6) ∧ forkFlooded.TotalsFit (query (-1)).id (inOrder 6) ∧
      copies (query (-1)).id (forkFlooded.afterAll (inOrder 6)).flight = [] ∧
      let totals := (forkFlooded.afterAll (inOrder 6)).results.totals (query (-1)).id
      let plain := ∑ p ∈ fork.peers.toFinset, fork.share (query (-1)).metric p
      totals = ∑ p ∈ fork.peers.toFinset,
          forkFlooded.repeats (query (-1)).id (inOrder 6) p •
            fork.share (query (-1)).metric p ∧
        plain ≤ totals ∧
        (totals = plain ↔ ∀ p ∈ fork.peers,
          forkFlooded.repeats (query (-1)).id (inOrder 6) p = 1 ∨
            fork.share (query (-1)).metric p = 0) := by
  have hnodup : ∀ n ∈ fork.nodes, n.neighbors.Nodup := by decide +kernel
  have hentry : peer 1 ∈ fork.peers := by decide +kernel
  have hzero : (query (-1)).totals = 0 := by decide
  have hsender : (query (-1)).sender ∉ fork.neighborsOf (peer 1) := by decide +kernel
  have hlogs : forkFlooded.LogsSuffice (inOrder 6) := by decide +kernel
  have hfit : forkFlooded.TotalsFit (query (-1)).id (inOrder 6) := by decide +kernel
  have hdone : copies (query (-1)).id (forkFlooded.afterAll (inOrder 6)).flight = [] := by
    decide +kernel
  exact ⟨linked_fork, hnodup, hentry, reachable_fork, isAcyclic_fork, fresh_fork (-1), hzero, rfl,
    rfl, hsender, hlogs, hfit, hdone,
    flood_totals_of_tree linked_fork hnodup hentry reachable_fork isAcyclic_fork (fresh_fork (-1))
      hzero rfl rfl hsender hlogs hfit hdone⟩

end Network

end OverlayCensus
