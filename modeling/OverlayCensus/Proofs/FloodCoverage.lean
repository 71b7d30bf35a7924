/-
  OverlayCensus — where a flood without a limit goes.

  Between its first and its last delivery, a flood has reached some peers and is on its
  way to all neighbours of theirs (`Spread`).  Every peer that it reaches sends on a fixed
  number of copies (`branches`), and one for every further copy that comes, so the copies
  in flight and the replies can be counted from the peers reached.

  * `floodState_afterAll`: both hold after every run;
  * `flood_covers_component`: what they mean once the flood has come to its end.
-/
import Mathlib
import OverlayCensus.Proofs.Account
import OverlayCensus.Proofs.FloodSending
import OverlayCensus.Proofs.Topology

namespace OverlayCensus

namespace Network

/-! ## A flood on its way -/

/-- A flood has reached some peers, all of them from the entry.  The copies in flight go
    to the registry, or have been sent by a peer reached to a neighbour, or go to the entry
    from elsewhere.  A neighbour of a peer reached is itself reached, or a copy is on its
    way to it. -/
structure Spread (net : Network) (entry : PeerAddress) (x : Uuid) (reached : Finset PeerAddress)
    (flight : List Envelope) : Prop where
  connected : ∀ p ∈ reached, entry ∈ reached ∧ net.graph.Reachable entry p
  sent : ∀ m ∈ flight, ∀ q ∈ m.copyOf? x, m.receiver = net.registry ∨
    (m.receiver = entry ∧ q.sender ∉ net.neighborsOf entry) ∨
    (q.sender ∈ reached ∧ m.receiver ∈ net.neighborsOf q.sender)
  awaited : ∀ p, (p = entry ∨ ∃ r ∈ reached, p ∈ net.neighborsOf r) →
    p ∈ reached ∨ ∃ m ∈ flight, m.receiver = p ∧ (m.copyOf? x).isSome

/-- The number of copies that a peer sends when a flood without a limit first reaches it:
    one to each neighbour but the sender, and one back if there is no other neighbour. -/
def branches (net : Network) (entry p : PeerAddress) : ℕ :=
  max 1 ((net.neighborsOf p).length - if p = entry then 0 else 1)

namespace Spread
variable {net : Network} {entry : PeerAddress} {x : Uuid} {reached : Finset PeerAddress}
  {flight rest sent : List Envelope} {m : Envelope}

theorem perm (h : net.Spread entry x reached flight) (hp : flight.Perm rest) :
    net.Spread entry x reached rest where
  connected := h.connected
  sent m hm := h.sent m (hp.mem_iff.2 hm)
  awaited p hpr := (h.awaited p hpr).imp_right fun ⟨m, hm, hrest⟩ => ⟨m, hp.mem_iff.1 hm, hrest⟩

/-- A copy that a peer awaits is addressed to a peer. -/
theorem isPeer_of_awaited (hlinked : net.Linked) (hentry : net.IsPeer entry) {p : PeerAddress}
    (hp : p = entry ∨ ∃ r ∈ reached, p ∈ net.neighborsOf r) : net.IsPeer p := by
  rcases hp with rfl | ⟨r, -, hr⟩
  · exact hentry
  · exact hlinked.isPeer_of_mem hr

/-- A message that no peer handles as a copy changes nothing. -/
theorem aside (h : net.Spread entry x reached (m :: rest)) (hlinked : net.Linked)
    (hentry : net.IsPeer entry) (hm : m.copyOf? x = none ∨ ¬ net.IsPeer m.receiver)
    (hsent : copies x sent = []) : net.Spread entry x reached (rest ++ sent) where
  connected := h.connected
  sent m' hm' q hq := by
    rcases List.mem_append.1 hm' with hm' | hm'
    · exact h.sent m' (List.mem_cons_of_mem m hm') q hq
    · rw [copies_eq_nil_iff.1 hsent m' hm'] at hq
      cases hq
  awaited p hp := by
    refine (h.awaited p hp).imp_right fun ⟨m', hm', hr, hc⟩ => ?_
    rcases List.mem_cons.1 hm' with rfl | hm'
    · rcases hm with hnone | hpeer
      · rw [hnone] at hc
        cases hc
      · rw [hr] at hpeer
        exact absurd (isPeer_of_awaited hlinked hentry hp) hpeer
    · exact ⟨m', List.mem_append_left _ hm', hr, hc⟩

/-- A peer that handles a copy is reached, and its neighbours await what it sends. -/
theorem handled (h : net.Spread entry x reached (m :: rest)) (hlinked : net.Linked) {q : Query}
    (hq : m.copyOf? x = some q) (hpeer : net.IsPeer m.receiver)
    (hsent : ∀ m' ∈ sent, ∀ q' ∈ m'.copyOf? x, m'.receiver = net.registry ∨
      (q'.sender = m.receiver ∧ m'.receiver ∈ net.neighborsOf m.receiver))
    (hall : m.receiver ∉ reached → ∀ r ∈ net.neighborsOf m.receiver, r ≠ q.sender →
      ∃ m' ∈ sent, m'.receiver = r ∧ (m'.copyOf? x).isSome) :
    net.Spread entry x (insert m.receiver reached) (rest ++ sent) := by
  have horigin := (h.sent m List.mem_cons_self q hq).resolve_left hpeer.1
  constructor
  case connected =>
    intro p hp
    rcases Finset.mem_insert.1 hp with rfl | hp
    · rcases horigin with ⟨hentry, -⟩ | ⟨hsender, hlink⟩
      · rw [hentry]
        exact ⟨Finset.mem_insert_self _ _, SimpleGraph.Reachable.refl _⟩
      · obtain ⟨hentry, hreach⟩ := h.connected _ hsender
        exact ⟨Finset.mem_insert_of_mem hentry,
          hreach.trans (hlinked.adj_iff.2 hlink).reachable⟩
    · obtain ⟨hentry, hreach⟩ := h.connected p hp
      exact ⟨Finset.mem_insert_of_mem hentry, hreach⟩
  case sent =>
    intro m' hm' q' hq'
    rcases List.mem_append.1 hm' with hm' | hm'
    · refine (h.sent m' (List.mem_cons_of_mem m hm') q' hq').imp_right fun h => ?_
      exact h.imp_right fun ⟨hs, hl⟩ => ⟨Finset.mem_insert_of_mem hs, hl⟩
    · refine (hsent m' hm' q' hq').imp_right fun ⟨hs, hl⟩ => Or.inr ?_
      rw [hs]
      exact ⟨Finset.mem_insert_self _ _, hl⟩
  case awaited =>
    intro p hp
    by_cases hold : p = entry ∨ ∃ r ∈ reached, p ∈ net.neighborsOf r
    · rcases h.awaited p hold with hp | ⟨m', hm', hr, hc⟩
      · exact Or.inl (Finset.mem_insert_of_mem hp)
      · rcases List.mem_cons.1 hm' with rfl | hm'
        · exact Or.inl (hr ▸ Finset.mem_insert_self _ _)
        · exact Or.inr ⟨m', List.mem_append_left _ hm', hr, hc⟩
    · -- only the peer that is new has neighbors that were not awaited before
      rw [not_or] at hold
      obtain ⟨r, hr, hlink⟩ := hp.resolve_left hold.1
      have hnew : r = m.receiver ∧ r ∉ reached :=
        ⟨(Finset.mem_insert.1 hr).resolve_right fun hr => hold.2 ⟨r, hr, hlink⟩,
          fun hr => hold.2 ⟨r, hr, hlink⟩⟩
      obtain ⟨rfl, hnew⟩ := hnew
      by_cases hsender : p = q.sender
      · rcases horigin with ⟨hentry, hforeign⟩ | ⟨hreached, -⟩
        · rw [hentry, hsender] at hlink
          exact absurd hlink hforeign
        · rw [hsender]
          exact Or.inl (Finset.mem_insert_of_mem hreached)
      · obtain ⟨m', hm', hr', hc⟩ := hall hnew p hlink hsender
        exact Or.inr ⟨m', List.mem_append_right _ hm', hr', hc⟩

/-- The copies that a peer sends when a flood first reaches it. -/
theorem length_candidates (h : net.Spread entry x reached (m :: rest)) (hlinked : net.Linked)
    (hnodup : (net.neighborsOf m.receiver).Nodup) {q : Query} (hq : m.copyOf? x = some q)
    (hpeer : net.IsPeer m.receiver) (hnew : m.receiver ∉ reached) :
    max 1 (Engine.candidates (net.neighborsOf m.receiver) q.sender).length =
      net.branches entry m.receiver := by
  rw [branches, Engine.length_candidates hnodup]
  rcases (h.sent m List.mem_cons_self q hq).resolve_left hpeer.1 with
    ⟨hentry, hforeign⟩ | ⟨hsender, hlink⟩
  · rw [hentry, if_neg hforeign, if_pos rfl]
  · have hne : m.receiver ≠ entry := by
      intro he
      exact hnew (he ▸ (h.connected _ hsender).1)
    rw [if_pos (hlinked.neighborsOf_symm hlink), if_neg hne]

end Spread

/-! ## Whole runs -/

section
variable {net : Network} {entry : PeerAddress} {q : Query} {ds : List Delivery} {d : Delivery}
  {m : Envelope}

/-- The state of a flood during a run: how far it has spread, and that the copies in flight
    and the replies are as many as the peers reached have sent on. -/
structure FloodState (net : Network) (entry : PeerAddress) (x : Uuid) (ds : List Delivery) :
    Prop where
  spread : net.Spread entry x (net.handlers x ds) (net.afterAll ds).flight
  count : (copies x (net.afterAll ds).flight).length + (copies x (net.received ds)).length +
    (net.handlers x ds).card = 1 + ∑ p ∈ net.handlers x ds, net.branches entry p

/-- A delivery that no peer handles as a copy keeps the state of a flood. -/
theorem FloodState.aside (h : net.FloodState entry q.id ds) (hlinked : net.Linked)
    (hentry : net.IsPeer entry) (hm : (net.afterAll ds).flight[d.index]? = some m)
    (hkept : m.copyOf? q.id = none ∨ ¬ net.IsPeer m.receiver) {sent : List Envelope}
    (hflight : (net.afterAll (ds ++ [d])).flight =
      ((net.afterAll ds).without d.index).flight ++ sent) (hsent : copies q.id sent = []) :
    net.FloodState entry q.id (ds ++ [d]) := by
  have hspread := h.spread.perm (perm_flight hm)
  have hcount := h.count
  rw [(copies_perm (perm_flight hm)).length_eq, ← List.singleton_append, copies_append,
    List.length_append] at hcount
  constructor
  · rw [handlers_append_of_ne hm hkept, hflight]
    exact hspread.aside hlinked hentry hkept hsent
  · have hreceived : copies q.id ([m].filter fun m => m.receiver = net.registry) =
        copies q.id [m] := by
      by_cases hreg : m.receiver = net.registry
      · rw [List.filter_cons_of_pos (by simpa using hreg), List.filter_nil]
      · rw [List.filter_cons_of_neg (by simpa using hreg), List.filter_nil]
        cases hq' : m.copyOf? q.id with
        | none => rw [copies_cons_of_none hq']
        | some q' =>
          refine absurd ?_ (hkept.resolve_left (by simp [hq']))
          rcases hspread.sent m List.mem_cons_self q' hq' with h | ⟨h, -⟩ | ⟨-, h⟩
          · exact absurd h hreg
          · exact h ▸ hentry
          · exact hlinked.isPeer_of_mem h
    rw [handlers_append_of_ne hm hkept, received_append hm, hflight, copies_append, hsent,
      List.append_nil, copies_append, hreceived, List.length_append]
    omega

/-- A peer that handles a copy of a flood without a limit keeps the state of the flood. -/
theorem FloodState.handled (h : net.FloodState entry q.id ds) (hlinked : net.Linked)
    (hnodup : ∀ n ∈ net.nodes, n.neighbors.Nodup) (hlimit : q.limit = Query.unlimited)
    (horiginator : q.originator = net.registry)
    (hm : (net.afterAll ds).flight[d.index]? = some m) (hpeer : net.IsPeer m.receiver)
    {n : Node} (hn : (net.afterAll ds).node? m.receiver = some n) {q' : Query}
    (hk : m.message = .query .flood q') (hhop : q'.IsHopOf q)
    (hnew : n.engine.IsNew q' ↔ m.receiver ∉ net.handlers q.id ds)
    {r : Engine × List Parcel} (hr : n.engine.onFlood n.neighbors d.pick q' = r)
    (hflight : (net.afterAll (ds ++ [d])).flight =
      ((net.afterAll ds).without d.index).flight ++ r.2.map Parcel.envelope) :
    net.FloodState entry q.id (ds ++ [d]) := by
  obtain ⟨hid, horigin, -, hlimit'⟩ := hhop
  rw [hlimit] at hlimit'
  rw [horiginator] at horigin
  have hspread := h.spread.perm (perm_flight hm)
  have hq' : m.copyOf? q.id = some q' := Envelope.copyOf?_eq_some_iff.2 ⟨⟨.flood, hk⟩, hid⟩
  have hh : n.engine.Handled .flood q' r := hr ▸ Engine.handled_onFlood
  have hneighbors : n.neighbors = net.neighborsOf m.receiver := by
    rw [← (later_afterAll net ds).neighborsOf, neighborsOf_eq hn]
  have hlist : n.neighbors.Nodup := hneighbors ▸ nodup_neighborsOf hnodup m.receiver
  constructor
  · rw [handlers_append_of_copy hm hq' hpeer, hflight]
    refine hspread.handled hlinked hq' hpeer ?_ ?_
    · intro m' hm' q'' hq''
      obtain ⟨p, hp, rfl⟩ := List.mem_map.1 hm'
      obtain ⟨⟨kind, hk'⟩, -⟩ := Envelope.copyOf?_eq_some_iff.1 hq''
      have hsender := hh.sender hp hk'
      rw [identity_of_node? hn] at hsender
      rw [← hr] at hp
      rcases Engine.receiver_onFlood hp with hmem | hback
      · exact Or.inr ⟨hsender, hneighbors ▸ hmem⟩
      · exact Or.inl (hback.trans horigin)
    · intro hfirst p hlink hne
      have hmem : p ∈ Engine.candidates n.neighbors q'.sender :=
        Engine.mem_candidates.2 ⟨hneighbors ▸ hlink, hne⟩
      have hperm := Engine.receivers_of_new d.pick (hnew.2 hfirst) hlimit' hlist
      rw [hr, if_neg (List.ne_nil_of_mem hmem)] at hperm
      obtain ⟨parcel, hp, rfl⟩ := List.mem_map.1 (hperm.mem_iff.2 hmem)
      exact ⟨parcel.envelope, List.mem_map_of_mem hp, rfl, hid ▸ hh.isSome_copyOf? hp⟩
  · have hcount := h.count
    rw [(copies_perm (perm_flight hm)).length_eq, copies_cons_of_some hq',
      List.length_cons] at hcount
    have hreceived : net.received (ds ++ [d]) = net.received ds := by
      rw [received_append hm, List.filter_cons_of_neg (by simpa using hpeer.1), List.filter_nil,
        List.append_nil]
    have hlength := hh.length_copies
    rw [hid] at hlength
    rw [handlers_append_of_copy hm hq' hpeer, hflight, hreceived, copies_append, List.length_append,
      hlength]
    by_cases hold : m.receiver ∈ net.handlers q.id ds
    · have hone : r.2.length = 1 := by
        have hback := congrArg List.length (Engine.receivers_of_old n.neighbors d.pick
          (mt hnew.1 (not_not.2 hold)))
        rwa [hr, List.length_map] at hback
      rw [Finset.insert_eq_of_mem hold]
      omega
    · have hall : r.2.length = net.branches entry m.receiver := by
        rw [← hspread.length_candidates hlinked (nodup_neighborsOf hnodup _) hq' hpeer hold,
          ← hneighbors, ← hr]
        exact Engine.length_of_new d.pick (hnew.2 hold) hlimit' hlist
      rw [Finset.card_insert_of_notMem hold, Finset.sum_insert hold]
      omega

/-- **How a flood without a limit spreads**, from its first delivery to its last. -/
theorem floodState_afterAll (hlinked : net.Linked)
    (hnodup : ∀ n ∈ net.nodes, n.neighbors.Nodup) (hentry : net.IsPeer entry)
    (hlimit : q.limit = Query.unlimited) (horiginator : q.originator = net.registry)
    (hhops : ∀ m ∈ net.flight, IsHop .flood q m)
    (hqueries : ∀ n ∈ net.nodes, q.id ∉ n.engine.queries.ids)
    (hcontributions : ∀ n ∈ net.nodes, q.id ∉ n.engine.contributions)
    (hlogs : net.LogsSuffice ds) (hstart : net.FloodState entry q.id []) :
    net.FloodState entry q.id ds := by
  induction ds using List.reverseRecOn with
  | nil => exact hstart
  | append_singleton ds d ih =>
    have ih := ih hlogs.of_append_singleton
    have hlater := later_afterAll net ds
    have hafter := afterAll_append_singleton net ds d
    cases hm : (net.afterAll ds).flight[d.index]? with
    | none =>
      constructor
      · rw [afterAll_append_of_none hm, handlers, delivered_append_of_none hm]
        exact ih.spread
      · rw [afterAll_append_of_none hm, handlers, received, delivered_append_of_none hm]
        exact ih.count
    | some m =>
      cases copyStep (x := q.id) (step_after hm) with
      | aside sent hkept hflight hsent _ =>
        rw [← hafter] at hflight
        rw [isPeer_congr hlater] at hkept
        exact ih.aside hlinked hentry hm hkept hflight hsent
      | @handled n kind q' r hpeer hn hk hid hr hflight _ =>
        rw [← hafter] at hflight
        rw [isPeer_congr hlater] at hpeer
        obtain ⟨rfl, hhop⟩ :=
          (isHop_afterAll hhops ds).1 m (List.mem_of_getElem? hm) kind q' hk hid
        have hfollows := follows_afterAll hqueries hcontributions hlogs.of_append_singleton
          hpeer.1 hn
        rw [← hid] at hfollows
        refine ih.handled hlinked hnodup hlimit horiginator hm hpeer hn hk hhop ?_ hr hflight
        rw [hfollows.isNew_iff, hid, mem_handlers]
        exact not_congr (and_iff_left hpeer).symm

end

/-! ## The end of a flood -/

section
variable {net : Network} {entry p : PeerAddress} {x : Uuid} {reached : Finset PeerAddress}

/-- Once no copy is in flight, the peers reached are all that are connected to the
    entry. -/
theorem Spread.mem_iff_reachable {flight : List Envelope}
    (h : net.Spread entry x reached flight) (hlinked : net.Linked) (hdone : copies x flight = []) :
    p ∈ reached ↔ net.graph.Reachable entry p := by
  have hclosed : ∀ p, (p = entry ∨ ∃ r ∈ reached, p ∈ net.neighborsOf r) → p ∈ reached := by
    intro p hp
    refine (h.awaited p hp).resolve_right ?_
    rintro ⟨m, hm, -, hc⟩
    rw [copies_eq_nil_iff.1 hdone m hm] at hc
    cases hc
  constructor
  · intro hp
    exact (h.connected p hp).2
  · intro hp
    rw [SimpleGraph.reachable_iff_reflTransGen] at hp
    induction hp with
    | refl => exact hclosed entry (Or.inl rfl)
    | tail _ hadj ih => exact hclosed _ (Or.inr ⟨_, ih, hlinked.adj_iff.1 hadj⟩)

/-- A peer other than the entry is connected to it by a neighbour. -/
theorem length_neighborsOf_pos (hlinked : net.Linked) (hreach : net.graph.Reachable entry p)
    (hne : p ≠ entry) : 0 < (net.neighborsOf p).length := by
  rw [SimpleGraph.reachable_iff_reflTransGen] at hreach
  rcases hreach.cases_tail with heq | ⟨r, -, hadj⟩
  · exact absurd heq hne
  · exact List.length_pos_of_mem (hlinked.adj_iff.1 hadj.symm)

/-- The entry is alone if it has no neighbour. -/
theorem length_neighborsOf_eq_zero_iff (hlinked : net.Linked)
    (hreached : ∀ p, p ∈ reached ↔ net.graph.Reachable entry p) :
    (net.neighborsOf entry).length = 0 ↔ reached.card = 1 := by
  have hentry : entry ∈ reached := (hreached entry).2 (SimpleGraph.Reachable.refl entry)
  rw [List.length_eq_zero_iff, Finset.card_eq_one]
  constructor
  · intro hnil
    refine ⟨entry, Finset.eq_singleton_iff_unique_mem.2 ⟨hentry, fun p hp => ?_⟩⟩
    have hreach := (hreached p).1 hp
    rw [SimpleGraph.reachable_iff_reflTransGen] at hreach
    rcases hreach.cases_head with heq | ⟨r, hadj, -⟩
    · exact heq.symm
    · have hmem := hlinked.adj_iff.1 hadj
      rw [hnil] at hmem
      cases hmem
  · rintro ⟨a, ha⟩
    rw [List.eq_nil_iff_forall_not_mem]
    intro r hr
    have hmem : r ∈ reached := (hreached r).2 (hlinked.adj_iff.2 hr).reachable
    rw [ha, Finset.mem_singleton] at hentry hmem
    rw [hentry, hmem] at hr
    exact hlinked.not_mem_neighborsOf_self hr

/-- All peers reached send on as many copies as they have links, less one for every peer but
    the entry, and one more for those that have nobody to send to. -/
theorem sum_branches (hlinked : net.Linked)
    (hreached : ∀ p, p ∈ reached ↔ net.graph.Reachable entry p) :
    (∑ p ∈ reached, (net.branches entry p : ℤ)) =
      ∑ p ∈ reached, ((net.neighborsOf p).length : ℤ) - (reached.card - 1) +
        (reached.filter fun p => p ≠ entry ∧ (net.neighborsOf p).length = 1).card +
        if reached.card = 1 then 1 else 0 := by
  have hentry : entry ∈ reached := (hreached entry).2 (SimpleGraph.Reachable.refl entry)
  have hbranches : ∀ p ∈ reached, (net.branches entry p : ℤ) =
      (net.neighborsOf p).length - 1 +
        (if p ≠ entry ∧ (net.neighborsOf p).length = 1 then 1 else 0) +
        if p = entry then (1 + if reached.card = 1 then 1 else 0) else 0 := by
    intro p hp
    rw [branches]
    by_cases he : p = entry
    · have hzero := length_neighborsOf_eq_zero_iff hlinked hreached
      subst he
      by_cases hcard : reached.card = 1
      · have hlength := hzero.2 hcard
        simp [hlength, hcard]
      · have hlength := mt hzero.1 hcard
        simp only [ne_eq, not_true_eq_false, false_and, if_true, if_false, hcard]
        omega
    · have hpos := length_neighborsOf_pos hlinked ((hreached p).1 hp) he
      simp only [ne_eq, he, not_false_eq_true, true_and, if_false]
      split_ifs with hone <;> omega
  rw [Finset.sum_congr rfl hbranches, Finset.sum_add_distrib, Finset.sum_add_distrib,
    Finset.sum_sub_distrib, Finset.sum_boole, Finset.sum_ite_eq' reached entry, if_pos hentry,
    Finset.sum_const, nsmul_eq_mul, mul_one]
  ring

/-- The replies to a flood that has come to its end. -/
theorem FloodState.length_received {ds : List Delivery} (h : net.FloodState entry x ds)
    (hlinked : net.Linked)
    (hreached : ∀ p, p ∈ net.handlers x ds ↔ net.graph.Reachable entry p)
    (hdone : copies x (net.afterAll ds).flight = []) :
    ((copies x (net.received ds)).length : ℤ) =
      ∑ p ∈ net.handlers x ds, ((net.neighborsOf p).length : ℤ) -
        2 * (net.handlers x ds).card + 2 +
        ((net.handlers x ds).filter fun p => p ≠ entry ∧ (net.neighborsOf p).length = 1).card +
        if (net.handlers x ds).card = 1 then 1 else 0 := by
  have hcount := congrArg (Nat.cast (R := ℤ)) h.count
  rw [hdone, List.length_nil, zero_add] at hcount
  push_cast at hcount
  rw [sum_branches hlinked hreached] at hcount
  linarith

end

section
variable {net : Network} {entry : PeerAddress} {q : Query} {now : Nat} {ds : List Delivery}

/-- A flood that has just been injected is on its way to the entry. -/
theorem floodState_start (hfresh : net.Fresh q.id) (hsender : q.sender ∉ net.neighborsOf entry) :
    (net.start entry .flood q now).FloodState entry q.id [] := by
  refine ⟨⟨fun p hp => absurd hp (Finset.notMem_empty p), ?_, ?_⟩, ?_⟩
  · intro m hm q' hq'
    rcases List.mem_append.1 hm with hm | hm
    · refine absurd (Envelope.isSome_copyOf?_iff.1 ?_) (hfresh.flight m hm)
      rw [hq', Option.isSome_some]
    · rw [List.mem_singleton] at hm
      subst hm
      rw [Envelope.copyOf?_query] at hq'
      cases hq'
      exact Or.inr (Or.inl ⟨rfl, hsender⟩)
  · rintro p (rfl | ⟨r, hr, -⟩)
    · refine Or.inr ⟨⟨p, .query .flood q⟩, ?_, rfl, ?_⟩
      · exact List.mem_append_right _ (List.mem_singleton_self _)
      · rw [Envelope.copyOf?_query]
        rfl
    · exact absurd hr (Finset.notMem_empty r)
  · rw [afterAll_nil, copies_start hfresh]
    rfl

/-- **A flood without a limit covers the component of its entry.**  It comes from outside:
    its sender, the registry as a rule, is no neighbour of the entry.  Once no copy is in
    flight any more, exactly the peers connected to the entry have contributed, each of
    them once.  With `m` links between the `n` peers of the component, `l` of which have
    one neighbour and are not the entry, the registry has received `2 * (m - n + 1) + l`
    replies, and one if the entry is alone. -/
theorem flood_covers_component (hlinked : net.Linked)
    (hnodup : ∀ n ∈ net.nodes, n.neighbors.Nodup) (hentry : entry ∈ net.peers)
    (hfresh : net.Fresh q.id) (hlimit : q.limit = Query.unlimited)
    (horiginator : q.originator = net.registry) (hsender : q.sender ∉ net.neighborsOf entry)
    (hlogs : (net.start entry .flood q now).LogsSuffice ds)
    (hdone : copies q.id ((net.start entry .flood q now).afterAll ds).flight = []) :
    (∀ n ∈ ((net.start entry .flood q now).afterAll ds).nodes,
        (net.graph.Reachable entry n.engine.identity → n.engine.contributions.count q.id = 1) ∧
        (¬ net.graph.Reachable entry n.engine.identity →
          n.engine.contributions.count q.id = 0)) ∧
      let C := net.graph.connectedComponentMk entry
      let n : ℤ := C.supp.ncard
      let m : ℤ := C.toSimpleGraph.edgeSet.ncard
      let l : ℤ := {p ∈ C.supp | p ≠ entry ∧ (net.neighborsOf p).length = 1}.ncard
      ((copies q.id ((net.start entry .flood q now).received ds)).length : ℤ) =
        2 * (m - n + 1) + l + if n = 1 then 1 else 0 := by
  have hlinked' : (net.start entry .flood q now).Linked :=
    ⟨hlinked.distinct, hlinked.registry, hlinked.irrefl, hlinked.symm⟩
  have hpeer : (net.start entry .flood q now).IsPeer entry := by
    refine ⟨?_, isSome_node?_iff.2 hentry⟩
    intro he
    exact hlinked'.registry (he ▸ hentry)
  have hstate := floodState_afterAll hlinked' hnodup hpeer hlimit horiginator
    (isHop_start hfresh) hfresh.queries hfresh.contributions hlogs
    (floodState_start hfresh hsender)
  have hreached : ∀ p, p ∈ (net.start entry .flood q now).handlers q.id ds ↔
      net.graph.Reachable entry p := fun p => hstate.spread.mem_iff_reachable hlinked' hdone
  constructor
  · intro n hn
    have hpeers := peers_afterAll (net.start entry .flood q now) ds
    have hnode := node?_of_mem (hpeers ▸ hlinked'.distinct) hn
    have hreg : n.engine.identity ≠ (net.start entry .flood q now).registry := by
      intro he
      refine hlinked'.registry ?_
      rw [← he, ← hpeers]
      exact List.mem_map.2 ⟨n, hn, rfl⟩
    have hcount := count_contributions hfresh hlogs hreg hnode
    constructor
    · intro hreach
      rw [hcount, if_pos ((hreached _).2 hreach)]
    · intro hreach
      rw [hcount, if_neg (mt (hreached _).1 hreach)]
  · intro C n m l
    have hreplies := hstate.length_received hlinked' hreached hdone
    set reached := (net.start entry .flood q now).handlers q.id ds
    have hsupp : ∀ p, p ∈ reached ↔ p ∈ C.supp := by
      intro p
      rw [hreached, SimpleGraph.ConnectedComponent.mem_supp_iff,
        SimpleGraph.ConnectedComponent.eq]
      exact SimpleGraph.reachable_comm
    have hn : (reached.card : ℤ) = n := by
      have hset : C.supp = reached := Set.ext fun p => (hsupp p).symm
      simp only [n, hset, Set.ncard_coe_finset]
    have hl : ((reached.filter fun p => p ≠ entry ∧ (net.neighborsOf p).length = 1).card : ℤ) =
        l := by
      have hset : {p ∈ C.supp | p ≠ entry ∧ (net.neighborsOf p).length = 1} =
          reached.filter fun p => p ≠ entry ∧ (net.neighborsOf p).length = 1 := by
        ext p
        simp [hsupp]
      simp only [l, hset, Set.ncard_coe_finset]
    have hm : (∑ p ∈ reached, ((net.neighborsOf p).length : ℤ)) = 2 * m := by
      rw [← Nat.cast_sum, sum_length_neighborsOf hlinked hnodup C hsupp]
      push_cast
      rfl
    calc ((copies q.id ((net.start entry .flood q now).received ds)).length : ℤ)
        = 2 * m - 2 * n + 2 + l + if n = 1 then 1 else 0 := by
          simp only [← hn, ← hm, ← hl, Nat.cast_eq_one]
          exact hreplies
      _ = 2 * (m - n + 1) + l + if n = 1 then 1 else 0 := by ring

end

open Sample in
/-- A flood through the peers that are linked, which does not come to the one that is not. -/
theorem flood_covers_component_kite :
    kite.Linked ∧ (∀ n ∈ kite.nodes, n.neighbors.Nodup) ∧ peer 1 ∈ kite.peers ∧
      kite.Fresh (query (-1)).id ∧ (query (-1)).limit = Query.unlimited ∧
      (query (-1)).originator = kite.registry ∧
      (query (-1)).sender ∉ kite.neighborsOf (peer 1) ∧ flooded.LogsSuffice (inOrder 9) ∧
      copies (query (-1)).id (flooded.afterAll (inOrder 9)).flight = [] ∧
      (∀ n ∈ (flooded.afterAll (inOrder 9)).nodes,
        (kite.graph.Reachable (peer 1) n.engine.identity →
          n.engine.contributions.count (query (-1)).id = 1) ∧
        (¬ kite.graph.Reachable (peer 1) n.engine.identity →
          n.engine.contributions.count (query (-1)).id = 0)) ∧
      let C := kite.graph.connectedComponentMk (peer 1)
      let n : ℤ := C.supp.ncard
      let m : ℤ := C.toSimpleGraph.edgeSet.ncard
      let l : ℤ := {p ∈ C.supp | p ≠ peer 1 ∧ (kite.neighborsOf p).length = 1}.ncard
      ((copies (query (-1)).id (flooded.received (inOrder 9))).length : ℤ) =
        2 * (m - n + 1) + l + if n = 1 then 1 else 0 := by
  have hlinked : kite.Linked :=
    ⟨by decide +kernel, by decide +kernel, by decide +kernel, by decide +kernel⟩
  have hnodup : ∀ n ∈ kite.nodes, n.neighbors.Nodup := by decide +kernel
  have hentry : peer 1 ∈ kite.peers := by decide +kernel
  have hfresh : kite.Fresh (query (-1)).id := fresh_query (-1)
  have hsender : (query (-1)).sender ∉ kite.neighborsOf (peer 1) := by decide +kernel
  exact ⟨hlinked, hnodup, hentry, hfresh, rfl, rfl, hsender, logsSuffice_flooded, copies_flooded,
    flood_covers_component hlinked hnodup hentry hfresh rfl rfl hsender logsSuffice_flooded
      copies_flooded⟩

end Network

end OverlayCensus
