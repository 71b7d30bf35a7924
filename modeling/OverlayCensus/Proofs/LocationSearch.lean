/-
  OverlayCensus — a query sent to all peers that are known to have its metric.

  When the location tables tell the truth (`Located`), the first peer sends the query to
  everyone it is for, and these send it to each other.  From the first delivery on, a peer
  that the query is for has been reached, or a copy is on its way to it (`Search`), and
  every copy is for such a peer or for the registry, so nothing is lost.

  * `located_afterAll`: the tables stay as they are during every run;
  * `located_exchange`: an exchange leaves such tables behind;
  * `searchState_afterAll`: how a search proceeds, and what it has counted so far;
  * `location_query_counts_once`: what the registry receives in the end.
-/
import Mathlib
import OverlayCensus.Proofs.Account
import OverlayCensus.Proofs.AntiEntropy
import OverlayCensus.Proofs.GossipSending

namespace OverlayCensus

theorem Query.mayForward_of_two_le {q : Query} (hhop : q.hop = 0) (hlimit : 2 ≤ q.limit) :
    q.mayForward = true := by
  have hone : Int32.satAdd 0 1 = 1 := by decide
  rw [mayForward, hhop, hone, decide_eq_true_eq, Int32.lt_iff_toInt_lt]
  exact Int.lt_of_lt_of_le (by decide) (Int32.le_iff_toInt_le.1 hlimit)

namespace Network

/-! ## Tables that tell the truth -/

/-- Every peer knows exactly the locations of the peers connected to it, and no gossip in
    flight says anything else. -/
structure Located (net : Network) : Prop where
  tables : ∀ p n, net.node? p = some n → ∀ l, l ∈ n.engine.locations.entries ↔
    net.Holds p (.location l)
  gossip : ∀ m ∈ net.flight, ∀ l, m.message.Teaches (.location l) →
    net.Holds m.receiver (.location l)

section
variable {net : Network}

theorem Located.after (h : net.Located) (d : Delivery) : (net.after d).Located := by
  cases hm : net.flight[d.index]? with
  | none => rw [after_of_none hm]; exact h
  | some m =>
    have hold : ∀ m' ∈ (net.without d.index).flight, m' ∈ net.flight :=
      fun m' hm' => List.mem_of_mem_eraseIdx hm'
    have hlater := later_after net d
    have hstep := step_after hm
    generalize net.after d = next at hlater hstep
    cases hstep with
    | observed | lost | refused => exact ⟨h.tables, fun m' hm' => h.gossip m' (hold m' hm')⟩
    | @handled n r _ hn hr =>
      obtain ⟨hsame, hnone⟩ := Engine.locations_of_handle hr fun l hl =>
        (h.tables _ n hn l).2 (h.gossip m (List.mem_of_getElem? hm) l hl)
      constructor
      · intro p n' hn' l
        rw [hlater.holds_iff]
        rw [node?_handled hn hr] at hn'
        split_ifs at hn' with hp
        · cases hn'
          rw [hp, hsame]
          exact h.tables _ n hn l
        · exact h.tables p n' hn' l
      · intro m' hm' l hl
        rw [hlater.holds_iff]
        rcases List.mem_append.1 hm' with hm' | hm'
        · exact h.gossip m' (hold m' hm') l hl
        · obtain ⟨p, hp, rfl⟩ := List.mem_map.1 hm'
          exact absurd hl (hnone p hp l)

theorem Located.start (h : net.Located) (entry : PeerAddress) (kind : QueryKind) (q : Query)
    (now : Nat) : (net.start entry kind q now).Located := by
  refine ⟨h.tables, fun m hm l hl => ?_⟩
  rcases List.mem_append.1 hm with hm | hm
  · exact h.gossip m hm l hl
  · rw [List.mem_singleton.1 hm] at hl
    exact hl.elim

/-- **Tables that tell the truth do so during every run.** -/
theorem located_afterAll (h : net.Located) (ds : List Delivery) :
    (net.afterAll ds).Located := by
  induction ds generalizing net with
  | nil => exact h
  | cons d ds ih => exact ih (h.after d)

/-- **An exchange that has come to its end** leaves tables that tell the truth. -/
theorem located_exchange (hlinked : net.Linked) (hsize : net.nodes.length < 2 ^ 32)
    (hseeded : net.Seeded) {ds : List Delivery} (hdone : (net.exchange.afterAll ds).flight = []) :
    (net.exchange.afterAll ds).Located := by
  have hstate := exchanging_afterAll hlinked hsize (exchanging_exchange hlinked hseeded) ds
  constructor
  · intro p n hn l
    rw [hstate.later.holds_iff, ← hstate.knownAt_iff_holds hlinked hdone]
    simp [KnownAt, hn, Engine.Knows]
  · rw [hdone]
    intro m hm
    cases hm

end

/-! ## A search on its way -/

/-- A peer that a query for a metric is for: it is the entry, or it is connected to the
    entry and has the metric. -/
def Sought (net : Network) (entry : PeerAddress) (metric : String) (p : PeerAddress) : Prop :=
  p = entry ∨ net.Holds entry (.location ⟨p, metric⟩)

/-- A query has reached some of the peers that it is for.  Its copies in flight go to the
    registry or to such peers.  It starts at the entry, and from then on everyone it is for
    has been reached or awaits a copy. -/
structure Search (net : Network) (entry : PeerAddress) (q : Query) (reached : Finset PeerAddress)
    (flight : List Envelope) : Prop where
  found : ∀ p ∈ reached, net.Sought entry q.metric p
  sent : ∀ m ∈ flight, (m.copyOf? q.id).isSome →
    m.receiver = net.registry ∨ net.Sought entry q.metric m.receiver
  begun : entry ∉ reached → ∀ m ∈ flight, ∀ q' ∈ m.copyOf? q.id, m.receiver = entry ∧ q' = q
  awaited : ∀ p, p = entry ∨ (entry ∈ reached ∧ net.Sought entry q.metric p) →
    p ∈ reached ∨ ∃ m ∈ flight, m.receiver = p ∧ (m.copyOf? q.id).isSome

section
variable {net : Network} {entry p : PeerAddress} {q : Query} {reached : Finset PeerAddress}
  {flight rest sent : List Envelope} {m : Envelope}

theorem Sought.mem_peers (hentry : entry ∈ net.peers) {metric : String}
    (h : net.Sought entry metric p) : p ∈ net.peers := by
  rcases h with rfl | ⟨-, hname⟩
  · exact hentry
  · exact mem_peers_of_mem_namesOf hname

namespace Search

theorem perm (h : net.Search entry q reached flight) (hp : flight.Perm rest) :
    net.Search entry q reached rest where
  found := h.found
  sent m hm := h.sent m (hp.mem_iff.2 hm)
  begun hentry m hm := h.begun hentry m (hp.mem_iff.2 hm)
  awaited p hpr := (h.awaited p hpr).imp_right fun ⟨m, hm, hrest⟩ => ⟨m, hp.mem_iff.1 hm, hrest⟩

/-- A message that no peer handles as a copy changes nothing. -/
theorem aside (h : net.Search entry q reached (m :: rest)) (hregistry : net.registry ∉ net.peers)
    (hentry : entry ∈ net.peers) (hm : m.copyOf? q.id = none ∨ ¬ net.IsPeer m.receiver)
    (hsent : copies q.id sent = []) : net.Search entry q reached (rest ++ sent) where
  found := h.found
  sent m' hm' hq := by
    rcases List.mem_append.1 hm' with hm' | hm'
    · exact h.sent m' (List.mem_cons_of_mem m hm') hq
    · rw [copies_eq_nil_iff.1 hsent m' hm'] at hq
      cases hq
  begun he m' hm' q' hq' := by
    rcases List.mem_append.1 hm' with hm' | hm'
    · exact h.begun he m' (List.mem_cons_of_mem m hm') q' hq'
    · rw [copies_eq_nil_iff.1 hsent m' hm'] at hq'
      cases hq'
  awaited p hp := by
    refine (h.awaited p hp).imp_right fun ⟨m', hm', hr, hc⟩ => ?_
    rcases List.mem_cons.1 hm' with rfl | hm'
    · rcases hm with hnone | hpeer
      · rw [hnone] at hc
        cases hc
      · have hsought : net.Sought entry q.metric p := hp.elim Or.inl And.right
        rw [hr] at hpeer
        exact absurd (isPeer_of_mem_peers hregistry (hsought.mem_peers hentry)) hpeer
    · exact ⟨m', List.mem_append_left _ hm', hr, hc⟩

/-- A peer that handles a copy is reached.  If it is the entry, everyone else awaits what it
    sends. -/
theorem handled (h : net.Search entry q reached (m :: rest)) {q' : Query}
    (hq' : m.copyOf? q.id = some q') (hpeer : net.IsPeer m.receiver)
    (hsent : ∀ m' ∈ sent, m'.receiver = net.registry ∨ net.Sought entry q.metric m'.receiver)
    (hall : m.receiver = entry → entry ∉ reached → q' = q →
      ∀ p, p ≠ entry → net.Sought entry q.metric p →
        ∃ m' ∈ sent, m'.receiver = p ∧ (m'.copyOf? q.id).isSome) :
    net.Search entry q (insert m.receiver reached) (rest ++ sent) := by
  have hsome : (m.copyOf? q.id).isSome := by rw [hq']; rfl
  have hsought := (h.sent m List.mem_cons_self hsome).resolve_left hpeer.1
  have hstart : entry ∉ reached → m.receiver = entry ∧ q' = q := fun he =>
    h.begun he m List.mem_cons_self q' hq'
  constructor
  case found =>
    intro p hp
    rcases Finset.mem_insert.1 hp with rfl | hp
    · exact hsought
    · exact h.found p hp
  case sent =>
    intro m' hm' hc
    rcases List.mem_append.1 hm' with hm' | hm'
    · exact h.sent m' (List.mem_cons_of_mem m hm') hc
    · exact hsent m' hm'
  case begun =>
    intro he
    rw [Finset.mem_insert, not_or] at he
    exact absurd (hstart he.2).1.symm he.1
  case awaited =>
    intro p hp
    by_cases hold : p = entry ∨ (entry ∈ reached ∧ net.Sought entry q.metric p)
    · rcases h.awaited p hold with hp | ⟨m', hm', hr, hc⟩
      · exact Or.inl (Finset.mem_insert_of_mem hp)
      · rcases List.mem_cons.1 hm' with rfl | hm'
        · exact Or.inl (hr ▸ Finset.mem_insert_self _ _)
        · exact Or.inr ⟨m', List.mem_append_left _ hm', hr, hc⟩
    · -- only the entry, when it is reached, makes others wait
      rw [not_or] at hold
      have hsought' := (hp.resolve_left hold.1).2
      have he : entry ∉ reached := fun he => hold.2 ⟨he, hsought'⟩
      obtain ⟨hr, hq⟩ := hstart he
      obtain ⟨m', hm', hr', hc⟩ := hall hr he hq p hold.1 hsought'
      exact Or.inr ⟨m', List.mem_append_right _ hm', hr', hc⟩

/-- Once no copy is in flight, everyone that the query is for has been reached. -/
theorem mem_iff_sought (h : net.Search entry q reached flight)
    (hdone : copies q.id flight = []) : p ∈ reached ↔ net.Sought entry q.metric p := by
  have hclosed : ∀ p, p = entry ∨ (entry ∈ reached ∧ net.Sought entry q.metric p) →
      p ∈ reached := by
    intro p hp
    refine (h.awaited p hp).resolve_right ?_
    rintro ⟨m, hm, -, hc⟩
    rw [copies_eq_nil_iff.1 hdone m hm] at hc
    cases hc
  exact ⟨h.found p, fun hp => hclosed p (Or.inr ⟨hclosed entry (Or.inl rfl), hp⟩)⟩

end Search

end

/-! ## Whole runs -/

section
variable {net : Network} {entry p : PeerAddress} {q : Query} {ds : List Delivery} {d : Delivery}
  {m : Envelope}

/-- The state of a search during a run: how far it has come, and that the totals in flight
    and at the registry are the shares of the peers reached. -/
structure SearchState (net : Network) (entry : PeerAddress) (q : Query) (ds : List Delivery) :
    Prop where
  search : net.Search entry q (net.handlers q.id ds) (net.afterAll ds).flight
  account : (net.afterAll ds).account q.id = net.shares q.id q.metric ds

/-- Whom a peer that the query is for sends it to. -/
theorem receiver_of_search (hlocated : net.Located) {n : Node}
    (hn : (net.afterAll ds).node? p = some n) (hsought : net.Sought entry q.metric p)
    {q' : Query} (hhop : q'.IsHopOf q) {parcel : Parcel}
    (hparcel : parcel ∈ (n.engine.onGossipQuery .gossipLocation q').2) :
    parcel.receiver = q.originator ∨ net.Sought entry q.metric parcel.receiver := by
  rw [← hhop.2.1]
  refine (Engine.receiver_gossip hparcel).imp_right fun ⟨_, _, hmem⟩ => ?_
  have hlocation := LocationTable.mem_holdersOf.1 (Engine.mem_targets.1 hmem).1
  rw [hhop.2.2.1] at hlocation
  have hholds := ((located_afterAll hlocated ds).tables p n hn _).1 hlocation
  rw [(later_afterAll net ds).holds_iff] at hholds
  rcases hsought with rfl | ⟨hreach, -⟩
  · exact Or.inr hholds
  · exact Or.inr ⟨hreach.trans hholds.1, hholds.2⟩

/-- The entry sends the query to everyone else it is for. -/
theorem exists_sent_of_entry (hlocated : net.Located) {n : Node}
    (hn : (net.afterAll ds).node? entry = some n) (hnew : n.engine.IsNew q)
    (hforward : q.mayForward = true) (hsender : q.sender ∉ net.peers) (hne : p ≠ entry)
    (hsought : net.Sought entry q.metric p) :
    ∃ parcel ∈ (n.engine.onGossipQuery .gossipLocation q).2, parcel.receiver = p := by
  have hholds := hsought.resolve_left hne
  have hlocation := hholds
  rw [← (later_afterAll net ds).holds_iff,
    ← (located_afterAll hlocated ds).tables entry n hn] at hlocation
  have hmem : p ∈ n.engine.targets q (n.engine.named .gossipLocation q) := by
    refine Engine.mem_targets.2 ⟨LocationTable.mem_holdersOf.2 hlocation, ?_, ?_⟩
    · rwa [identity_of_node? hn]
    · rintro rfl
      exact hsender (mem_peers_of_mem_namesOf hholds.2)
  have hreceivers := Engine.receivers_of_new_gossip .gossipLocation hnew hforward
  rw [if_neg (List.ne_nil_of_mem hmem)] at hreceivers
  rw [← hreceivers] at hmem
  obtain ⟨parcel, hparcel, hr⟩ := List.mem_map.1 hmem
  exact ⟨parcel, hparcel, hr⟩

/-- A message that no peer handles as a copy is not lost if it is one. -/
theorem Search.carried_lost {reached : Finset PeerAddress} {flight : List Envelope}
    (h : net.Search entry q reached flight) (hentry : entry ∈ net.peers) (hm : m ∈ flight) :
    carried q.id ([m].filter net.isLost) = 0 := by
  refine carried_of_copies_eq_nil (copies_eq_nil_iff.2 fun m' hm' => ?_)
  obtain ⟨hmem, hlost⟩ := List.mem_filter.1 hm'
  rw [List.mem_singleton] at hmem
  subst hmem
  by_contra hcopy
  simp only [isLost, ne_eq, decide_eq_true_eq] at hlost
  have hsought := (h.sent m' hm (Option.isSome_iff_ne_none.2 hcopy)).resolve_left hlost.1
  have hsome := isSome_node?_iff.2 (hsought.mem_peers hentry)
  rw [Option.isNone_iff_eq_none.1 hlost.2] at hsome
  cases hsome

/-- A delivery that no peer handles as a copy keeps the state of a search. -/
theorem SearchState.aside (h : net.SearchState entry q ds)
    (hregistry : net.registry ∉ net.peers) (hentry : entry ∈ net.peers)
    (hm : (net.afterAll ds).flight[d.index]? = some m)
    (hkept : m.copyOf? q.id = none ∨ ¬ net.IsPeer m.receiver) {sent : List Envelope}
    (hflight : (net.afterAll (ds ++ [d])).flight =
      ((net.afterAll ds).without d.index).flight ++ sent) (hsent : copies q.id sent = [])
    (hresults : (net.afterAll (ds ++ [d])).results.totals q.id =
      (net.afterAll ds).results.totals q.id +
        if m.receiver = (net.afterAll ds).registry then carried q.id [m] else 0) :
    net.SearchState entry q (ds ++ [d]) := by
  have hlater := later_afterAll net ds
  constructor
  · rw [handlers_append_of_ne hm hkept, hflight]
    exact (h.search.perm (perm_flight hm)).aside hregistry hentry hkept hsent
  · have hkept' := hkept
    rw [← isPeer_congr hlater] at hkept'
    have haccount := account_aside hm hkept' hflight hsent hresults
    have hisLost : (net.afterAll ds).isLost = net.isLost := funext fun m => isLost_congr hlater m
    rw [hisLost, h.search.carried_lost hentry (List.mem_of_getElem? hm), add_zero,
      h.account] at haccount
    rw [haccount, shares, shares, handlers_append_of_ne hm hkept]

/-- A peer that handles a copy keeps the state of a search. -/
theorem SearchState.handled (h : net.SearchState entry q ds) (hlocated : net.Located)
    (hforward : q.mayForward = true) (horiginator : q.originator = net.registry)
    (hsender : q.sender ∉ net.peers) (hm : (net.afterAll ds).flight[d.index]? = some m)
    (hpeer : net.IsPeer m.receiver) {n : Node}
    (hn : (net.afterAll ds).node? m.receiver = some n) {q' : Query}
    (hk : m.message = .query .gossipLocation q') (hhop : q'.IsHopOf q)
    (hnew : n.engine.IsNew q' ↔ m.receiver ∉ net.handlers q.id ds)
    (hfits : n.engine.IsNew q' → n.engine.Fits q') {r : Engine × List Parcel}
    (hr : n.engine.onGossipQuery .gossipLocation q' = r)
    (hflight : (net.afterAll (ds ++ [d])).flight =
      ((net.afterAll ds).without d.index).flight ++ r.2.map Parcel.envelope)
    (hresults : (net.afterAll (ds ++ [d])).results = (net.afterAll ds).results)
    (hshares : net.shares q.id q.metric (ds ++ [d]) =
      net.shares q.id q.metric ds + n.engine.gain q') :
    net.SearchState entry q (ds ++ [d]) := by
  have hsearch := h.search.perm (perm_flight hm)
  have hq' : m.copyOf? q.id = some q' :=
    Envelope.copyOf?_eq_some_iff.2 ⟨⟨.gossipLocation, hk⟩, hhop.1⟩
  have hh : n.engine.Handled .gossipLocation q' r :=
    hr ▸ Engine.handled_onGossipQuery (by simp)
  have hsome : (m.copyOf? q.id).isSome := by rw [hq']; rfl
  have hsought := (hsearch.sent m List.mem_cons_self hsome).resolve_left hpeer.1
  constructor
  · rw [handlers_append_of_copy hm hq' hpeer, hflight]
    refine hsearch.handled hq' hpeer ?_ ?_
    · intro m' hm'
      obtain ⟨parcel, hparcel, rfl⟩ := List.mem_map.1 hm'
      rw [← hr] at hparcel
      rw [← horiginator]
      exact receiver_of_search hlocated hn hsought hhop hparcel
    · rintro rfl hfirst rfl p hne hp
      obtain ⟨parcel, hparcel, rfl⟩ :=
        exists_sent_of_entry hlocated hn (hnew.2 hfirst) hforward hsender hne hp
      rw [hr] at hparcel
      exact ⟨parcel.envelope, List.mem_map_of_mem hparcel, rfl, hh.isSome_copyOf? hparcel⟩
  · have haccount := account_handled hm hq' hflight hresults
    have hcarried := hh.carried_eq (by simp) hfits
    rw [hhop.1] at hcarried
    rw [hcarried, h.account] at haccount
    rw [hshares]
    refine add_right_cancel (haccount.trans ?_)
    abel

end

section
variable {net : Network} {entry p : PeerAddress} {q : Query} {now : Nat} {ds : List Delivery}

/-- A search that has just been injected is on its way to the entry. -/
theorem searchState_start (hfresh : net.Fresh q.id) (hzero : q.totals = 0) :
    (net.start entry .gossipLocation q now).SearchState entry q [] := by
  have hcopy : ∀ m ∈ (net.start entry .gossipLocation q now).flight, ∀ q' ∈ m.copyOf? q.id,
      m.receiver = entry ∧ q' = q := by
    intro m hm q' hq'
    rcases List.mem_append.1 hm with hm | hm
    · refine absurd (Envelope.isSome_copyOf?_iff.1 ?_) (hfresh.flight m hm)
      rw [hq', Option.isSome_some]
    · rw [List.mem_singleton] at hm
      subst hm
      rw [Envelope.copyOf?_query] at hq'
      cases hq'
      exact ⟨rfl, rfl⟩
  constructor
  · constructor
    case found => exact fun p hp => absurd hp (Finset.notMem_empty p)
    case sent =>
      intro m hm hc
      obtain ⟨q', hq'⟩ := Option.isSome_iff_exists.1 hc
      exact Or.inr (Or.inl (hcopy m hm q' hq').1)
    case begun => exact fun _ => hcopy
    case awaited =>
      rintro p (rfl | ⟨he, -⟩)
      · refine Or.inr ⟨⟨p, .query .gossipLocation q⟩, ?_, rfl, ?_⟩
        · exact List.mem_append_right _ (List.mem_singleton_self _)
        · rw [Envelope.copyOf?_query]
          rfl
      · exact absurd he (Finset.notMem_empty entry)
  · rw [afterAll_nil, account_start hfresh, hzero, shares_nil]

/-- **How a search proceeds**, from its first delivery to its last. -/
theorem searchState_afterAll (hregistry : net.registry ∉ net.peers) (hlocated : net.Located)
    (hentry : entry ∈ net.peers) (hfresh : net.Fresh q.id) (hforward : q.mayForward = true)
    (horiginator : q.originator = net.registry) (hsender : q.sender ∉ net.peers)
    (hzero : q.totals = 0) (hlogs : (net.start entry .gossipLocation q now).LogsSuffice ds)
    (hfit : (net.start entry .gossipLocation q now).TotalsFit q.id ds) :
    (net.start entry .gossipLocation q now).SearchState entry q ds := by
  have hlocated' := hlocated.start entry .gossipLocation q now
  induction ds using List.reverseRecOn with
  | nil => exact searchState_start hfresh hzero
  | append_singleton ds d ih =>
    obtain ⟨hfit, hnext⟩ := along_append_singleton.1 hfit
    have ih := ih hlogs.of_append_singleton hfit
    have hlater := later_afterAll (net.start entry .gossipLocation q now) ds
    have hafter := afterAll_append_singleton (net.start entry .gossipLocation q now) ds d
    cases hm : ((net.start entry .gossipLocation q now).afterAll ds).flight[d.index]? with
    | none =>
      constructor
      · rw [afterAll_append_of_none hm, handlers, delivered_append_of_none hm]
        exact ih.search
      · rw [afterAll_append_of_none hm, shares, handlers, delivered_append_of_none hm]
        exact ih.account
    | some m =>
      cases copyStep (x := q.id) (step_after hm) with
      | aside sent hkept hflight hsent hresults =>
        rw [← hafter] at hflight hresults
        rw [isPeer_congr hlater] at hkept
        exact ih.aside hregistry hentry hm hkept hflight hsent hresults
      | @handled n kind q' r hpeer hn hk hid hr hflight hresults =>
        rw [← hafter] at hflight hresults
        have hq' : m.copyOf? q.id = some q' :=
          Envelope.copyOf?_eq_some_iff.2 ⟨⟨kind, hk⟩, hid⟩
        have hshares := sum_handlers_append hfresh hlogs.of_append_singleton hm hq' hpeer hn
        rw [isPeer_congr hlater] at hpeer
        obtain ⟨rfl, hhop⟩ :=
          (isHop_afterAll (isHop_start hfresh) ds).1 m (List.mem_of_getElem? hm) kind q' hk hid
        have hnew := isNew_iff_not_mem_handlers hfresh hlogs.of_append_singleton hpeer hn hid
        exact ih.handled hlocated' hforward horiginator hsender hm hpeer hn hk hhop hnew
          (hnext m hm n hn q' hq') hr hflight hresults hshares

theorem mem_namesOf_of_share_ne_zero {metric : String}
    (hmetrics : ∀ n ∈ net.nodes, 0 < n.engine.metrics.metricCount metric →
      metric ∈ n.engine.metrics.metricNames)
    (hcount : (net.share metric p).2 ≠ 0) : metric ∈ net.namesOf p := by
  cases hn : net.node? p with
  | none => simp [share, hn] at hcount
  | some n =>
    rw [share_eq hn, Metrics.share, Int.natCast_ne_zero] at hcount
    rw [namesOf_eq hn]
    exact hmetrics n (mem_of_node? hn) (Nat.pos_of_ne_zero hcount)

open Classical in
/-- **A query to all locations counts every device once.**  The location tables tell the
    truth, and every peer that counts devices for the metric has it among its own.  The
    query comes from outside and may make two hops.  Once no copy is in flight any more, the
    registry has received the devices of the entry and of all peers connected to it that
    have the metric, and the counts of the metric of all peers connected to the entry. -/
theorem location_query_counts_once (hregistry : net.registry ∉ net.peers)
    (hlocated : net.Located)
    (hmetrics : ∀ n ∈ net.nodes, 0 < n.engine.metrics.metricCount q.metric →
      q.metric ∈ n.engine.metrics.metricNames)
    (hentry : entry ∈ net.peers) (hfresh : net.Fresh q.id) (hhop : q.hop = 0)
    (hlimit : 2 ≤ q.limit) (horiginator : q.originator = net.registry)
    (hsender : q.sender ∉ net.peers) (hzero : q.totals = 0)
    (hlogs : (net.start entry .gossipLocation q now).LogsSuffice ds)
    (hfit : (net.start entry .gossipLocation q now).TotalsFit q.id ds)
    (hdone : copies q.id ((net.start entry .gossipLocation q now).afterAll ds).flight = []) :
    let component := {p ∈ net.peers.toFinset | net.graph.Reachable entry p}
    ((net.start entry .gossipLocation q now).afterAll ds).results.totals q.id =
      (∑ p ∈ component with p = entry ∨ q.metric ∈ net.namesOf p, (net.share q.metric p).1,
        ∑ p ∈ component, (net.share q.metric p).2) := by
  intro component
  have hforward := q.mayForward_of_two_le hhop hlimit
  have hstate := searchState_afterAll hregistry hlocated hentry hfresh hforward horiginator hsender
    hzero hlogs hfit
  have hhandlers : (net.start entry .gossipLocation q now).handlers q.id ds =
      component.filter fun p => p = entry ∨ q.metric ∈ net.namesOf p := by
    ext p
    rw [hstate.search.mem_iff_sought hdone, Finset.mem_filter, Finset.mem_filter,
      List.mem_toFinset]
    constructor
    · intro hp
      refine ⟨⟨hp.mem_peers hentry, ?_⟩, hp.imp_right And.right⟩
      rcases hp with rfl | ⟨hreach, -⟩
      · exact SimpleGraph.Reachable.refl p
      · exact hreach
    · rintro ⟨⟨-, hreach⟩, hp⟩
      exact hp.imp_right fun hname => ⟨hreach, hname⟩
  have haccount := hstate.account
  rw [account, carried_of_copies_eq_nil hdone, zero_add] at haccount
  rw [haccount, shares, hhandlers]
  refine Prod.ext Prod.fst_sum (Prod.snd_sum.trans ?_)
  refine Finset.sum_filter_of_ne fun p _ hcount => Or.inr ?_
  exact mem_namesOf_of_share_ne_zero hmetrics hcount

end

end Network

namespace Sample

open Network

theorem located_told : told.Located := by
  have hkeys : ∀ l ∈ row.locations, ∀ l' ∈ row.locations, l.key = l'.key → l = l' := by
    decide +kernel
  have hseeded : row.Seeded :=
    ⟨rfl, engines_row, by decide +kernel, by decide +kernel, injOn_nameKey_row,
      fun l hl l' hl' => hkeys l hl l' hl'⟩
  have hdone : told.flight = [] := by decide +kernel
  rw [← afterAll_exchange_row] at hdone ⊢
  exact located_exchange linked_row (by decide) hseeded hdone

end Sample

namespace Network

open Classical Sample in
/-- The third peer of a row sends the query to the first, which has the metric. -/
theorem location_query_counts_once_row :
    told.registry ∉ told.peers ∧ told.Located ∧
      (∀ n ∈ told.nodes, 0 < n.engine.metrics.metricCount (query 3).metric →
        (query 3).metric ∈ n.engine.metrics.metricNames) ∧
      peer 3 ∈ told.peers ∧ told.Fresh (query 3).id ∧ (query 3).hop = 0 ∧ 2 ≤ (query 3).limit ∧
      (query 3).originator = told.registry ∧ (query 3).sender ∉ told.peers ∧
      (query 3).totals = 0 ∧
      (told.start (peer 3) .gossipLocation (query 3) 0).LogsSuffice (inOrder 4) ∧
      (told.start (peer 3) .gossipLocation (query 3) 0).TotalsFit (query 3).id (inOrder 4) ∧
      copies (query 3).id
        ((told.start (peer 3) .gossipLocation (query 3) 0).afterAll (inOrder 4)).flight = [] ∧
      let component := {p ∈ told.peers.toFinset | told.graph.Reachable (peer 3) p}
      ((told.start (peer 3) .gossipLocation (query 3) 0).afterAll (inOrder 4)).results.totals
          (query 3).id =
        (∑ p ∈ component with p = peer 3 ∨ (query 3).metric ∈ told.namesOf p,
            (told.share (query 3).metric p).1,
          ∑ p ∈ component, (told.share (query 3).metric p).2) := by
  have hregistry : told.registry ∉ told.peers := by decide +kernel
  have hmetrics : ∀ n ∈ told.nodes, 0 < n.engine.metrics.metricCount (query 3).metric →
      (query 3).metric ∈ n.engine.metrics.metricNames := by decide +kernel
  have hentry : peer 3 ∈ told.peers := by decide +kernel
  have hfresh : told.Fresh (query 3).id :=
    ⟨by decide +kernel, by decide +kernel, by decide +kernel, by decide +kernel⟩
  have horiginator : (query 3).originator = told.registry := by decide +kernel
  have hsender : (query 3).sender ∉ told.peers := by decide +kernel
  have hlogs : (told.start (peer 3) .gossipLocation (query 3) 0).LogsSuffice (inOrder 4) := by
    decide +kernel
  have hfit : (told.start (peer 3) .gossipLocation (query 3) 0).TotalsFit (query 3).id
      (inOrder 4) := by decide +kernel
  have hdone : copies (query 3).id
      ((told.start (peer 3) .gossipLocation (query 3) 0).afterAll (inOrder 4)).flight = [] := by
    decide +kernel
  exact ⟨hregistry, located_told, hmetrics, hentry, hfresh, rfl, by decide, horiginator, hsender,
    by decide, hlogs, hfit, hdone,
    location_query_counts_once hregistry located_told hmetrics hentry hfresh rfl (by decide)
      horiginator hsender (by decide) hlogs hfit hdone⟩

end Network

end OverlayCensus
