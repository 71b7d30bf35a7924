/-
  OverlayCensus — the account of a query's totals.

  The totals of a query are in flight, at the registry or lost with a message to an
  address that nobody has (`account`, `lost`).  A delivery moves them from one to
  another, and a peer that handles the query for the first time adds its share.

  * `CopyStep` lists what a delivery can do to a query, `account_aside` and
    `account_handled` what this does to the account;
  * `totals_conserved`: a random walk and a gossip query keep the account exact.
-/
import Mathlib
import OverlayCensus.Proofs.FreshQuery

namespace OverlayCensus

namespace Network

/-! ## The account -/

/-- The totals of a query in flight and those that the registry has added up. -/
def account (net : Network) (x : Uuid) : ℤ × ℤ :=
  carried x net.flight + net.results.totals x

/-- An address that a message reaches as a peer's. -/
def IsPeer (net : Network) (p : PeerAddress) : Prop :=
  p ≠ net.registry ∧ (net.node? p).isSome

instance (net : Network) : DecidablePred net.IsPeer := fun p =>
  inferInstanceAs (Decidable (p ≠ net.registry ∧ (net.node? p).isSome))

/-- Whether a message is addressed to nobody. -/
def isLost (net : Network) (m : Envelope) : Bool :=
  m.receiver ≠ net.registry ∧ (net.node? m.receiver).isNone

/-- The messages of a run that were addressed to nobody. -/
def lost (net : Network) (ds : List Delivery) : List Envelope :=
  (net.delivered ds).filter net.isLost

/-- The peers that have handled a query during a run. -/
def handlers (net : Network) (x : Uuid) (ds : List Delivery) : Finset PeerAddress :=
  (visited x (net.delivered ds)).filter net.IsPeer

/-- When the next message is a query that its addressee sees for the first time, the
    peer's devices fit into the totals. -/
def FitsAt (x : Uuid) (net : Network) (d : Delivery) : Prop :=
  ∀ m ∈ net.flight[d.index]?, ∀ n ∈ net.node? m.receiver, ∀ q ∈ m.copyOf? x,
    n.engine.IsNew q → n.engine.Fits q

instance (x : Uuid) (net : Network) (d : Delivery) : Decidable (FitsAt x net d) := by
  unfold FitsAt; infer_instance

/-- No total of a query passes a 32-bit bound during a run. -/
def TotalsFit (net : Network) (x : Uuid) (ds : List Delivery) : Prop :=
  Along (FitsAt x) net ds

instance (net : Network) (x : Uuid) (ds : List Delivery) : Decidable (net.TotalsFit x ds) :=
  inferInstanceAs (Decidable (Along (FitsAt x) net ds))

/-! ## One delivery -/

/-- What a delivery does to a query: a peer handles a copy of it, or else the copy, if the
    message is one, goes to the registry or is lost, and no copy is sent. -/
inductive CopyStep (x : Uuid) (net : Network) (d : Delivery) (m : Envelope) (net' : Network) :
    Prop
  | aside (sent : List Envelope) (kept : m.copyOf? x = none ∨ ¬ net.IsPeer m.receiver)
      (flight : net'.flight = (net.without d.index).flight ++ sent)
      (nothing : copies x sent = [])
      (results : net'.results.totals x =
        net.results.totals x + if m.receiver = net.registry then carried x [m] else 0)
  | handled {n : Node} {kind : QueryKind} {q : Query} {r : Engine × List Parcel}
      (peer : net.IsPeer m.receiver) (node : net.node? m.receiver = some n)
      (message : m.message = .query kind q) (id : q.id = x)
      (result : n.engine.onQuery n.neighbors d.pick kind q = r)
      (flight : net'.flight = (net.without d.index).flight ++ r.2.map Parcel.envelope)
      (results : net'.results = net.results)

theorem copyStep {net net' : Network} {d : Delivery} {m : Envelope} {x : Uuid}
    (h : net.Step d m net') : CopyStep x net d m net' := by
  cases h with
  | observed hreg =>
    refine .aside [] (Or.inr fun hp => hp.1 hreg) (List.append_nil _).symm rfl ?_
    rw [if_pos hreg]
    exact Results.totals_observeMessage _ _ _
  | lost hreg hnone =>
    refine .aside [] (Or.inr fun hp => ?_) (List.append_nil _).symm rfl ?_
    · rw [IsPeer, hnone] at hp
      simp at hp
    · rw [if_neg hreg, add_zero]
      rfl
  | refused hreg hn href =>
    refine .aside [] (Or.inl ?_) (List.append_nil _).symm rfl ?_
    · obtain ⟨p, msg⟩ := m
      cases msg with
      | query kind q => rw [Engine.handle_query] at href; cases href
      | _ => rfl
    · rw [if_neg hreg, add_zero]
      rfl
  | @handled n r hreg hn hr =>
    have hpeer : net.IsPeer m.receiver := ⟨hreg, by rw [hn]; rfl⟩
    cases hc : m.copyOf? x with
    | none =>
      refine .aside _ (Or.inl hc) rfl ?_ (by rw [if_neg hreg, add_zero]; rfl)
      rw [copies_eq_nil_iff]
      intro m' hm'
      obtain ⟨p, hp, rfl⟩ := List.mem_map.1 hm'
      by_contra hcopy
      obtain ⟨q', hq'⟩ := Option.ne_none_iff_exists'.1 hcopy
      obtain ⟨⟨kind, hk⟩, hid⟩ := Envelope.copyOf?_eq_some_iff.1 hq'
      obtain ⟨q, hq, -, hhop⟩ := Engine.query_of_sent hr hp hk
      rw [Envelope.copyOf?_eq_some_iff.2 ⟨⟨kind, hq⟩, hhop.1.symm.trans hid⟩] at hc
      cases hc
    | some q =>
      obtain ⟨⟨kind, hk⟩, hid⟩ := Envelope.copyOf?_eq_some_iff.1 hc
      rw [hk, Engine.handle_query, Option.some.injEq] at hr
      exact .handled hpeer hn hk hid hr rfl rfl

theorem carried_flight {net : Network} {i : Nat} {m : Envelope} (h : net.flight[i]? = some m)
    (x : Uuid) : carried x net.flight = carried x [m] + carried x (net.without i).flight := by
  rw [carried_perm (perm_flight h), ← carried_append, List.singleton_append]

/-- What is not handled by a peer stays in the account or is lost. -/
theorem carried_lost_add {net : Network} {m : Envelope} {x : Uuid}
    (h : m.copyOf? x = none ∨ ¬ net.IsPeer m.receiver) :
    (if m.receiver = net.registry then carried x [m] else 0) + carried x ([m].filter net.isLost) =
      carried x [m] := by
  by_cases hreg : m.receiver = net.registry
  · have hkept : net.isLost m = false := by simp [isLost, hreg]
    rw [if_pos hreg, List.filter_cons_of_neg (by simp [hkept]), List.filter_nil, carried_nil,
      add_zero]
  · rw [if_neg hreg, zero_add]
    rcases h with hnone | hp
    · have hzero : carried x [m] = 0 := by rw [carried_cons_of_none hnone, carried_nil]
      by_cases hl : net.isLost m = true
      · rw [List.filter_cons_of_pos hl, List.filter_nil]
      · rw [List.filter_cons_of_neg hl, List.filter_nil, carried_nil, hzero]
    · have hlost : net.isLost m = true := by
        have hnone : net.node? m.receiver = none :=
          Option.not_isSome_iff_eq_none.1 fun hs => hp ⟨hreg, hs⟩
        simp [isLost, hreg, hnone]
      rw [List.filter_cons_of_pos hlost, List.filter_nil]

/-- **One delivery moves totals**: what no peer handles stays in the account or is
    lost. -/
theorem account_aside {net net' : Network} {i : Nat} {m : Envelope} {x : Uuid}
    {sent : List Envelope} (hm : net.flight[i]? = some m)
    (hkept : m.copyOf? x = none ∨ ¬ net.IsPeer m.receiver)
    (hflight : net'.flight = (net.without i).flight ++ sent) (hsent : copies x sent = [])
    (hresults : net'.results.totals x =
      net.results.totals x + if m.receiver = net.registry then carried x [m] else 0) :
    net'.account x + carried x ([m].filter net.isLost) = net.account x := by
  have hlost := carried_lost_add hkept
  generalize (if m.receiver = net.registry then carried x [m] else 0) = seen at hlost hresults
  rw [account, account, hflight, hresults, carried_append, carried_of_copies_eq_nil hsent,
    carried_flight hm x, ← hlost]
  abel

/-- **A peer that handles a copy changes the account** by what it sends on, less what
    came. -/
theorem account_handled {net net' : Network} {i : Nat} {m : Envelope} {x : Uuid} {q : Query}
    {sent : List Envelope} (hm : net.flight[i]? = some m) (hq : m.copyOf? x = some q)
    (hflight : net'.flight = (net.without i).flight ++ sent)
    (hresults : net'.results = net.results) :
    net'.account x + q.totals = net.account x + carried x sent := by
  rw [account, account, hflight, hresults, carried_flight hm x, carried_append,
    carried_cons_of_some hq, carried_nil]
  abel

/-! ## Who has handled a query -/

theorem isPeer_congr {net net' : Network} (h : net.Later net') (p : PeerAddress) :
    net'.IsPeer p ↔ net.IsPeer p := by
  simp only [IsPeer, h.1, Option.isSome_iff_ne_none, ne_eq, h.node?_eq_none_iff]

theorem isLost_congr {net net' : Network} (h : net.Later net') (m : Envelope) :
    net'.isLost m = net.isLost m := by
  have hnone := h.node?_eq_none_iff m.receiver
  rw [← Option.isNone_iff_eq_none, ← Option.isNone_iff_eq_none] at hnone
  simp only [isLost, h.1, hnone]

theorem mem_handlers {net : Network} {x : Uuid} {ds : List Delivery} {p : PeerAddress} :
    p ∈ net.handlers x ds ↔ p ∈ visited x (net.delivered ds) ∧ net.IsPeer p :=
  Finset.mem_filter

section
variable {net : Network} {x : Uuid} {ds : List Delivery} {d : Delivery} {m : Envelope}
  (hm : (net.afterAll ds).flight[d.index]? = some m)
include hm

theorem delivered_append : net.delivered (ds ++ [d]) = net.delivered ds ++ [m] := by
  rw [delivered_append_singleton, hm]
  rfl

theorem lost_append : net.lost (ds ++ [d]) = net.lost ds ++ [m].filter net.isLost := by
  rw [lost, delivered_append hm, List.filter_append]
  rfl

theorem received_append : net.received (ds ++ [d]) =
    net.received ds ++ [m].filter fun m => m.receiver = net.registry := by
  rw [received, delivered_append hm, List.filter_append]
  rfl

theorem handlers_append_of_copy {q : Query} (hq : m.copyOf? x = some q)
    (hp : net.IsPeer m.receiver) :
    net.handlers x (ds ++ [d]) = insert m.receiver (net.handlers x ds) := by
  rw [handlers, delivered_append hm, visited_append_of_some hq, Finset.filter_insert, if_pos hp]
  rfl

theorem handlers_append_of_ne (h : m.copyOf? x = none ∨ ¬ net.IsPeer m.receiver) :
    net.handlers x (ds ++ [d]) = net.handlers x ds := by
  rw [handlers, delivered_append hm]
  cases hq : m.copyOf? x with
  | none => rw [visited_append_of_none hq]; rfl
  | some q =>
    have hp := h.resolve_left (by simp [hq])
    rw [visited_append_of_some hq, Finset.filter_insert, if_neg hp]
    rfl

end

theorem account_start {net : Network} {entry : PeerAddress} {kind : QueryKind} {q : Query}
    {now : Nat} (h : net.Fresh q.id) : (net.start entry kind q now).account q.id = q.totals := by
  have hres : (net.start entry kind q now).results.totals q.id = 0 := by
    rw [start, inject, Results.totals_track, Results.totals, h.results]
  rw [account, hres, carried, copies_start h]
  simp

/-- A peer has contributed once if it has handled the query, and otherwise never. -/
theorem count_contributions {net : Network} {entry p : PeerAddress} {kind : QueryKind} {q : Query}
    {now : Nat} {ds : List Delivery} {n : Node} (hfresh : net.Fresh q.id)
    (hlogs : (net.start entry kind q now).LogsSuffice ds) (hp : p ≠ net.registry)
    (hn : ((net.start entry kind q now).afterAll ds).node? p = some n) :
    n.engine.contributions.count q.id =
      if p ∈ (net.start entry kind q now).handlers q.id ds then 1 else 0 := by
  obtain ⟨n₀, hn₀, -⟩ := (later_afterAll (net.start entry kind q now) ds).of_node? hn
  have hpeer : (net.start entry kind q now).IsPeer p := ⟨hp, by rw [hn₀]; rfl⟩
  have hiff : p ∈ (net.start entry kind q now).handlers q.id ds ↔
      q.id ∈ idsAt p ((net.start entry kind q now).delivered ds) := by
    rw [mem_handlers, mem_visited_iff]
    exact and_iff_left hpeer
  rw [(follows_start hfresh hlogs hp hn).contributions]
  simp only [hiff]

/-- A query is new to a peer that has not handled it. -/
theorem isNew_iff_not_mem_handlers {net : Network} {entry p : PeerAddress} {kind : QueryKind}
    {q q' : Query} {now : Nat} {ds : List Delivery} {n : Node} (hfresh : net.Fresh q.id)
    (hlogs : (net.start entry kind q now).LogsSuffice ds)
    (hp : (net.start entry kind q now).IsPeer p)
    (hn : ((net.start entry kind q now).afterAll ds).node? p = some n) (hid : q'.id = q.id) :
    n.engine.IsNew q' ↔ p ∉ (net.start entry kind q now).handlers q.id ds := by
  have hfollows := follows_start hfresh hlogs hp.1 hn
  rw [← hid] at hfollows
  rw [hfollows.isNew_iff, hid, mem_handlers]
  exact not_congr (and_iff_left hp).symm

/-- The share that a delivery adds is that of a peer which has not handled the query
    before. -/
theorem sum_handlers_append {net : Network} {entry : PeerAddress} {kind : QueryKind}
    {q q' : Query} {now : Nat} {ds : List Delivery} {d : Delivery} {m : Envelope} {n : Node}
    (hfresh : net.Fresh q.id) (hlogs : (net.start entry kind q now).LogsSuffice ds)
    (hm : ((net.start entry kind q now).afterAll ds).flight[d.index]? = some m)
    (hq' : m.copyOf? q.id = some q')
    (hp : ((net.start entry kind q now).afterAll ds).IsPeer m.receiver)
    (hn : ((net.start entry kind q now).afterAll ds).node? m.receiver = some n) :
    ∑ p ∈ (net.start entry kind q now).handlers q.id (ds ++ [d]), net.share q.metric p =
      ∑ p ∈ (net.start entry kind q now).handlers q.id ds, net.share q.metric p +
        n.engine.gain q' := by
  have hlater := later_afterAll (net.start entry kind q now) ds
  rw [isPeer_congr hlater] at hp
  obtain ⟨⟨kind', hk⟩, hid⟩ := Envelope.copyOf?_eq_some_iff.1 hq'
  have hhop := (isHop_afterAll (isHop_start hfresh) ds).1 m (List.mem_of_getElem? hm)
    kind' q' hk hid
  have hshare : n.engine.metrics.share q'.metric = net.share q.metric m.receiver := by
    rw [hhop.2.2.2.1, ← share_eq hn, hlater.share]
    rfl
  have hnew := (follows_start hfresh hlogs hp.1 hn)
  rw [← hid] at hnew
  rw [handlers_append_of_copy hm hq' hp]
  by_cases hmem : m.receiver ∈ (net.start entry kind q now).handlers q.id ds
  · have hold : ¬ n.engine.IsNew q' := by
      rw [hnew.isNew_iff, not_not, hid]
      exact (mem_handlers.1 hmem).1
    rw [Finset.insert_eq_of_mem hmem, Engine.gain, if_neg hold, add_zero]
  · have hfirst : n.engine.IsNew q' := by
      rw [hnew.isNew_iff, hid]
      exact fun hv => hmem (mem_handlers.2 ⟨hv, hp⟩)
    rw [Finset.sum_insert hmem, Engine.gain, if_pos hfirst, hshare, add_comm]

/-! ## Whole runs -/

/-- The totals of a query wherever a run has taken them: in flight, at the registry or
    lost. -/
def ledger (net : Network) (x : Uuid) (ds : List Delivery) : ℤ × ℤ :=
  carried x (net.afterAll ds).flight + (net.afterAll ds).results.totals x +
    carried x (net.lost ds)

/-- The shares of the peers that have handled a query. -/
def shares (net : Network) (x : Uuid) (metric : String) (ds : List Delivery) : ℤ × ℤ :=
  ∑ p ∈ net.handlers x ds, net.share metric p

/-- What one more delivery of a run does to the ledger of a query: no copy is handled and
    none sent, or a peer handles a copy and the shares grow by its gain. -/
inductive LedgerStep (net : Network) (kind : QueryKind) (q : Query) (ds : List Delivery)
    (d : Delivery) : Prop
  | still (flight : copies q.id (net.afterAll (ds ++ [d])).flight ⊆
        copies q.id (net.afterAll ds).flight)
      (ledger : net.ledger q.id (ds ++ [d]) = net.ledger q.id ds)
      (shares : net.shares q.id q.metric (ds ++ [d]) = net.shares q.id q.metric ds)
  | handled {m : Envelope} {n : Node} {q' : Query} {r : Engine × List Parcel}
      (delivered : (net.afterAll ds).flight[d.index]? = some m)
      (copy : m.copyOf? q.id = some q') (handled : n.engine.Handled kind q' r)
      (fits : n.engine.IsNew q' → n.engine.Fits q')
      (flight : (net.afterAll (ds ++ [d])).flight =
        ((net.afterAll ds).without d.index).flight ++ r.2.map Parcel.envelope)
      (ledger : net.ledger q.id (ds ++ [d]) + q'.totals =
        net.ledger q.id ds + carried q'.id (r.2.map Parcel.envelope))
      (shares : net.shares q.id q.metric (ds ++ [d]) =
        net.shares q.id q.metric ds + n.engine.gain q')

section
variable {net : Network} {entry : PeerAddress} {kind : QueryKind} {q : Query} {now : Nat}
  {ds : List Delivery}

/-- **One more delivery of a run of a fresh query.** -/
theorem ledgerStep {d : Delivery} (hfresh : net.Fresh q.id)
    (hlogs : (net.start entry kind q now).LogsSuffice (ds ++ [d]))
    (hfit : (net.start entry kind q now).TotalsFit q.id (ds ++ [d])) :
    (net.start entry kind q now).LedgerStep kind q ds d := by
  have hnext := (along_append_singleton.1 hfit).2
  have hlater := later_afterAll (net.start entry kind q now) ds
  have hlost : ((net.start entry kind q now).afterAll ds).isLost =
      (net.start entry kind q now).isLost := funext fun m => isLost_congr hlater m
  have hafter := afterAll_append_singleton (net.start entry kind q now) ds d
  cases hm : ((net.start entry kind q now).afterAll ds).flight[d.index]? with
  | none =>
    have hkeep := afterAll_append_of_none hm
    have hdel := delivered_append_of_none hm
    exact .still (by rw [hkeep]; exact List.Subset.refl _)
      (by rw [ledger, hkeep, lost, hdel]; rfl) (by rw [shares, handlers, hdel]; rfl)
  | some m =>
    have hlostm := lost_append hm
    cases copyStep (x := q.id) (step_after hm) with
    | aside sent hkept hflight hsent hresults =>
      have hacc := account_aside hm hkept hflight hsent hresults
      rw [isPeer_congr hlater] at hkept
      rw [hlost, ← hafter] at hacc
      rw [← hafter] at hflight
      refine .still ?_ ?_ (by rw [shares, handlers_append_of_ne hm hkept]; rfl)
      · rw [hflight, copies_append, hsent, List.append_nil]
        exact ((List.eraseIdx_sublist _ _).filterMap _).subset
      · simp only [account] at hacc
        rw [ledger, ledger, hlostm, carried_append, ← hacc]
        abel
    | @handled n kind' q' r hp hn hk hid hr hflight hresults =>
      have hq' : m.copyOf? q.id = some q' :=
        Envelope.copyOf?_eq_some_iff.2 ⟨⟨kind', hk⟩, hid⟩
      have hh : n.engine.Handled kind' q' r := hr ▸ n.engine.handled_onQuery _ _ _ _
      have hhop := (isHop_afterAll (isHop_start hfresh) ds).1 m (List.mem_of_getElem? hm)
        kind' q' hk hid
      rw [hhop.1] at hh
      have hacc := account_handled hm hq' hflight hresults
      have hkept : (net.start entry kind q now).isLost m = false := by
        rw [← hlost]
        simp [isLost, hn]
      rw [← hafter] at hacc hflight
      refine .handled hm hq' hh (hnext m hm n hn q' hq') hflight ?_ ?_
      · simp only [account] at hacc
        rw [ledger, ledger, hlostm, List.filter_cons_of_neg (by simp [hkept]), List.filter_nil,
          List.append_nil, add_right_comm, hacc, hid]
        abel
      · exact sum_handlers_append hfresh hlogs.of_append_singleton hm hq' hp hn

theorem ledger_nil (hfresh : net.Fresh q.id) :
    (net.start entry kind q now).ledger q.id [] = q.totals := by
  have hacc : (net.start entry kind q now).account q.id = q.totals := account_start hfresh
  rw [account] at hacc
  rw [ledger, afterAll_nil, hacc, lost, delivered_nil, List.filter_nil, carried_nil, add_zero]

theorem shares_nil : (net.start entry kind q now).shares q.id q.metric [] = 0 := rfl

/-- **A random walk and a gossip query neither lose nor repeat totals.**  In every state
    of a run, the totals in flight, at the registry and lost are together the shares of
    the peers that have handled the query. -/
theorem totals_conserved (hkind : kind ≠ .flood) (hfresh : net.Fresh q.id)
    (hzero : q.totals = 0) (hlogs : (net.start entry kind q now).LogsSuffice ds)
    (hfit : (net.start entry kind q now).TotalsFit q.id ds) :
    carried q.id ((net.start entry kind q now).afterAll ds).flight +
        ((net.start entry kind q now).afterAll ds).results.totals q.id +
        carried q.id ((net.start entry kind q now).lost ds) =
      ∑ p ∈ (net.start entry kind q now).handlers q.id ds, net.share q.metric p := by
  show (net.start entry kind q now).ledger q.id ds =
    (net.start entry kind q now).shares q.id q.metric ds
  induction ds using List.reverseRecOn with
  | nil => rw [ledger_nil hfresh, hzero, shares_nil]
  | append_singleton ds d ih =>
    have ih := ih hlogs.of_append_singleton (along_append_singleton.1 hfit).1
    cases ledgerStep hfresh hlogs hfit with
    | still _ hledger hshares => rw [hledger, hshares, ih]
    | handled _ _ hh hfits _ hledger hshares =>
      rw [hh.carried_eq hkind hfits, ih] at hledger
      rw [hshares]
      refine add_right_cancel (hledger.trans ?_)
      abel

end

open Sample in
/-- A walk with a limit of four hops, which comes back to its first peer on the way. -/
theorem totals_conserved_walk :
    kite.Fresh (query 4).id ∧ (query 4).totals = 0 ∧
      (kite.start (peer 1) .randomWalk (query 4) 0).LogsSuffice (inOrder 5) ∧
      (kite.start (peer 1) .randomWalk (query 4) 0).TotalsFit (query 4).id (inOrder 5) ∧
      carried (query 4).id
            ((kite.start (peer 1) .randomWalk (query 4) 0).afterAll (inOrder 5)).flight +
          ((kite.start (peer 1) .randomWalk (query 4) 0).afterAll (inOrder 5)).results.totals
            (query 4).id +
          carried (query 4).id
            ((kite.start (peer 1) .randomWalk (query 4) 0).lost (inOrder 5)) =
        ∑ p ∈ (kite.start (peer 1) .randomWalk (query 4) 0).handlers (query 4).id (inOrder 5),
          kite.share (query 4).metric p := by
  have hfresh : kite.Fresh (query 4).id := fresh_query 4
  have hlogs : (kite.start (peer 1) .randomWalk (query 4) 0).LogsSuffice (inOrder 5) := by
    decide +kernel
  have hfit : (kite.start (peer 1) .randomWalk (query 4) 0).TotalsFit (query 4).id
      (inOrder 5) := by decide +kernel
  exact ⟨hfresh, by decide, hlogs, hfit,
    totals_conserved (by decide) hfresh (by decide) hlogs hfit⟩

end Network

end OverlayCensus
