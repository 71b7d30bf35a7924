/-
  OverlayCensus — floods that count every peer once.

  A peer that sends a flood to several neighbours repeats the totals that came to all of
  them but one.  If no peer but the entry has more than two neighbours, then only the entry
  does so, and what came to it were no totals.

  * `FollowsLinks`: what comes to a peer other than the entry has been sent by a neighbour;
  * `FirstAtEntry`: nothing of a flood goes anywhere before the entry has handled it;
  * `account_of_narrow`: so a flood in which only the entry branches keeps its account exact;
  * `flood_exact_of_narrow`: what this means once the flood has come to its end.
-/
import Mathlib
import OverlayCensus.Proofs.FloodSteps
import OverlayCensus.Proofs.FloodTotals
import OverlayCensus.Proofs.Topology

namespace OverlayCensus

namespace Engine

variable {e : Engine} {neighbors : List PeerAddress} {pick : ℕ} {q : Query}

/-- **A flood that is not repeated sends on what came**, and the peer's share. -/
theorem carried_onFlood_of_length (hlength : (e.onFlood neighbors pick q).2.length ≤ 1)
    (hfits : e.IsNew q → e.Fits q) :
    carried q.id ((e.onFlood neighbors pick q).2.map Parcel.envelope) = q.totals + e.gain q := by
  have hhandled : e.Handled .flood q (e.onFlood neighbors pick q) := handled_onFlood
  obtain ⟨t, first, rest, hr, hfirst, -⟩ := hhandled
  rw [hr] at hlength ⊢
  obtain rfl := List.eq_nil_of_length_eq_zero (by simpa using hlength)
  have hcopy : first.envelope.copyOf? q.id = some (e.next q) :=
    Envelope.copyOf?_eq_some_iff.2 ⟨⟨.flood, hfirst⟩, (e.next_isHopOf q).1⟩
  rw [List.map_singleton, carried_cons_of_some hcopy, carried_nil, add_zero, totals_next hfits]

/-- **A flood without totals has nothing to repeat.** -/
theorem carried_onFlood_of_zero (hzero : q.totals = 0) (hfits : e.IsNew q → e.Fits q) :
    carried q.id ((e.onFlood neighbors pick q).2.map Parcel.envelope) = q.totals + e.gain q := by
  have hhandled : e.Handled .flood q (e.onFlood neighbors pick q) := handled_onFlood
  obtain ⟨n, hn⟩ := hhandled.carried_sent hfits
  rw [hn, if_pos rfl, hzero, smul_zero, add_zero]

theorem length_onFlood_le (hnodup : neighbors.Nodup) :
    (e.onFlood neighbors pick q).2.length ≤ max 1 (candidates neighbors q.sender).length := by
  rcases onFlood_cases e neighbors pick q with hone | ⟨carrier, -, hc, hall⟩
  · rw [hone]
    exact le_max_left _ _
  · have hmem := mem_of_choose hc
    have hpos := List.length_pos_of_mem hmem
    have hothers := congrArg List.length (receivers_toAll neighbors [q.sender, carrier]
      (.query .flood (e.passOn q)))
    rw [filter_not_mem_pair hnodup, List.length_map, List.length_erase_of_mem hmem] at hothers
    rw [hall, List.length_cons, hothers]
    omega

end Engine

namespace Network

section
variable {net : Network} {entry : PeerAddress} {q : Query} {now : ℕ} {ds : List Delivery}

/-! ## Where copies come from -/

/-- A hop of a flood that has been sent by a neighbour of the peer it is addressed to, unless
    that is the entry. -/
def FollowsLinks (net : Network) (entry : PeerAddress) (q : Query) (m : Envelope) : Prop :=
  IsHop .flood q m ∧ ∀ q' ∈ m.copyOf? q.id,
    m.receiver = entry ∨ m.receiver = net.registry ∨ q'.sender ∈ net.neighborsOf m.receiver

theorem followsLinks_afterAll (hlinked : net.Linked) (hfresh : net.Fresh q.id)
    (horiginator : q.originator = net.registry) (ds : List Delivery) :
    ∀ m ∈ ((net.start entry .flood q now).afterAll ds).flight, net.FollowsLinks entry q m := by
  refine (forall_flight_afterAll ?_ ?_ ds).1
  · intro m hm
    exact ⟨isHop_start hfresh m hm, fun q' hq' => Or.inl (copy_start hfresh hm hq').1⟩
  · intro m n n' pick r hm hn hl hr p hp
    refine ⟨hm.1.sent hr hp, fun q' hq' => Or.inr ?_⟩
    obtain ⟨⟨kind, hk⟩, hid⟩ := Envelope.copyOf?_eq_some_iff.1 hq'
    obtain ⟨q₀, hm₀, -, hhop⟩ := Engine.query_of_sent hr hp hk
    obtain ⟨rfl, hhop₀⟩ := hm.1 kind q₀ hm₀ (hhop.1.symm.trans hid)
    rw [hm₀, Engine.handle_query, Option.some.injEq] at hr
    have hh : n'.engine.Handled .flood q₀ r := hr ▸ n'.engine.handled_onQuery _ _ _ _
    have hsender : q'.sender = m.receiver :=
      (hh.sender hp hk).trans (hl.identity.trans (identity_of_node? hn))
    rw [← hr] at hp
    rcases Engine.receiver_onFlood hp with hmem | horig
    · have hlist : net.neighborsOf m.receiver = n.neighbors := neighborsOf_eq hn
      refine Or.inr (hsender ▸ hlinked.neighborsOf_symm ?_)
      rwa [hlist, ← hl.neighbors]
    · exact Or.inl (horig.trans (hhop₀.2.1.trans horiginator))

/-- Until the entry has handled a flood, no copy is in flight but the one that was injected
    there. -/
def FirstAtEntry (net : Network) (entry : PeerAddress) (q : Query) (ds : List Delivery) : Prop :=
  entry ∈ net.handlers q.id ds ∨
    ∀ m ∈ (net.afterAll ds).flight, ∀ q' ∈ m.copyOf? q.id, m.receiver = entry ∧ q' = q

theorem firstAtEntry_afterAll (hfresh : net.Fresh q.id)
    (hlogs : (net.start entry .flood q now).LogsSuffice ds) :
    (net.start entry .flood q now).FirstAtEntry entry q ds := by
  induction ds using List.reverseRecOn with
  | nil => exact Or.inr fun m hm q' hq' => copy_start hfresh hm hq'
  | append_singleton ds d ih =>
    have ih := ih hlogs.of_append_singleton
    cases floodStep hfresh hlogs with
    | idle hafter hdelivered => rwa [FirstAtEntry, handlers, hafter, hdelivered]
    | aside hm sent hkept hflight hsent _ =>
      rw [FirstAtEntry, handlers_append_of_ne hm hkept, hflight]
      refine ih.imp_right fun h m' hm' q' hq' => ?_
      rcases List.mem_append.1 hm' with hm' | hm'
      · exact h m' (List.mem_of_mem_eraseIdx hm') q' hq'
      · rw [copies_eq_nil_iff.1 hsent m' hm'] at hq'
        cases hq'
    | handled hm hcopy hpeer _ _ _ _ _ _ _ =>
      rw [FirstAtEntry, handlers_append_of_copy hm hcopy hpeer]
      refine Or.inl ?_
      rcases ih with hold | hfirst
      · exact Finset.mem_insert_of_mem hold
      · rw [(hfirst _ (List.mem_of_getElem? hm) _ hcopy).1]
        exact Finset.mem_insert_self _ _

/-! ## Exact counts -/

theorem Linked.hosted (h : net.Linked) : net.Hosted := by
  intro n hn p hp
  obtain ⟨n', hn', rfl, -⟩ := h.symm n hn p hp
  exact isSome_node?_iff.2 (List.mem_map.2 ⟨n', hn', rfl⟩)

/-- What a peer sends because of a flood in which only the entry branches: the totals that
    came, and its share. -/
theorem carried_of_narrow (hnodup : ∀ n ∈ net.nodes, n.neighbors.Nodup)
    (hnarrow : ∀ p ∈ net.peers, p ≠ entry → (net.neighborsOf p).length ≤ 2)
    {m : Envelope} {n : Node} {q' : Query} (pick : ℕ) (hpeer : net.IsPeer m.receiver)
    (hneighbors : n.neighbors = net.neighborsOf m.receiver)
    (hfirst : m.receiver = entry → n.engine.IsNew q' → q'.totals = 0)
    (hlink : m.receiver ≠ entry → q'.sender ∈ net.neighborsOf m.receiver)
    (hfits : n.engine.IsNew q' → n.engine.Fits q') :
    carried q'.id ((n.engine.onFlood n.neighbors pick q').2.map Parcel.envelope) =
      q'.totals + n.engine.gain q' := by
  by_cases hentry : m.receiver = entry
  · by_cases hnew : n.engine.IsNew q'
    · exact Engine.carried_onFlood_of_zero (hfirst hentry hnew) hfits
    · refine Engine.carried_onFlood_of_length ?_ hfits
      rw [Engine.onFlood_of_old hnew, List.length_singleton]
  · -- one neighbor has sent the copy, so one at most is left to send it to
    refine Engine.carried_onFlood_of_length ?_ hfits
    have hlist : n.neighbors.Nodup := hneighbors ▸ nodup_neighborsOf hnodup m.receiver
    have htwo := hnarrow m.receiver (isSome_node?_iff.1 hpeer.2) hentry
    have hcandidates := Engine.length_candidates hlist q'.sender
    rw [← hneighbors] at htwo hlink
    rw [if_pos (hlink hentry)] at hcandidates
    exact (Engine.length_onFlood_le hlist).trans (by omega)

/-- **The account of a flood in which only the entry branches** is what the peers reached
    have to give. -/
theorem account_of_narrow (hlinked : net.Linked) (hnodup : ∀ n ∈ net.nodes, n.neighbors.Nodup)
    (hnarrow : ∀ p ∈ net.peers, p ≠ entry → (net.neighborsOf p).length ≤ 2)
    (hfresh : net.Fresh q.id) (horiginator : q.originator = net.registry)
    (hzero : q.totals = 0) (hlogs : (net.start entry .flood q now).LogsSuffice ds)
    (hfit : (net.start entry .flood q now).TotalsFit q.id ds) :
    ((net.start entry .flood q now).afterAll ds).account q.id =
      (net.start entry .flood q now).shares q.id q.metric ds := by
  induction ds using List.reverseRecOn with
  | nil => rw [afterAll_nil, account_start hfresh, hzero, shares_nil]
  | append_singleton ds d ih =>
    have hlogs' := hlogs.of_append_singleton
    have ih := ih hlogs' (along_append_singleton.1 hfit).1
    have hlater := later_afterAll (net.start entry .flood q now) ds
    cases floodStep hfresh hlogs with
    | idle hafter hdelivered => rwa [hafter, shares, handlers, hdelivered]
    | @aside m hm sent hkept hflight hsent hresults =>
      have hmem : [m] ⊆ (net.start entry .flood q now).delivered (ds ++ [d]) := by
        rw [delivered_append hm]
        exact List.subset_append_right _ _
      have hlost := carried_filter_isLost hlinked.hosted hfresh horiginator hzero hmem
      rw [shares, handlers_append_of_ne hm hkept, ← shares, ← ih]
      rw [← isPeer_congr hlater] at hkept
      rw [← hlater.1] at hresults
      rw [← account_aside hm hkept hflight hsent hresults,
        funext fun m => isLost_congr hlater m, hlost, add_zero]
    | @handled m n q' hm hcopy hpeer hn hneighbors hhop hnew hgain hflight hresults =>
      have haccount := account_handled hm hcopy hflight hresults
      have hsent := carried_of_narrow hnodup hnarrow d.pick hpeer hneighbors ?first ?link
        ((along_append_singleton.1 hfit).2 m hm n hn q' hcopy)
      case first =>
        intro hentry hfirst
        have horigin := (firstAtEntry_afterAll hfresh hlogs').resolve_left
          (hentry ▸ hnew.1 hfirst)
        rw [(horigin m (List.mem_of_getElem? hm) q' hcopy).2, hzero]
      case link =>
        intro hentry
        have hfollows := followsLinks_afterAll hlinked hfresh horiginator ds m
          (List.mem_of_getElem? hm)
        exact ((hfollows.2 q' hcopy).resolve_left hentry).resolve_left hpeer.1
      rw [hhop.1] at hsent
      rw [hsent, ih, add_comm q'.totals, ← add_assoc] at haccount
      rw [hgain]
      exact add_right_cancel haccount

/-- **A flood in which only the entry branches counts every peer once.**  No peer but the
    entry has more than two neighbours, so the copies go round loops and to dead ends, but
    nobody repeats totals.  Once no copy is in flight any more, the registry has added up
    the shares of the peers that have handled the flood, whatever its limit is and however
    its copies meet. -/
theorem flood_exact_of_narrow (hlinked : net.Linked)
    (hnodup : ∀ n ∈ net.nodes, n.neighbors.Nodup)
    (hnarrow : ∀ p ∈ net.peers, p ≠ entry → (net.neighborsOf p).length ≤ 2)
    (hfresh : net.Fresh q.id) (horiginator : q.originator = net.registry)
    (hzero : q.totals = 0) (hlogs : (net.start entry .flood q now).LogsSuffice ds)
    (hfit : (net.start entry .flood q now).TotalsFit q.id ds)
    (hdone : copies q.id ((net.start entry .flood q now).afterAll ds).flight = []) :
    ((net.start entry .flood q now).afterAll ds).results.totals q.id =
      ∑ p ∈ (net.start entry .flood q now).handlers q.id ds, net.share q.metric p := by
  have haccount := account_of_narrow hlinked hnodup hnarrow hfresh horiginator hzero hlogs hfit
  rwa [account, carried_of_copies_eq_nil hdone, zero_add] at haccount

end

open Sample in
/-- The kite flooded from the peer that its string hangs on, the only one that branches. -/
theorem flood_exact_of_narrow_kite :
    let home := kite.start (peer 3) .flood (query 3) 0
    kite.Linked ∧ (∀ n ∈ kite.nodes, n.neighbors.Nodup) ∧
      (∀ p ∈ kite.peers, p ≠ peer 3 → (kite.neighborsOf p).length ≤ 2) ∧
      kite.Fresh (query 3).id ∧ (query 3).originator = kite.registry ∧ (query 3).totals = 0 ∧
      home.LogsSuffice (inOrder 9) ∧ home.TotalsFit (query 3).id (inOrder 9) ∧
      copies (query 3).id (home.afterAll (inOrder 9)).flight = [] ∧
      (home.afterAll (inOrder 9)).results.totals (query 3).id =
        ∑ p ∈ home.handlers (query 3).id (inOrder 9), kite.share (query 3).metric p := by
  intro home
  have hlinked : kite.Linked :=
    ⟨by decide +kernel, by decide +kernel, by decide +kernel, by decide +kernel⟩
  have hnodup : ∀ n ∈ kite.nodes, n.neighbors.Nodup := by decide +kernel
  have hnarrow : ∀ p ∈ kite.peers, p ≠ peer 3 → (kite.neighborsOf p).length ≤ 2 := by
    decide +kernel
  have hfresh : kite.Fresh (query 3).id := fresh_query 3
  have hlogs : home.LogsSuffice (inOrder 9) := by decide +kernel
  have hfit : home.TotalsFit (query 3).id (inOrder 9) := by decide +kernel
  have hdone : copies (query 3).id (home.afterAll (inOrder 9)).flight = [] := by decide +kernel
  exact ⟨hlinked, hnodup, hnarrow, hfresh, rfl, by decide, hlogs, hfit, hdone,
    flood_exact_of_narrow hlinked hnodup hnarrow hfresh rfl (by decide) hlogs hfit hdone⟩

end Network

end OverlayCensus
