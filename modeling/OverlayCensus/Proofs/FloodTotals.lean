/-
  OverlayCensus — the totals of a flood.

  A flood sends the totals that came to every neighbour, so what the registry adds up can
  count a peer many times.  It counts every peer at least once, and a single reply counts
  no peer twice.

  * `totals_bounds`: no copy carries more than the shares of the peers that have handled
    the query;
  * `shares_le_ledger`: no share gets lost on the way;
  * `flood_totals_bounds`: what both mean once the flood has come to its end.
-/
import Mathlib
import OverlayCensus.Proofs.Account
import OverlayCensus.Proofs.FloodSending

namespace OverlayCensus

namespace Network

/-! ## Bounds that hold for all kinds -/

section
variable {net : Network} {entry : PeerAddress} {kind : QueryKind} {q : Query} {now : Nat}
  {ds : List Delivery}

theorem copies_delivered_append {d : Delivery} {x : Uuid} {q' : Query}
    (h : q' ∈ copies x (net.delivered (ds ++ [d]))) :
    q' ∈ copies x (net.delivered ds) ∨ q' ∈ copies x (net.afterAll ds).flight := by
  rw [delivered_append_singleton, copies_append, List.mem_append] at h
  refine h.imp_right fun h => ?_
  obtain ⟨m, hm, hq'⟩ := mem_copies.1 h
  exact mem_copies.2 ⟨m, List.mem_of_getElem? (Option.mem_toList.1 hm), hq'⟩

/-- **No copy carries more than the shares** of the peers that have handled the query,
    and none carries a negative number. -/
theorem totals_bounds (hfresh : net.Fresh q.id) (hzero : q.totals = 0)
    (hlogs : (net.start entry kind q now).LogsSuffice ds)
    (hfit : (net.start entry kind q now).TotalsFit q.id ds) :
    (∀ q' ∈ copies q.id ((net.start entry kind q now).afterAll ds).flight,
        0 ≤ q'.totals ∧ q'.totals ≤ (net.start entry kind q now).shares q.id q.metric ds) ∧
      ∀ q' ∈ copies q.id ((net.start entry kind q now).delivered ds),
        q'.totals ≤ (net.start entry kind q now).shares q.id q.metric ds := by
  induction ds using List.reverseRecOn with
  | nil =>
    refine ⟨fun q' hq' => ?_, by simp⟩
    rw [afterAll_nil, copies_start hfresh, List.mem_singleton] at hq'
    rw [hq', hzero, shares_nil]
    exact ⟨le_rfl, le_rfl⟩
  | append_singleton ds d ih =>
    obtain ⟨ihflight, ihdelivered⟩ :=
      ih hlogs.of_append_singleton (along_append_singleton.1 hfit).1
    have hold : ∀ q' ∈ copies q.id ((net.start entry kind q now).delivered (ds ++ [d])),
        q'.totals ≤ (net.start entry kind q now).shares q.id q.metric ds := fun q' hq' =>
      (copies_delivered_append hq').elim (ihdelivered q') fun h => (ihflight q' h).2
    cases ledgerStep hfresh hlogs hfit with
    | still hflight _ hshares =>
      rw [hshares]
      exact ⟨fun q' hq' => ihflight q' (hflight hq'), hold⟩
    | @handled m n q₀ r hm hq₀ hh hfits hflight _ hshares =>
      have hgain := n.engine.gain_nonneg q₀
      obtain ⟨hpos, hle⟩ := ihflight q₀ (mem_copies.2 ⟨m, List.mem_of_getElem? hm, hq₀⟩)
      rw [hshares, hflight]
      refine ⟨fun q' hq' => ?_, fun q' hq' => le_add_of_le_of_nonneg (hold q' hq') hgain⟩
      rw [copies_append, List.mem_append] at hq'
      rcases hq' with hq' | hq'
      · have hmem := ihflight q' (((List.eraseIdx_sublist _ _).filterMap _).subset hq')
        exact ⟨hmem.1, le_add_of_le_of_nonneg hmem.2 hgain⟩
      · obtain ⟨m', hm', hc⟩ := mem_copies.1 hq'
        obtain ⟨p, hp, rfl⟩ := List.mem_map.1 hm'
        obtain ⟨⟨kind', hk⟩, -⟩ := Envelope.copyOf?_eq_some_iff.1 hc
        obtain ⟨kind'', hp'⟩ : ∃ kind'', p.message = .query kind'' q' := ⟨kind', hk⟩
        have hkind : kind'' = kind := by
          rcases hh.mem hp with h | h <;> rw [h] at hp' <;> cases hp' <;> rfl
        have hsent := hh.totals_le hpos hfits hp (hkind ▸ hp')
        exact ⟨hsent.1, hsent.2.trans (add_le_add_left hle _)⟩

/-- **No share gets lost**: the ledger counts every peer that has handled the query. -/
theorem shares_le_ledger (hfresh : net.Fresh q.id) (hzero : q.totals = 0)
    (hlogs : (net.start entry kind q now).LogsSuffice ds)
    (hfit : (net.start entry kind q now).TotalsFit q.id ds) :
    (net.start entry kind q now).shares q.id q.metric ds ≤
      (net.start entry kind q now).ledger q.id ds := by
  induction ds using List.reverseRecOn with
  | nil => rw [ledger_nil hfresh, hzero, shares_nil]
  | append_singleton ds d ih =>
    have hlogs' := hlogs.of_append_singleton
    have hfit' := (along_append_singleton.1 hfit).1
    have ih := ih hlogs' hfit'
    cases ledgerStep hfresh hlogs hfit with
    | still _ hledger hshares => rw [hledger, hshares]; exact ih
    | @handled m n q₀ r hm hq₀ hh hfits _ hledger hshares =>
      have hpos := ((totals_bounds hfresh hzero hlogs' hfit').1 q₀
        (mem_copies.2 ⟨m, List.mem_of_getElem? hm, hq₀⟩)).1
      have hsent := hh.le_carried hpos hfits
      rw [hshares]
      refine le_of_add_le_add_right (a := q₀.totals) ?_
      rw [hledger, add_assoc, add_comm (n.engine.gain q₀)]
      exact add_le_add ih hsent

end

/-! ## Floods -/

/-- Every neighbour is a peer of the network. -/
def Hosted (net : Network) : Prop :=
  ∀ n ∈ net.nodes, ∀ p ∈ n.neighbors, (net.node? p).isSome

instance (net : Network) : Decidable net.Hosted :=
  inferInstanceAs (Decidable (∀ n ∈ net.nodes, ∀ p ∈ n.neighbors, _))

section
variable {net : Network} {entry : PeerAddress} {q : Query} {now : Nat} {ds : List Delivery}

/-- A hop of a flood that carries nothing if it is addressed to nobody. -/
def EmptyIfLost (net : Network) (q : Query) (m : Envelope) : Prop :=
  IsHop .flood q m ∧ (net.isLost m = true → ∀ q' ∈ m.copyOf? q.id, q'.totals = 0)

/-- What a peer sends on is not lost: it goes to a neighbour or to the registry. -/
theorem isLost_sent (hhosted : net.Hosted) (horiginator : q.originator = net.registry)
    {m : Envelope} {n n' : Node} {pick : Nat} {r : Engine × List Parcel}
    (hm : IsHop .flood q m) (hn : net.node? m.receiver = some n) (hl : n.Later n')
    (hr : n'.engine.handle n'.neighbors pick m.message = some r) {p : Parcel} (hp : p ∈ r.2)
    {q' : Query} (hq' : p.envelope.copyOf? q.id = some q') : net.isLost p.envelope = false := by
  obtain ⟨⟨kind, hk⟩, hid⟩ := Envelope.copyOf?_eq_some_iff.1 hq'
  obtain ⟨q₀, hm₀, -, hhop⟩ := Engine.query_of_sent hr hp hk
  obtain ⟨rfl, hhop₀⟩ := hm kind q₀ hm₀ (hhop.1.symm.trans hid)
  rw [hm₀, Engine.handle_query, Option.some.injEq] at hr
  rw [← hr] at hp
  rcases Engine.receiver_onFlood hp with hmem | horig
  · have hhost := hhosted n (mem_of_node? hn) p.receiver (hl.neighbors ▸ hmem)
    simp [isLost, Parcel.envelope, Option.isNone_eq_false_iff.2 hhost]
  · have hreg : p.receiver = net.registry := by rw [horig, hhop₀.2.1, horiginator]
    simp [isLost, Parcel.envelope, hreg]

theorem emptyIfLost_delivered (hhosted : net.Hosted) (hfresh : net.Fresh q.id)
    (horiginator : q.originator = net.registry) (hzero : q.totals = 0) :
    ∀ m ∈ (net.start entry .flood q now).delivered ds,
      (net.start entry .flood q now).EmptyIfLost q m := by
  refine (forall_flight_afterAll ?_ ?_ ds).2
  · intro m hm
    refine ⟨isHop_start hfresh m hm, fun _ q' hq' => ?_⟩
    have hmem : q' ∈ copies q.id (net.start entry .flood q now).flight :=
      mem_copies.2 ⟨m, hm, hq'⟩
    rw [copies_start hfresh, List.mem_singleton] at hmem
    rw [hmem, hzero]
  · intro m n n' pick r hm hn hl hr p hp
    refine ⟨hm.1.sent hr hp, fun hlost q' hq' => ?_⟩
    have hkept : (net.start entry .flood q now).isLost p.envelope = false :=
      isLost_sent hhosted horiginator hm.1 hn hl hr hp hq'
    rw [hlost] at hkept
    cases hkept

/-- **A flood loses no totals** with the messages that nobody receives. -/
theorem carried_filter_isLost (hhosted : net.Hosted) (hfresh : net.Fresh q.id)
    (horiginator : q.originator = net.registry) (hzero : q.totals = 0) {ms : List Envelope}
    (hms : ms ⊆ (net.start entry .flood q now).delivered ds) :
    carried q.id (ms.filter (net.start entry .flood q now).isLost) = 0 := by
  refine List.sum_eq_zero fun t ht => ?_
  obtain ⟨q', hq', rfl⟩ := List.mem_map.1 ht
  obtain ⟨m, hm, hc⟩ := mem_copies.1 hq'
  obtain ⟨hmem, hlost⟩ := List.mem_filter.1 hm
  exact (emptyIfLost_delivered hhosted hfresh horiginator hzero m (hms hmem)).2 hlost q' hc

/-- **A flood counts every peer, and no reply counts a peer twice.**  Once no copy is in
    flight any more, no single reply to the registry exceeds the shares of the peers that
    have handled the flood, and all replies together do not fall below them. -/
theorem flood_totals_bounds (hhosted : net.Hosted) (hfresh : net.Fresh q.id)
    (horiginator : q.originator = net.registry) (hzero : q.totals = 0)
    (hlogs : (net.start entry .flood q now).LogsSuffice ds)
    (hfit : (net.start entry .flood q now).TotalsFit q.id ds)
    (hdone : copies q.id ((net.start entry .flood q now).afterAll ds).flight = []) :
    (∀ reply ∈ copies q.id ((net.start entry .flood q now).received ds),
        reply.totals ≤
          ∑ p ∈ (net.start entry .flood q now).handlers q.id ds, net.share q.metric p) ∧
      ∑ p ∈ (net.start entry .flood q now).handlers q.id ds, net.share q.metric p ≤
        ((net.start entry .flood q now).afterAll ds).results.totals q.id := by
  constructor
  · intro reply hreply
    obtain ⟨m, hm, hc⟩ := mem_copies.1 hreply
    exact (totals_bounds hfresh hzero hlogs hfit).2 reply
      (mem_copies.2 ⟨m, (List.mem_filter.1 hm).1, hc⟩)
  · have hle := shares_le_ledger hfresh hzero hlogs hfit
    have hlost : carried q.id ((net.start entry .flood q now).lost ds) = 0 :=
      carried_filter_isLost hhosted hfresh horiginator hzero (List.Subset.refl _)
    rw [ledger, carried_of_copies_eq_nil hdone, zero_add, hlost, add_zero] at hle
    exact hle

end

open Sample in
/-- A flood whose peers answer three times. -/
theorem flood_totals_bounds_kite :
    kite.Hosted ∧ kite.Fresh (query (-1)).id ∧ (query (-1)).originator = kite.registry ∧
      (query (-1)).totals = 0 ∧ flooded.LogsSuffice (inOrder 9) ∧
      flooded.TotalsFit (query (-1)).id (inOrder 9) ∧
      copies (query (-1)).id (flooded.afterAll (inOrder 9)).flight = [] ∧
      (∀ reply ∈ copies (query (-1)).id (flooded.received (inOrder 9)),
        reply.totals ≤
          ∑ p ∈ flooded.handlers (query (-1)).id (inOrder 9), kite.share (query (-1)).metric p) ∧
      ∑ p ∈ flooded.handlers (query (-1)).id (inOrder 9), kite.share (query (-1)).metric p ≤
        (flooded.afterAll (inOrder 9)).results.totals (query (-1)).id := by
  have hhosted : kite.Hosted := by decide +kernel
  have hfresh : kite.Fresh (query (-1)).id := fresh_query (-1)
  have hfit : flooded.TotalsFit (query (-1)).id (inOrder 9) := by decide +kernel
  exact ⟨hhosted, hfresh, rfl, by decide, logsSuffice_flooded, hfit, copies_flooded,
    flood_totals_bounds hhosted hfresh rfl (by decide) logsSuffice_flooded hfit copies_flooded⟩

end Network

end OverlayCensus
