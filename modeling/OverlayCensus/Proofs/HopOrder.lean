/-
  OverlayCensus — queries delivered in the order of sending.

  When messages are delivered first in, first out, the copies of a query come in the order
  of their hops: those in flight are at most one hop apart (`HopOrder`), and what is sent
  on lines up behind them.  So the first copy that a peer handles has come the least number
  of hops of all that ever come to it.

  * `firstOf` are the first deliveries of a run without an end;
  * `exists_front`: every message gets its turn;
  * `hopOrder_afterAll`: copies are delivered in the order of their hops;
  * `Arrives` is the first delivery of a copy to a peer, `exists_arrives` and
    `exists_arrives_of_sent` say when there is one;
  * `forwards_of_flight`: every copy on its way to a peer was sent because of one.
-/
import Mathlib
import OverlayCensus.Proofs.Account
import OverlayCensus.Proofs.GossipSending
import OverlayCensus.Proofs.Quiescence

namespace OverlayCensus

/-! ## Hops -/

namespace Query

variable {q : Query}

theorem mayForward_of_lt (h : q.hop.toInt + 1 < q.limit.toInt) : q.mayForward = true := by
  have hmin := q.hop.le_toInt
  have hmax := q.limit.toInt_lt
  rw [mayForward, decide_eq_true_eq, Int32.lt_iff_toInt_lt, toInt_satAdd, Int32.toInt_one,
    clampInt]
  omega

/-- A query that may go on has its next hop below the limit. -/
theorem toInt_next_of_mayForward (h : q.mayForward = true) :
    (Int32.satAdd q.hop 1).toInt = q.hop.toInt + 1 ∧ q.hop.toInt + 1 < q.limit.toInt := by
  have hmin := q.hop.le_toInt
  have hmax := q.limit.toInt_lt
  rw [mayForward, decide_eq_true_eq, Int32.lt_iff_toInt_lt] at h
  rw [toInt_satAdd, Int32.toInt_one, clampInt] at h ⊢
  omega

/-- A query that has come fewer hops than its limit, or none, counts the next one. -/
theorem toInt_next_of_lt (hpos : 0 ≤ q.hop.toInt) (hlt : q.hop.toInt < max 1 q.limit.toInt) :
    (Int32.satAdd q.hop 1).toInt = q.hop.toInt + 1 := by
  have hmax := q.limit.toInt_lt
  rw [toInt_satAdd, Int32.toInt_one, clampInt]
  omega

/-- If it may not go on, the next hop is the last one. -/
theorem next_eq_of_not_mayForward (hpos : 0 ≤ q.hop.toInt)
    (hlt : q.hop.toInt < max 1 q.limit.toInt) (h : ¬ q.mayForward = true) :
    q.hop.toInt + 1 = max 1 q.limit.toInt := by
  have hle := mt mayForward_of_lt h
  omega

end Query

theorem le_satAdd_one (a : Int32) : a ≤ Int32.satAdd a 1 := by
  have hlt := a.toInt_lt
  rw [Int32.le_iff_toInt_le, toInt_satAdd, Int32.toInt_one, clampInt]
  omega

theorem satAdd_one_mono {a b : Int32} (h : a ≤ b) : Int32.satAdd a 1 ≤ Int32.satAdd b 1 := by
  rw [Int32.le_iff_toInt_le] at h ⊢
  rw [toInt_satAdd, toInt_satAdd, Int32.toInt_one, clampInt, clampInt]
  omega

/-- A flood or gossip query that is old goes to its originator only. -/
theorem Engine.receiver_of_old {e : Engine} {neighbors : List PeerAddress} {pick : Nat}
    {kind : QueryKind} {q : Query} (hkind : kind ≠ .randomWalk) (h : ¬ e.IsNew q) {p : Parcel}
    (hp : p ∈ (e.onQuery neighbors pick kind q).2) : p.receiver = q.originator := by
  have hgossip : ∀ kind', p ∈ (e.onGossipQuery kind' q).2 → p.receiver = q.originator := by
    intro kind' hp
    rw [onGossipQuery_of_old h, List.mem_singleton] at hp
    rw [hp]
    rfl
  cases kind with
  | flood =>
    rw [onQuery, onFlood_of_old h, List.mem_singleton] at hp
    rw [hp]
    rfl
  | randomWalk => exact absurd rfl hkind
  | gossipDistance | gossipLocation => exact hgossip _ hp

namespace Network

/-! ## First in, first out -/

/-- The first deliveries of a run without an end. -/
def firstOf (ds : ℕ → Delivery) (k : ℕ) : List Delivery :=
  (List.range k).map ds

@[simp] theorem firstOf_zero (ds : ℕ → Delivery) : firstOf ds 0 = [] := rfl

theorem firstOf_succ (ds : ℕ → Delivery) (k : ℕ) : firstOf ds (k + 1) = firstOf ds k ++ [ds k] := by
  rw [firstOf, List.range_succ, List.map_append]
  rfl

section
variable {net : Network} {ds : ℕ → Delivery} {j k : ℕ} {m : Envelope} {x : Uuid}

theorem afterAll_firstOf_succ (net : Network) (ds : ℕ → Delivery) (k : ℕ) :
    net.afterAll (firstOf ds (k + 1)) = (net.afterAll (firstOf ds k)).after (ds k) := by
  rw [firstOf_succ, afterAll_append_singleton]

/-- In order, the message in front is delivered and the others are left. -/
theorem front_of_flight {d : Delivery} (hd : d.index = 0) {rest : List Envelope}
    (hflight : net.flight = m :: rest) :
    net.flight[d.index]? = some m ∧ (net.without d.index).flight = rest := by
  rw [without, hd, hflight]
  exact ⟨rfl, rfl⟩

/-- Messages are delivered in order, and a delivery sends others behind those in flight. -/
theorem flight_after_front {d : Delivery} (hd : d.index = 0) {rest : List Envelope}
    (hflight : net.flight = m :: rest) : ∃ sent, (net.after d).flight = rest ++ sent := by
  obtain ⟨hm, hrest⟩ := front_of_flight hd hflight
  have hstep := step_after hm
  generalize net.after d = next at hstep
  rw [← hrest]
  cases hstep with
  | observed | lost | refused => exact ⟨[], (List.append_nil _).symm⟩
  | handled => exact ⟨_, rfl⟩

/-- **Every message gets its turn.** -/
theorem exists_front (hfifo : ∀ k, (ds k).index = 0)
    (hm : m ∈ (net.afterAll (firstOf ds j)).flight) :
    ∃ k rest, j ≤ k ∧ (net.afterAll (firstOf ds k)).flight = m :: rest := by
  obtain ⟨ahead, rest, hflight⟩ := List.append_of_mem hm
  clear hm
  induction ahead generalizing j rest with
  | nil => exact ⟨j, rest, le_rfl, hflight⟩
  | cons a ahead ih =>
    rw [List.cons_append] at hflight
    obtain ⟨sent, hsent⟩ := flight_after_front (hfifo j) hflight
    rw [← afterAll_firstOf_succ, List.append_assoc, List.cons_append] at hsent
    obtain ⟨k, rest', hk, hfront⟩ := ih (rest ++ sent) hsent
    exact ⟨k, rest', (Nat.le_succ j).trans hk, hfront⟩

/-- Where nothing is in flight, nothing happens any more. -/
theorem afterAll_firstOf_of_idle (h : (net.afterAll (firstOf ds j)).flight = []) (hjk : j ≤ k) :
    net.afterAll (firstOf ds k) = net.afterAll (firstOf ds j) := by
  induction hjk with
  | refl => rfl
  | @step k _ ih =>
    rw [afterAll_firstOf_succ, ih]
    exact after_of_none (by rw [h]; rfl)

theorem delivered_subset (h : j ≤ k) :
    net.delivered (firstOf ds j) ⊆ net.delivered (firstOf ds k) := by
  induction h with
  | refl => exact List.Subset.refl _
  | @step k _ ih =>
    rw [firstOf_succ, delivered_append_singleton]
    exact List.subset_append_of_subset_left _ ih

end

/-! ## The order of hops -/

/-- The copies of a query in flight are in the order of their hops and have come no fewer
    hops than those delivered, and no two of them are more than one hop apart. -/
structure HopOrder (x : Uuid) (done flight : List Envelope) : Prop where
  sorted : (copies x (done ++ flight)).Pairwise fun a b => a.hop ≤ b.hop
  close : ∀ a ∈ copies x flight, ∀ b ∈ copies x flight, b.hop ≤ Int32.satAdd a.hop 1

section
variable {x : Uuid} {done rest sent : List Envelope} {m : Envelope}

/-- A message that is delivered without a copy being sent keeps the order. -/
theorem HopOrder.aside (h : HopOrder x done (m :: rest)) (hsent : copies x sent = []) :
    HopOrder x (done ++ [m]) (rest ++ sent) := by
  have hrest : copies x rest ⊆ copies x (m :: rest) :=
    ((List.sublist_cons_self m rest).filterMap _).subset
  constructor
  · have hsorted := h.sorted
    rw [← List.singleton_append, ← List.append_assoc] at hsorted
    rwa [← List.append_assoc, copies_append, hsent, List.append_nil]
  · rw [copies_append, hsent, List.append_nil]
    exact fun a ha b hb => h.close a (hrest ha) b (hrest hb)

/-- Copies that are sent one hop further line up behind all others. -/
theorem HopOrder.handled (h : HopOrder x done (m :: rest)) {q : Query}
    (hq : m.copyOf? x = some q) (hsent : ∀ b ∈ copies x sent, b.hop = Int32.satAdd q.hop 1) :
    HopOrder x (done ++ [m]) (rest ++ sent) := by
  have hrest : copies x rest ⊆ copies x (m :: rest) :=
    ((List.sublist_cons_self m rest).filterMap _).subset
  have hmem : q ∈ copies x (m :: rest) := by
    rw [copies_cons_of_some hq]
    exact List.mem_cons_self
  have hsorted := h.sorted
  rw [copies_append, List.pairwise_append] at hsorted
  obtain ⟨-, hflight, hdone⟩ := hsorted
  rw [copies_cons_of_some hq, List.pairwise_cons] at hflight
  constructor
  · have hbehind : ∀ a ∈ copies x (done ++ m :: rest), a.hop ≤ Int32.satAdd q.hop 1 := by
      intro a ha
      rw [copies_append, List.mem_append] at ha
      rcases ha with ha | ha
      · exact Int32.le_trans (hdone a ha q hmem) (le_satAdd_one q.hop)
      · exact h.close q hmem a ha
    have hall : done ++ [m] ++ (rest ++ sent) = (done ++ m :: rest) ++ sent := by simp
    rw [hall, copies_append, List.pairwise_append]
    refine ⟨h.sorted, List.pairwise_of_forall_mem_list fun a ha b hb => ?_, fun a ha b hb => ?_⟩
    · rw [hsent a ha, hsent b hb]
      exact Int32.le_refl _
    · rw [hsent b hb]
      exact hbehind a ha
  · intro a ha b hb
    have hbound : b.hop ≤ Int32.satAdd q.hop 1 := by
      rw [copies_append, List.mem_append] at hb
      rcases hb with hb | hb
      · exact h.close q hmem b (hrest hb)
      · rw [hsent b hb]
        exact Int32.le_refl _
    have hle : q.hop ≤ a.hop := by
      rw [copies_append, List.mem_append] at ha
      rcases ha with ha | ha
      · exact hflight.1 a ha
      · rw [hsent a ha]
        exact le_satAdd_one q.hop
    exact Int32.le_trans hbound (satAdd_one_mono hle)

end

/-- **Copies are delivered in the order of their hops**, first in, first out. -/
theorem hopOrder_afterAll {net : Network} {x : Uuid} {ds : List Delivery}
    (hfifo : ∀ d ∈ ds, d.index = 0) (h : HopOrder x [] net.flight) :
    HopOrder x (net.delivered ds) (net.afterAll ds).flight := by
  induction ds using List.reverseRecOn with
  | nil => exact h
  | append_singleton ds d ih =>
    have ih := ih fun d hd => hfifo d (List.mem_append_left _ hd)
    have hd : d.index = 0 := hfifo d (List.mem_append_right _ (List.mem_singleton_self d))
    rw [afterAll_append_singleton, delivered_append_singleton]
    generalize net.afterAll ds = now at ih
    rw [hd]
    cases hflight : now.flight with
    | nil =>
      have hm : now.flight[d.index]? = none := by rw [hflight]; rfl
      rw [after_of_none hm, List.getElem?_nil, Option.toList_none, List.append_nil]
      exact ih
    | cons m rest =>
      obtain ⟨hm, hrest⟩ := front_of_flight hd hflight
      rw [List.getElem?_cons_zero, Option.toList_some]
      rw [hflight] at ih
      cases copyStep (x := x) (step_after hm) with
      | aside sent _ hnext hsent =>
        rw [hnext, hrest]
        exact ih.aside hsent
      | @handled n kind q r _ _ hk hid hr hnext =>
        rw [hnext, hrest]
        have hh : n.engine.Handled kind q r := hr ▸ n.engine.handled_onQuery _ _ _ _
        refine ih.handled (Envelope.copyOf?_eq_some_iff.2 ⟨⟨kind, hk⟩, hid⟩) fun b hb => ?_
        obtain ⟨m', hm', hb⟩ := mem_copies.1 hb
        obtain ⟨parcel, hparcel, rfl⟩ := List.mem_map.1 hm'
        obtain ⟨q', hq', -, hhop⟩ := Engine.hop_of_handled hh hparcel
        obtain ⟨⟨kind', hk'⟩, -⟩ := Envelope.copyOf?_eq_some_iff.1 hb
        cases hk'.symm.trans hq'
        exact hhop

/-- A query that is injected is the only copy. -/
theorem hopOrder_start {net : Network} {entry : PeerAddress} {kind : QueryKind} {q : Query}
    {now : ℕ} (h : net.Fresh q.id) : HopOrder q.id [] (net.start entry kind q now).flight := by
  constructor
  · rw [List.nil_append, copies_start h]
    exact List.pairwise_singleton _ q
  · rw [copies_start h]
    intro a ha b hb
    rw [List.mem_singleton] at ha hb
    rw [ha, hb]
    exact le_satAdd_one q.hop

/-! ## First arrivals -/

/-- With the next delivery, a copy of a query comes to a peer for the first time. -/
structure Arrives (net : Network) (ds : ℕ → Delivery) (x : Uuid) (k : ℕ) (p : PeerAddress)
    (q : Query) : Prop where
  peer : net.IsPeer p
  first : p ∉ net.handlers x (firstOf ds k)
  front : ∃ m rest, (net.afterAll (firstOf ds k)).flight = m :: rest ∧ m.receiver = p ∧
    m.copyOf? x = some q

section
variable {net : Network} {ds : ℕ → Delivery} {x : Uuid} {j k : ℕ} {p : PeerAddress} {q : Query}
  (hfifo : ∀ k, (ds k).index = 0)
include hfifo

theorem getElem?_front {m : Envelope} {rest : List Envelope}
    (hflight : (net.afterAll (firstOf ds k)).flight = m :: rest) :
    (net.afterAll (firstOf ds k)).flight[(ds k).index]? = some m :=
  (front_of_flight (hfifo k) hflight).1

theorem Arrives.mem_delivered (h : Arrives net ds x j p q) (hjk : j < k) :
    q ∈ copies x (net.delivered (firstOf ds k)) := by
  obtain ⟨m, rest, hflight, -, hq⟩ := h.front
  refine mem_copies.2 ⟨m, delivered_subset hjk ?_, hq⟩
  rw [firstOf_succ, delivered_append (getElem?_front hfifo hflight)]
  exact List.mem_append_right _ (List.mem_singleton_self m)

/-- The peer to which a copy comes handles the query. -/
theorem Arrives.mem_handlers_succ (h : Arrives net ds x k p q) :
    p ∈ net.handlers x (firstOf ds (k + 1)) := by
  obtain ⟨m, rest, hflight, rfl, hq⟩ := h.front
  rw [firstOf_succ, handlers_append_of_copy (getElem?_front hfifo hflight) hq h.peer]
  exact Finset.mem_insert_self _ _

/-- **Whoever has handled a query** has received a first copy of it. -/
theorem exists_arrives (hp : p ∈ net.handlers x (firstOf ds k)) :
    ∃ j q, j < k ∧ Arrives net ds x j p q := by
  induction k with
  | zero => simp [handlers, visited] at hp
  | succ k ih =>
    by_cases hold : p ∈ net.handlers x (firstOf ds k)
    · obtain ⟨j, q, hj, harrives⟩ := ih hold
      exact ⟨j, q, hj.trans (Nat.lt_succ_self k), harrives⟩
    · cases hflight : (net.afterAll (firstOf ds k)).flight with
      | nil =>
        have hdelivered := delivered_append_singleton net (firstOf ds k) (ds k)
        rw [hflight, List.getElem?_nil, Option.toList_none, List.append_nil] at hdelivered
        rw [firstOf_succ, handlers, hdelivered] at hp
        exact absurd hp hold
      | cons m rest =>
        have hm := getElem?_front hfifo hflight
        rw [firstOf_succ] at hp
        by_cases hcopy : m.copyOf? x = none ∨ ¬ net.IsPeer m.receiver
        · rw [handlers_append_of_ne hm hcopy] at hp
          exact absurd hp hold
        · rw [not_or, not_not] at hcopy
          obtain ⟨q, hq⟩ := Option.ne_none_iff_exists'.1 hcopy.1
          rw [handlers_append_of_copy hm hq hcopy.2] at hp
          have hr := (Finset.mem_insert.1 hp).resolve_right hold
          exact ⟨k, q, Nat.lt_succ_self k, hr ▸ hcopy.2, hold, m, rest, hflight, hr.symm, hq⟩

/-- **A copy in flight to a peer** means that a first copy comes to it, which has come no
    more hops. -/
theorem exists_arrives_of_sent (hstart : HopOrder x [] net.flight) {m : Envelope}
    (hm : m ∈ (net.afterAll (firstOf ds j)).flight) (hq : m.copyOf? x = some q)
    (hpeer : net.IsPeer m.receiver) :
    ∃ k q', Arrives net ds x k m.receiver q' ∧ q'.hop ≤ q.hop := by
  obtain ⟨k, rest, -, hflight⟩ := exists_front hfifo hm
  by_cases hold : m.receiver ∈ net.handlers x (firstOf ds k)
  · obtain ⟨i, q', hi, harrives⟩ := exists_arrives hfifo hold
    have hindex : ∀ d ∈ firstOf ds k, d.index = 0 := by
      intro d hd
      obtain ⟨i, -, rfl⟩ := List.mem_map.1 hd
      exact hfifo i
    have hsorted := (hopOrder_afterAll hindex hstart).sorted
    rw [copies_append, List.pairwise_append] at hsorted
    refine ⟨i, q', harrives, hsorted.2.2 q' (harrives.mem_delivered hfifo hi) q ?_⟩
    rw [hflight, copies_cons_of_some hq]
    exact List.mem_cons_self
  · exact ⟨k, q, ⟨hpeer, hold, m, rest, hflight, rfl, hq⟩, Int32.le_refl _⟩

end

/-! ## Where copies come from -/

/-- A message that a peer sends when a copy first comes to it. -/
structure Forwards (net : Network) (ds : ℕ → Delivery) (kind : QueryKind) (x : Uuid) (k : ℕ)
    (p : PeerAddress) (q : Query) (m : Envelope) : Prop where
  arrives : Arrives net ds x k p q
  sent : ∃ n, (net.afterAll (firstOf ds k)).node? p = some n ∧ n.engine.IsNew q ∧
    ∃ parcel ∈ (n.engine.onQuery n.neighbors (ds k).pick kind q).2, parcel.envelope = m

section
variable {net : Network} {entry : PeerAddress} {kind : QueryKind} {q : Query} {now : ℕ}
  {ds : ℕ → Delivery} (hfifo : ∀ k, (ds k).index = 0) (hfresh : net.Fresh q.id)
  (hlogs : ∀ k, (net.start entry kind q now).LogsSuffice (firstOf ds k))
include hfifo hfresh hlogs

/-- **A peer to which a copy first comes handles it as new**, and what it sends is in
    flight. -/
theorem Arrives.sends {k : ℕ} {p : PeerAddress} {q' : Query}
    (h : Arrives (net.start entry kind q now) ds q.id k p q') :
    q'.IsHopOf q ∧ ∃ n, ((net.start entry kind q now).afterAll (firstOf ds k)).node? p = some n ∧
      n.engine.IsNew q' ∧ ∀ parcel ∈ (n.engine.onQuery n.neighbors (ds k).pick kind q').2,
        parcel.envelope ∈ ((net.start entry kind q now).afterAll (firstOf ds (k + 1))).flight := by
  obtain ⟨m, rest, hflight, rfl, hq'⟩ := h.front
  have hm := getElem?_front hfifo hflight
  have hlater := later_afterAll (net.start entry kind q now) (firstOf ds k)
  cases copyStep (x := q.id) (step_after hm) with
  | aside sent hkept =>
    rw [isPeer_congr hlater, hq'] at hkept
    rcases hkept with hnone | hpeer
    · cases hnone
    · exact absurd h.peer hpeer
  | @handled n kind' q₀ r hpeer hn hk hid hr hnext =>
    have hq₀ : m.copyOf? q.id = some q₀ := Envelope.copyOf?_eq_some_iff.2 ⟨⟨kind', hk⟩, hid⟩
    cases hq'.symm.trans hq₀
    obtain ⟨rfl, hhop⟩ := (isHop_afterAll (isHop_start hfresh) (firstOf ds k)).1 m
      (List.mem_of_getElem? hm) kind' q' hk hid
    refine ⟨hhop, n, hn, ?_, fun parcel hparcel => ?_⟩
    · exact (isNew_iff_not_mem_handlers hfresh (hlogs k) h.peer hn hid).2 h.first
    · rw [afterAll_firstOf_succ, hnext, ← hr]
      exact List.mem_append_right _ (List.mem_map_of_mem hparcel)

/-- **Every copy in flight to a peer** is the query that was injected, or a peer has sent it
    when a copy first came to it. -/
theorem forwards_of_flight (hkind : kind ≠ .randomWalk) (horiginator : q.originator = net.registry)
    {k : ℕ} {m : Envelope} {q' : Query}
    (hm : m ∈ ((net.start entry kind q now).afterAll (firstOf ds k)).flight)
    (hq' : m.copyOf? q.id = some q') (hpeer : (net.start entry kind q now).IsPeer m.receiver) :
    m.receiver = entry ∧ q' = q ∨
      ∃ i p q₀, i < k ∧ Forwards (net.start entry kind q now) ds kind q.id i p q₀ m := by
  induction k with
  | zero =>
    rcases List.mem_append.1 hm with hm | hm
    · refine absurd (Envelope.isSome_copyOf?_iff.1 ?_) (hfresh.flight m hm)
      rw [hq', Option.isSome_some]
    · rw [List.mem_singleton] at hm
      subst hm
      rw [Envelope.copyOf?_query] at hq'
      cases hq'
      exact Or.inl ⟨rfl, rfl⟩
  | succ k ih =>
    have hlater := later_afterAll (net.start entry kind q now) (firstOf ds k)
    have hearlier : m ∈ ((net.start entry kind q now).afterAll (firstOf ds k)).flight →
        m.receiver = entry ∧ q' = q ∨ ∃ i p q₀, i < k + 1 ∧
          Forwards (net.start entry kind q now) ds kind q.id i p q₀ m := fun hm =>
      (ih hm).imp_right fun ⟨i, p, q₀, hi, h⟩ => ⟨i, p, q₀, hi.trans (Nat.lt_succ_self k), h⟩
    rw [afterAll_firstOf_succ] at hm
    cases hflight : ((net.start entry kind q now).afterAll (firstOf ds k)).flight with
    | nil =>
      rw [after_of_none (by rw [hflight]; rfl)] at hm
      exact hearlier hm
    | cons m₀ rest =>
      have hm₀ := getElem?_front hfifo hflight
      cases copyStep (x := q.id) (step_after hm₀) with
      | aside sent _ hnext hsent =>
        rw [hnext, List.mem_append] at hm
        rcases hm with hm | hm
        · exact hearlier (List.mem_of_mem_eraseIdx hm)
        · rw [copies_eq_nil_iff.1 hsent m hm] at hq'
          cases hq'
      | @handled n kind' q₀ r hpeer₀ hn hk hid hr hnext =>
        rw [hnext, List.mem_append] at hm
        rcases hm with hm | hm
        · exact hearlier (List.mem_of_mem_eraseIdx hm)
        · obtain ⟨parcel, hparcel, rfl⟩ := List.mem_map.1 hm
          obtain ⟨rfl, hhop⟩ := (isHop_afterAll (isHop_start hfresh) (firstOf ds k)).1 m₀
            (List.mem_of_getElem? hm₀) kind' q₀ hk hid
          rw [← hr] at hparcel
          rw [isPeer_congr hlater] at hpeer₀
          by_cases hnew : n.engine.IsNew q₀
          · have hfirst := (isNew_iff_not_mem_handlers hfresh (hlogs k) hpeer₀ hn hid).1 hnew
            have hcopy := Envelope.copyOf?_eq_some_iff.2 ⟨⟨kind', hk⟩, hid⟩
            exact Or.inr ⟨k, m₀.receiver, q₀, Nat.lt_succ_self k,
              ⟨hpeer₀, hfirst, m₀, rest, hflight, rfl, hcopy⟩, n, hn, hnew, parcel, hparcel, rfl⟩
          · -- an old copy goes back to the registry
            have hback := Engine.receiver_of_old hkind hnew hparcel
            rw [hhop.2.1, horiginator] at hback
            exact absurd hback hpeer.1

end

end Network

end OverlayCensus
