/-
  OverlayCensus — how far a flood with a limit goes.

  First in, first out, the copies of a flood come in the order of their hops, so a peer is
  first reached on a shortest way and sends the flood on with as many hops as its neighbours
  are away.  Where the hops are used up, it goes no further.

  * `Leads` and `distance`: ways along neighbour lists, and the hops of a shortest one;
  * `firstCopy`: the copy in which a peer first sees a query;
  * `Ball`: how far a flood has come; `Ball.shortest`: it first comes to a peer on a shortest way;
    `Ball.old`, `Ball.handled`: deliveries keep it;
  * `flood_reaches_ball`: at its end, a flood has reached the peers that are near enough.
-/
import Mathlib
import OverlayCensus.Proofs.FloodSending
import OverlayCensus.Proofs.HopOrder
import OverlayCensus.Proofs.Topology

namespace OverlayCensus

/-! ## First copies -/

/-- The first copy of a query that messages bring to a peer. -/
def firstCopy (x : Uuid) (p : PeerAddress) (ms : List Envelope) : Option Query :=
  (copies x (ms.filter fun m => m.receiver = p)).head?

section
variable {x : Uuid} {p : PeerAddress} {ms : List Envelope} {m : Envelope} {q : Query}

theorem firstCopy_append_of_ne (h : m.copyOf? x = none ∨ m.receiver ≠ p) :
    firstCopy x p (ms ++ [m]) = firstCopy x p ms := by
  rw [firstCopy, List.filter_append, copies_append]
  by_cases hr : m.receiver = p
  · rw [List.filter_cons_of_pos (by simpa using hr),
      copies_cons_of_none (h.resolve_right (not_not.2 hr)), List.filter_nil, copies_nil,
      List.append_nil]
    rfl
  · rw [List.filter_cons_of_neg (by simpa using hr), List.filter_nil, copies_nil, List.append_nil]
    rfl

theorem firstCopy_append_of_copy (hr : m.receiver = p) (hq : m.copyOf? x = some q) :
    firstCopy x p (ms ++ [m]) = some ((firstCopy x p ms).getD q) := by
  rw [firstCopy, List.filter_append, copies_append,
    List.filter_cons_of_pos (by simpa using hr), copies_cons_of_some hq, List.head?_append]
  cases h : (copies x (ms.filter fun m => m.receiver = p)).head? <;> simp [firstCopy, h]

theorem firstCopy_eq_none_iff : firstCopy x p ms = none ↔ p ∉ visited x ms := by
  rw [firstCopy, List.head?_eq_none_iff, copies_eq_nil_iff, mem_visited]
  simp only [List.mem_filter, decide_eq_true_eq, and_imp, not_exists, not_and,
    Option.not_isSome_iff_eq_none]

theorem exists_firstCopy (h : p ∈ visited x ms) : ∃ q, firstCopy x p ms = some q :=
  Option.ne_none_iff_exists'.1 fun hnone => firstCopy_eq_none_iff.1 hnone h

theorem mem_visited_append (h : p ∈ visited x ms) : p ∈ visited x (ms ++ [m]) := by
  obtain ⟨m', hm', hr, hc⟩ := mem_visited.1 h
  exact mem_visited.2 ⟨m', List.mem_append_left _ hm', hr, hc⟩

theorem mem_visited_append_self (hq : m.copyOf? x = some q) :
    m.receiver ∈ visited x (ms ++ [m]) := by
  rw [visited_append_of_some hq]
  exact Finset.mem_insert_self _ _

end

/-! ## What a peer sends on -/

namespace Engine
variable {e : Engine} {neighbors : List PeerAddress} {pick : ℕ} {q : Query}

/-- What does not go back to the originator goes to a neighbour, one hop further, and only
    if the flood may go on. -/
theorem sent_onFlood (hlimit : q.limit ≠ Query.unlimited) {p : Parcel}
    (hp : p ∈ (e.onFlood neighbors pick q).2) (hback : p.receiver ≠ q.originator) {q' : Query}
    (hq' : p.envelope.copyOf? q.id = some q') :
    q.mayForward = true ∧ p.receiver ∈ neighbors ∧ q'.hop = Int32.satAdd q.hop 1 ∧
      q'.sender = e.identity := by
  have hhandled : e.Handled .flood q (e.onFlood neighbors pick q) := handled_onFlood
  obtain ⟨q₁, hq₁, -, hnext⟩ := hop_of_handled hhandled hp
  obtain ⟨⟨kind, hk⟩, -⟩ := Envelope.copyOf?_eq_some_iff.1 hq'
  cases hq₁.symm.trans hk
  refine ⟨?_, (receiver_onFlood hp).resolve_right hback, hnext, hhandled.sender hp hq₁⟩
  by_contra hend
  exact hback (receiver_onFlood_of_end (Or.inr ⟨hlimit, hend⟩) hp)

/-- If the flood is new and may go on, each neighbour but the sender gets a copy. -/
theorem exists_sent_onFlood (pick : ℕ) (hnew : e.IsNew q) (hforward : q.mayForward = true)
    {r : PeerAddress} (hr : r ∈ neighbors) (hne : r ≠ q.sender) :
    ∃ p ∈ (e.onFlood neighbors pick q).2, p.receiver = r ∧
      ∃ q' ∈ p.envelope.copyOf? q.id, q'.hop = Int32.satAdd q.hop 1 := by
  obtain ⟨p, hp, hreceiver⟩ := List.mem_map.1 (mem_receivers_of_new pick hnew hforward hr hne)
  obtain ⟨q', hq', hhop, hnext⟩ := hop_of_handled handled_onFlood hp
  exact ⟨p, hp, hreceiver, q', Envelope.copyOf?_eq_some_iff.2 ⟨⟨.flood, hq'⟩, hhop.1⟩, hnext⟩

end Engine

namespace Network

/-! ## Ways along neighbour lists -/

/-- A way of some hops leads from a peer to another along neighbour lists. -/
inductive Leads (net : Network) (a : PeerAddress) : ℕ → PeerAddress → Prop
  | here : Leads net a 0 a
  | on {n : ℕ} {p r : PeerAddress} : Leads net a n p → r ∈ net.neighborsOf p →
      Leads net a (n + 1) r

/-- The number of hops of a shortest way, infinite if there is none. -/
noncomputable def distance (net : Network) (a p : PeerAddress) : ℕ∞ :=
  ⨅ n : {n : ℕ // net.Leads a n p}, (n : ℕ∞)

section
variable {net : Network} {a p : PeerAddress} {n : ℕ}

theorem distance_le (h : net.Leads a n p) : net.distance a p ≤ n :=
  iInf_le (fun k : {k : ℕ // net.Leads a k p} => ((k : ℕ) : ℕ∞)) ⟨n, h⟩

theorem distance_eq (h : net.Leads a n p) (hmin : ∀ k, net.Leads a k p → n ≤ k) :
    net.distance a p = n :=
  le_antisymm (distance_le h) (le_iInf fun k => Nat.cast_le.2 (hmin k k.2))

theorem exists_leads_of_lt (h : net.distance a p < n) : ∃ k < n, net.Leads a k p := by
  obtain ⟨⟨k, hk⟩, hlt⟩ := iInf_lt_iff.1 h
  exact ⟨k, Nat.cast_lt.1 hlt, hk⟩

theorem Leads.of_links {net' : Network} (h : net.Leads a n p)
    (hlinks : ∀ p, net'.neighborsOf p = net.neighborsOf p) : net'.Leads a n p := by
  induction h with
  | here => exact .here
  | on _ hlink ih => exact .on ih (hlinks _ ▸ hlink)

theorem distance_start (entry : PeerAddress) (kind : QueryKind) (q : Query) (now : ℕ) :
    (net.start entry kind q now).distance a p = net.distance a p :=
  le_antisymm (le_iInf fun k => distance_le (k.2.of_links fun _ => rfl))
    (le_iInf fun k => distance_le (k.2.of_links fun _ => rfl))

/-- Only peers have neighbours. -/
theorem isPeer_of_link {r : PeerAddress} (hregistry : net.registry ∉ net.peers)
    (h : r ∈ net.neighborsOf p) : net.IsPeer p := by
  obtain ⟨n, hn, -⟩ := mem_neighborsOf h
  refine isPeer_of_mem_peers hregistry ?_
  rw [← isSome_node?_iff, hn]
  rfl

end

/-! ## How far a flood has come -/

/-- A query has come to a peer, or a copy with no more than some hops is in flight to it. -/
def Comes (x : Uuid) (r : PeerAddress) (hops : ℤ) (done flight : List Envelope) : Prop :=
  r ∈ visited x done ∨ ∃ m ∈ flight, m.receiver = r ∧ ∃ q ∈ m.copyOf? x, q.hop.toInt ≤ hops

theorem Comes.after {x : Uuid} {r : PeerAddress} {hops : ℤ} {done rest : List Envelope}
    {m : Envelope} (h : Comes x r hops done (m :: rest)) (sent : List Envelope) :
    Comes x r hops (done ++ [m]) (rest ++ sent) := by
  rcases h with hr | ⟨m', hm', rfl, q, hq, hle⟩
  · exact Or.inl (mem_visited_append hr)
  · rcases List.mem_cons.1 hm' with rfl | hm'
    · exact Or.inl (mem_visited_append_self hq)
    · exact Or.inr ⟨m', List.mem_append_left _ hm', rfl, q, hq, hle⟩

/-- The state of a flood with a limit.  A peer that it has reached first saw it on a shortest
    way, and sent it on to its neighbours if the way may be longer.  A copy in flight to a
    peer is on a way as well; if its sender is a peer to which the receiver could send, the
    flood has reached the sender before. -/
structure Ball (net : Network) (entry : PeerAddress) (q : Query) (done flight : List Envelope) :
    Prop where
  seen : ∀ p, net.IsPeer p → ∀ q' ∈ firstCopy q.id p done, ∃ k : ℕ, q'.hop.toInt = k ∧
    net.distance entry p = k ∧ (k : ℤ) < max 1 q.limit.toInt
  sent : ∀ m ∈ flight, net.IsPeer m.receiver → ∀ q' ∈ m.copyOf? q.id, ∃ k : ℕ,
    q'.hop.toInt = k ∧ net.Leads entry k m.receiver ∧ (k : ℤ) < max 1 q.limit.toInt
  sender : ∀ m ∈ flight, net.IsPeer m.receiver → ∀ q' ∈ m.copyOf? q.id, net.IsPeer q'.sender →
    q'.sender ∈ net.neighborsOf m.receiver → q'.sender ∈ visited q.id done
  start : Comes q.id entry 0 done flight
  awaited : ∀ p r, net.IsPeer r → r ∈ net.neighborsOf p → ∀ q' ∈ firstCopy q.id p done,
    q'.hop.toInt + 1 < q.limit.toInt → Comes q.id r (q'.hop.toInt + 1) done flight

namespace Ball
variable {net : Network} {entry : PeerAddress} {q : Query}
  {done flight rest sent : List Envelope} {m : Envelope}

/-- **What is nearer than all copies in flight has been reached**, up to the limit. -/
theorem mem_visited_of_leads (h : net.Ball entry q done flight)
    (hregistry : net.registry ∉ net.peers) {bound : ℤ} (hbound : bound ≤ max 1 q.limit.toInt)
    (hmin : ∀ q' ∈ copies q.id flight, bound ≤ q'.hop.toInt) {k : ℕ} {p : PeerAddress}
    (hleads : net.Leads entry k p) (hk : (k : ℤ) < bound) (hp : net.IsPeer p) :
    p ∈ visited q.id done := by
  have hnear : ∀ {r : PeerAddress} {hops : ℤ}, Comes q.id r hops done flight → hops < bound →
      r ∈ visited q.id done := by
    intro r hops hcomes hlt
    refine hcomes.resolve_right ?_
    rintro ⟨m, hm, -, q', hq', hle⟩
    have hfar := hmin q' (mem_copies.2 ⟨m, hm, hq'⟩)
    omega
  induction hleads with
  | here => exact hnear h.start hk
  | @on n p r hleads hlink ih =>
    push_cast at hk
    have hpeer := isPeer_of_link hregistry hlink
    obtain ⟨q', hq'⟩ := exists_firstCopy (ih (by omega) hpeer)
    obtain ⟨j, hhop, hdist, -⟩ := h.seen p hpeer q' hq'
    have hle : j ≤ n := by
      have hle := distance_le hleads
      rw [hdist] at hle
      exact Nat.cast_le.1 hle
    exact hnear (h.awaited p r hp hlink q' hq' (by omega)) (by omega)

/-- A delivery that brings no peer its first copy keeps the state. -/
theorem old (h : net.Ball entry q done (m :: rest)) (hregistry : net.registry ∉ net.peers)
    (hold : m.copyOf? q.id = none ∨ ¬ net.IsPeer m.receiver ∨ m.receiver ∈ visited q.id done)
    (hsent : ∀ m' ∈ sent, net.IsPeer m'.receiver → m'.copyOf? q.id = none) :
    net.Ball entry q (done ++ [m]) (rest ++ sent) := by
  have hfirst : ∀ p, net.IsPeer p → firstCopy q.id p (done ++ [m]) = firstCopy q.id p done := by
    intro p hp
    by_cases hm : m.copyOf? q.id = none ∨ m.receiver ≠ p
    · exact firstCopy_append_of_ne hm
    · rw [not_or, not_not] at hm
      obtain ⟨hcopy, rfl⟩ := hm
      obtain ⟨q', hq'⟩ := Option.ne_none_iff_exists'.1 hcopy
      have hvisited := (hold.resolve_left hcopy).resolve_left (not_not.2 hp)
      obtain ⟨q₀, hq₀⟩ := exists_firstCopy hvisited
      rw [firstCopy_append_of_copy rfl hq', hq₀]
      rfl
  have hflight : ∀ m' ∈ rest ++ sent, net.IsPeer m'.receiver → ∀ q' ∈ m'.copyOf? q.id,
      m' ∈ m :: rest := by
    intro m' hm' hp q' hq'
    rcases List.mem_append.1 hm' with hm' | hm'
    · exact List.mem_cons_of_mem m hm'
    · rw [hsent m' hm' hp] at hq'
      cases hq'
  constructor
  case seen =>
    intro p hp q' hq'
    rw [hfirst p hp] at hq'
    exact h.seen p hp q' hq'
  case sent =>
    intro m' hm' hp q' hq'
    exact h.sent m' (hflight m' hm' hp q' hq') hp q' hq'
  case sender =>
    intro m' hm' hp q' hq' hs hlink
    exact mem_visited_append (h.sender m' (hflight m' hm' hp q' hq') hp q' hq' hs hlink)
  case start => exact h.start.after sent
  case awaited =>
    intro p r hr hlink q' hq' hlt
    rw [hfirst p (isPeer_of_link hregistry hlink)] at hq'
    exact (h.awaited p r hr hlink q' hq' hlt).after sent

/-- A copy that comes to a peer first, and no later than any other copy, comes on a shortest way. -/
theorem shortest (h : net.Ball entry q done (m :: rest)) (hregistry : net.registry ∉ net.peers)
    {q' : Query} (hq' : m.copyOf? q.id = some q') (hpeer : net.IsPeer m.receiver)
    (hnew : m.receiver ∉ visited q.id done) (hmin : ∀ q'' ∈ copies q.id rest, q'.hop ≤ q''.hop) :
    ∃ k : ℕ, q'.hop.toInt = k ∧ net.Leads entry k m.receiver ∧
      net.distance entry m.receiver = k ∧ (k : ℤ) < max 1 q.limit.toInt := by
  obtain ⟨k, hhop, hleads, hlt⟩ := h.sent m List.mem_cons_self hpeer q' hq'
  have hfar : ∀ q'' ∈ copies q.id (m :: rest), (k : ℤ) ≤ q''.hop.toInt := by
    intro q'' hq''
    rw [copies_cons_of_some hq', List.mem_cons] at hq''
    rcases hq'' with rfl | hq''
    · exact hhop.ge
    · have hle := hmin q'' hq''
      rw [Int32.le_iff_toInt_le, hhop] at hle
      exact hle
  refine ⟨k, hhop, hleads, distance_eq hleads fun j hj => Nat.le_of_not_lt fun hjk => hnew ?_, hlt⟩
  exact h.mem_visited_of_leads hregistry hlt.le hfar hj (Nat.cast_lt.2 hjk) hpeer

/-- **A peer first sees the flood on a shortest way** and sends it on to its neighbours, if it
    may go on. -/
theorem first (h : net.Ball entry q done (m :: rest)) (hregistry : net.registry ∉ net.peers)
    {q' : Query} (hq' : m.copyOf? q.id = some q') (hlimit : q'.limit = q.limit)
    (hpeer : net.IsPeer m.receiver) (hnew : m.receiver ∉ visited q.id done)
    (hmin : ∀ q'' ∈ copies q.id rest, q'.hop ≤ q''.hop)
    (hsent : ∀ m' ∈ sent, net.IsPeer m'.receiver → ∀ q'' ∈ m'.copyOf? q.id,
      q'.mayForward = true ∧ m'.receiver ∈ net.neighborsOf m.receiver ∧
        q''.hop = Int32.satAdd q'.hop 1 ∧ q''.sender = m.receiver)
    (hall : q'.mayForward = true → ∀ r ∈ net.neighborsOf m.receiver, r ≠ q'.sender →
      ∃ m' ∈ sent, m'.receiver = r ∧ ∃ q'' ∈ m'.copyOf? q.id, q''.hop = Int32.satAdd q'.hop 1) :
    net.Ball entry q (done ++ [m]) (rest ++ sent) := by
  obtain ⟨k, hhop, hleads, hshortest, hlt⟩ := h.shortest hregistry hq' hpeer hnew hmin
  have hfirst : firstCopy q.id m.receiver (done ++ [m]) = some q' := by
    rw [firstCopy_append_of_copy rfl hq', firstCopy_eq_none_iff.2 hnew]
    rfl
  have hon : q'.mayForward = true → (Int32.satAdd q'.hop 1).toInt = (k + 1 : ℕ) ∧
      ((k + 1 : ℕ) : ℤ) < max 1 q.limit.toInt := by
    intro hforward
    obtain ⟨hnext, hless⟩ := Query.toInt_next_of_mayForward hforward
    rw [hlimit] at hless
    push_cast
    exact ⟨by omega, by omega⟩
  constructor
  case seen =>
    intro p hp q₀ hq₀
    by_cases hpm : m.receiver = p
    · subst hpm
      rw [hfirst] at hq₀
      cases hq₀
      exact ⟨k, hhop, hshortest, hlt⟩
    · rw [firstCopy_append_of_ne (Or.inr hpm)] at hq₀
      exact h.seen p hp q₀ hq₀
  case sent =>
    intro m' hm' hp q₀ hq₀
    rcases List.mem_append.1 hm' with hm' | hm'
    · exact h.sent m' (List.mem_cons_of_mem m hm') hp q₀ hq₀
    · obtain ⟨hforward, hlink, hnext, -⟩ := hsent m' hm' hp q₀ hq₀
      exact ⟨k + 1, hnext ▸ (hon hforward).1, .on hleads hlink, (hon hforward).2⟩
  case sender =>
    intro m' hm' hp q₀ hq₀ hs hlink
    rcases List.mem_append.1 hm' with hm' | hm'
    · exact mem_visited_append (h.sender m' (List.mem_cons_of_mem m hm') hp q₀ hq₀ hs hlink)
    · rw [(hsent m' hm' hp q₀ hq₀).2.2.2]
      exact mem_visited_append_self hq'
  case start => exact h.start.after sent
  case awaited =>
    intro p r hr hlink q₀ hq₀ hless
    by_cases hpm : m.receiver = p
    · subst hpm
      rw [hfirst] at hq₀
      cases hq₀
      have hforward := Query.mayForward_of_lt (q := q') (by rw [hlimit]; exact hless)
      by_cases hback : r = q'.sender
      · -- whoever sent the copy has seen the flood before
        subst hback
        exact Or.inl (mem_visited_append (h.sender m List.mem_cons_self hpeer q' hq' hr hlink))
      · obtain ⟨m', hm', hrec, q'', hq'', hnext⟩ := hall hforward r hlink hback
        refine Or.inr ⟨m', List.mem_append_right _ hm', hrec, q'', hq'', ?_⟩
        rw [hnext, (hon hforward).1, hhop]
        push_cast
        exact le_rfl
    · rw [firstCopy_append_of_ne (Or.inr hpm)] at hq₀
      exact (h.awaited p r hr hlink q₀ hq₀ hless).after sent

/-- A peer that handles a copy keeps the state, whether it is the first one or not. -/
theorem handled (h : net.Ball entry q done (m :: rest)) (hregistry : net.registry ∉ net.peers)
    {n : Node} {q' : Query} (pick : ℕ) (hq' : m.copyOf? q.id = some q')
    (hlimited : q.limit ≠ Query.unlimited) (hlimit : q'.limit = q.limit)
    (hback : q'.originator = net.registry) (hpeer : net.IsPeer m.receiver)
    (hidentity : n.engine.identity = m.receiver) (hown : n.neighbors = net.neighborsOf m.receiver)
    (hnew : n.engine.IsNew q' ↔ m.receiver ∉ visited q.id done)
    (hmin : ∀ q'' ∈ copies q.id rest, q'.hop ≤ q''.hop) :
    net.Ball entry q (done ++ [m])
      (rest ++ (n.engine.onFlood n.neighbors pick q').2.map Parcel.envelope) := by
  have hid : q'.id = q.id := (Envelope.copyOf?_eq_some_iff.1 hq').2
  by_cases hold : m.receiver ∈ visited q.id done
  · refine h.old hregistry (Or.inr (Or.inr hold)) fun m' hm' hp => ?_
    obtain ⟨parcel, hparcel, rfl⟩ := List.mem_map.1 hm'
    have hparcel : parcel ∈ (n.engine.onQuery n.neighbors pick .flood q').2 := hparcel
    have hreg := Engine.receiver_of_old (by decide) (fun h => hnew.1 h hold) hparcel
    exact absurd (hreg.trans hback) hp.1
  · refine h.first hregistry hq' hlimit hpeer hold hmin (fun m' hm' hp q'' hq'' => ?_)
      fun hforward p hp hne => ?_
    · obtain ⟨parcel, hparcel, rfl⟩ := List.mem_map.1 hm'
      obtain ⟨hforward, hlink, hnext, hs⟩ := Engine.sent_onFlood (hlimit ▸ hlimited) hparcel
        (fun he => hp.1 (he.trans hback)) (hid ▸ hq'')
      exact ⟨hforward, hown ▸ hlink, hnext, hs.trans hidentity⟩
    · obtain ⟨parcel, hparcel, hreceiver, hcopy⟩ :=
        Engine.exists_sent_onFlood pick (hnew.2 hold) hforward (hown ▸ hp) hne
      rw [hid] at hcopy
      exact ⟨parcel.envelope, List.mem_map_of_mem hparcel, hreceiver, hcopy⟩

/-- Once no copy is in flight, the peers reached are those nearer than the limit. -/
theorem mem_visited_iff (h : net.Ball entry q done flight) (hregistry : net.registry ∉ net.peers)
    (hdone : copies q.id flight = []) {p : PeerAddress} (hp : net.IsPeer p) :
    p ∈ visited q.id done ↔ net.distance entry p < (max 1 q.limit.toInt).toNat := by
  constructor
  · intro hvisited
    obtain ⟨q', hq'⟩ := exists_firstCopy hvisited
    obtain ⟨k, -, hdist, hlt⟩ := h.seen p hp q' hq'
    rw [hdist, Nat.cast_lt]
    omega
  · intro hnear
    obtain ⟨k, hk, hleads⟩ := exists_leads_of_lt hnear
    refine h.mem_visited_of_leads hregistry le_rfl (fun q' hq' => ?_) hleads (by omega) hp
    rw [hdone] at hq'
    cases hq'

end Ball

/-! ## Whole runs -/

section
variable {net : Network} {entry : PeerAddress} {q : Query} {now : ℕ} {ds : List Delivery}

/-- A flood that has just been injected is on its way to the entry. -/
theorem ball_start (hfresh : net.Fresh q.id)
    (hhop : q.hop = 0) (hsender : q.sender ∈ net.peers → q.sender ∉ net.neighborsOf entry) :
    (net.start entry .flood q now).Ball entry q [] (net.start entry .flood q now).flight := by
  have hcopy : ∀ m ∈ (net.start entry .flood q now).flight, ∀ q' ∈ m.copyOf? q.id,
      m.receiver = entry ∧ q' = q := by
    intro m hm q' hq'
    rcases List.mem_append.1 hm with hm | hm
    · refine absurd (Envelope.isSome_copyOf?_iff.1 ?_) (hfresh.flight m hm)
      rw [hq']
      rfl
    · rw [List.mem_singleton] at hm
      subst hm
      rw [Envelope.copyOf?_query] at hq'
      cases hq'
      exact ⟨rfl, rfl⟩
  have hnone : ∀ p, firstCopy q.id p [] = none := fun p => rfl
  constructor
  case seen =>
    intro p _ q' hq'
    rw [hnone p] at hq'
    cases hq'
  case sent =>
    intro m hm _ q' hq'
    obtain ⟨hr, rfl⟩ := hcopy m hm q' hq'
    refine ⟨0, by rw [hhop]; rfl, hr ▸ .here, ?_⟩
    push_cast
    omega
  case sender =>
    intro m hm _ q' hq' hs hlink
    obtain ⟨hr, rfl⟩ := hcopy m hm q' hq'
    rw [hr] at hlink
    exact absurd hlink (hsender (isSome_node?_iff.1 hs.2))
  case start =>
    refine Or.inr ⟨⟨entry, .query .flood q⟩, ?_, rfl, q, Envelope.copyOf?_query _ _ _, ?_⟩
    · exact List.mem_append_right _ (List.mem_singleton_self _)
    · rw [hhop]
      exact le_rfl
  case awaited =>
    intro p r _ _ q' hq'
    rw [hnone p] at hq'
    cases hq'

/-- **How a flood with a limit spreads**, first in, first out. -/
theorem ball_afterAll (hregistry : net.registry ∉ net.peers) (hfresh : net.Fresh q.id)
    (hhop : q.hop = 0) (hlimit : q.limit ≠ Query.unlimited)
    (horiginator : q.originator = net.registry)
    (hsender : q.sender ∈ net.peers → q.sender ∉ net.neighborsOf entry)
    (hfifo : ∀ d ∈ ds, d.index = 0) (hlogs : (net.start entry .flood q now).LogsSuffice ds) :
    (net.start entry .flood q now).Ball entry q ((net.start entry .flood q now).delivered ds)
      ((net.start entry .flood q now).afterAll ds).flight := by
  induction ds using List.reverseRecOn with
  | nil => exact ball_start hfresh hhop hsender
  | append_singleton ds d ih =>
    have hindex : ∀ d ∈ ds, d.index = 0 := fun d hd => hfifo d (List.mem_append_left _ hd)
    have hd : d.index = 0 := hfifo d (List.mem_append_right _ (List.mem_singleton_self d))
    have ih := ih hindex hlogs.of_append_singleton
    have hstart : HopOrder q.id [] (net.start entry .flood q now).flight := hopOrder_start hfresh
    have horder := hopOrder_afterAll hindex hstart
    have hops : ∀ m ∈ (net.start entry .flood q now).flight, IsHop .flood q m :=
      isHop_start hfresh
    have hlater := later_afterAll (net.start entry .flood q now) ds
    have hregistry' : (net.start entry .flood q now).registry ∉
      (net.start entry .flood q now).peers := hregistry
    rw [afterAll_append_singleton, delivered_append_singleton, hd]
    cases hflight : ((net.start entry .flood q now).afterAll ds).flight with
    | nil =>
      rw [after_of_none (by rw [hflight]; rfl), List.getElem?_nil, Option.toList_none,
        List.append_nil]
      exact ih
    | cons m rest =>
      obtain ⟨hm, hrest⟩ := front_of_flight hd hflight
      rw [List.getElem?_cons_zero, Option.toList_some]
      have hop := (isHop_afterAll hops ds).1 m (List.mem_of_getElem? hm)
      rw [hflight] at ih horder
      cases copyStep (x := q.id) (step_after hm) with
      | aside sent hkept hnext hsent =>
        rw [isPeer_congr hlater] at hkept
        rw [hnext, hrest]
        exact ih.old hregistry' (hkept.imp_right Or.inl)
          fun m' hm' _ => copies_eq_nil_iff.1 hsent m' hm'
      | @handled n kind q' r hpeer hn hk hid hr hnext =>
        have hq' : m.copyOf? q.id = some q' := Envelope.copyOf?_eq_some_iff.2 ⟨⟨kind, hk⟩, hid⟩
        obtain ⟨rfl, hhop'⟩ := hop kind q' hk hid
        rw [isPeer_congr hlater] at hpeer
        have hnew := isNew_iff_not_mem_handlers hfresh hlogs.of_append_singleton hpeer hn hid
        rw [mem_handlers, and_iff_left hpeer] at hnew
        have hown : n.neighbors = (net.start entry .flood q now).neighborsOf m.receiver := by
          rw [← hlater.neighborsOf, neighborsOf_eq hn]
        have hsorted := (List.pairwise_append.1 (copies_append (x := q.id) ▸ horder.sorted)).2.1
        rw [copies_cons_of_some hq', List.pairwise_cons] at hsorted
        rw [hnext, hrest, ← hr]
        exact ih.handled hregistry' d.pick hq' hlimit hhop'.2.2.2 (hhop'.2.1.trans horiginator) hpeer
          (identity_of_node? hn) hown hnew hsorted.1

/-- **A flood with a limit reaches exactly the ball around its entry.**  It comes from outside:
    its sender, the registry as a rule, is no peer among the neighbours of the entry.  Messages
    are delivered in the order of sending.  Once no copy is in flight any more, the peers that
    are fewer hops away from the entry than the limit, or than one, have contributed, each of
    them once, and no others; each of them first saw the flood with as many hops as it is
    away. -/
theorem flood_reaches_ball (hdistinct : net.peers.Nodup) (hregistry : net.registry ∉ net.peers)
    (hfresh : net.Fresh q.id) (hhop : q.hop = 0) (hlimit : q.limit ≠ Query.unlimited)
    (horiginator : q.originator = net.registry)
    (hsender : q.sender ∈ net.peers → q.sender ∉ net.neighborsOf entry)
    (hfifo : ∀ d ∈ ds, d.index = 0) (hlogs : (net.start entry .flood q now).LogsSuffice ds)
    (hdone : copies q.id ((net.start entry .flood q now).afterAll ds).flight = []) :
    let home := net.start entry .flood q now
    let radius : ℕ∞ := (max 1 q.limit.toInt).toNat
    ∀ n ∈ (home.afterAll ds).nodes,
      let p := n.engine.identity
      (net.distance entry p < radius →
        n.engine.contributions.count q.id = 1 ∧
          ∃ q' ∈ firstCopy q.id p (home.delivered ds), ∃ k : ℕ, q'.hop.toInt = k ∧
            net.distance entry p = k) ∧
        (radius ≤ net.distance entry p →
          n.engine.contributions.count q.id = 0 ∧
            firstCopy q.id p (home.delivered ds) = none) := by
  intro home radius n hn p
  have hball := ball_afterAll hregistry hfresh hhop hlimit horiginator hsender hfifo hlogs
  have hpeers : (home.afterAll ds).peers = home.peers := peers_afterAll home ds
  have hnode : (home.afterAll ds).node? p = some n := node?_of_mem (hpeers ▸ hdistinct) hn
  have hpeer : home.IsPeer p :=
    isPeer_of_mem_peers hregistry (hpeers ▸ List.mem_map.2 ⟨n, hn, rfl⟩)
  have hcount := count_contributions hfresh hlogs hpeer.1 hnode
  have hiff : p ∈ home.handlers q.id ds ↔ p ∈ visited q.id (home.delivered ds) := by
    rw [mem_handlers, and_iff_left hpeer]
  have hsame : home.distance entry p = net.distance entry p := distance_start entry .flood q now
  have hreached : p ∈ visited q.id (home.delivered ds) ↔ net.distance entry p < radius :=
    hsame ▸ hball.mem_visited_iff hregistry hdone hpeer
  constructor
  · intro hnear
    have hvisited := hreached.2 hnear
    obtain ⟨q', hq'⟩ := exists_firstCopy hvisited
    obtain ⟨k, hcame, hdist, -⟩ := hball.seen p hpeer q' hq'
    exact ⟨by rw [hcount, if_pos (hiff.2 hvisited)], q', hq', k, hcame, hsame ▸ hdist⟩
  · intro hfar
    have hvisited := mt hreached.1 (not_lt.2 hfar)
    exact ⟨by rw [hcount, if_neg (mt hiff.1 hvisited)], firstCopy_eq_none_iff.2 hvisited⟩

end

open Sample in
/-- A flood with a limit of two hops, which comes to the neighbours of its entry and goes no
    further. -/
theorem flood_reaches_ball_kite :
    let home := kite.start (peer 1) .flood (query 2) 0
    let radius : ℕ∞ := (max 1 (query 2).limit.toInt).toNat
    kite.peers.Nodup ∧ kite.registry ∉ kite.peers ∧ kite.Fresh (query 2).id ∧
      (query 2).hop = 0 ∧ (query 2).limit ≠ Query.unlimited ∧
      (query 2).originator = kite.registry ∧
      ((query 2).sender ∈ kite.peers → (query 2).sender ∉ kite.neighborsOf (peer 1)) ∧
      (∀ d ∈ inOrder 9, d.index = 0) ∧ home.LogsSuffice (inOrder 9) ∧
      copies (query 2).id (home.afterAll (inOrder 9)).flight = [] ∧
      ∀ n ∈ (home.afterAll (inOrder 9)).nodes,
        let p := n.engine.identity
        (kite.distance (peer 1) p < radius →
          n.engine.contributions.count (query 2).id = 1 ∧
            ∃ q' ∈ firstCopy (query 2).id p (home.delivered (inOrder 9)), ∃ k : ℕ,
              q'.hop.toInt = k ∧ kite.distance (peer 1) p = k) ∧
          (radius ≤ kite.distance (peer 1) p →
            n.engine.contributions.count (query 2).id = 0 ∧
              firstCopy (query 2).id p (home.delivered (inOrder 9)) = none) := by
  intro home radius
  have hdistinct : kite.peers.Nodup := by decide +kernel
  have hregistry : kite.registry ∉ kite.peers := by decide +kernel
  have hfresh : kite.Fresh (query 2).id := fresh_query 2
  have hsender : (query 2).sender ∈ kite.peers →
      (query 2).sender ∉ kite.neighborsOf (peer 1) := by decide +kernel
  have hfifo : ∀ d ∈ inOrder 9, d.index = 0 := by decide
  have hlogs : home.LogsSuffice (inOrder 9) := by decide +kernel
  have hdone : copies (query 2).id (home.afterAll (inOrder 9)).flight = [] := by decide +kernel
  exact ⟨hdistinct, hregistry, hfresh, rfl, by decide, rfl, hsender, hfifo, hlogs, hdone,
    flood_reaches_ball hdistinct hregistry hfresh rfl (by decide) rfl hsender hfifo hlogs hdone⟩

end Network

end OverlayCensus
