/-
  OverlayCensus — what goes out over connections.

  `Ready` connections are open, and a peer is reached over a connection that leads to it.  What
  has to be done then goes out as messages to the peers that were meant (`envelope?`), and each
  peer that has no lasting connection yet (`line?`) is introduced to the sender.

  * `Ready.perform`, `Ready.post`: who is reached afterwards and what is in flight, for one thing
    to do and for several;
  * `Ready.greet`, `Ready.isConnected_greet`: an introduction makes its sender reachable.
-/
import Mathlib
import OverlayCensus.Cluster

namespace OverlayCensus

namespace Outgoing

/-- The peer to which there has to be a lasting connection. -/
def line? : Outgoing → Option PeerAddress
  | .send p _ | .dial p => some p
  | .sendOnce .. => none

/-- The message that goes out. -/
def envelope? : Outgoing → Option Envelope
  | .send p m | .sendOnce p m => some ⟨p, m⟩
  | .dial _ => none

theorem filterMap_envelope?_send {α : Type} (l : List α) (p : α → PeerAddress) (m : α → Message) :
    (l.map fun a => send (p a) (m a)).filterMap envelope? = l.map fun a => ⟨p a, m a⟩ := by
  rw [List.filterMap_map]
  exact congrFun List.filterMap_eq_map l

end Outgoing

namespace Connections

variable {c : Connections} {own p q : PeerAddress} {line : ℕ}

/-- Connections of a peer that are open, in which a peer is reached over a connection that leads
    to it. -/
structure Ready (c : Connections) (own : PeerAddress) : Prop where
  identity : c.identity = own
  isOpen : c.closed = false
  numbered : ∀ l ∈ c.lines, l.1 < c.next
  routed : ∀ p line, c.route? p = some line → c.remote? line = some p

theorem ready_start (own : PeerAddress) : (start own).Ready own :=
  ⟨rfl, rfl, by simp [start], by simp [start, route?]⟩

theorem isConnected_iff : c.isConnected p = true ↔ ∃ line, c.route? p = some line :=
  Option.isSome_iff_exists

/-! ## A new connection -/

namespace Ready

theorem lt_of_remote? (h : c.Ready own) (hline : c.remote? line = some p) : line < c.next := by
  obtain ⟨before, after, hlines, -⟩ := List.lookup_eq_some_iff.1 (Option.join_eq_some_iff.1 hline)
  exact h.numbered (line, some p) (by simp [hlines])

/-- A connection more, over which a peer is reached from now on. -/
theorem cons (h : c.Ready own) (routes : List (PeerAddress × ℕ))
    (hroutes : ∀ q line, routes.lookup q = some line →
      q = p ∧ line = c.next ∨ c.route? q = some line) :
    ({ c with
        lines := (c.next, some p) :: c.lines
        routes := routes
        next := c.next + 1 } : Connections).Ready own := by
  refine ⟨h.identity, h.isOpen, fun l hl => ?_, fun q line hq => ?_⟩
  · rcases List.mem_cons.1 hl with rfl | hl
    · exact Nat.lt_succ_self _
    · exact (h.numbered l hl).trans (Nat.lt_succ_self _)
  · rcases hroutes q line hq with ⟨rfl, rfl⟩ | hold
    · simp [remote?]
    · have hremote := h.routed q line hold
      have hne : line ≠ c.next := (h.lt_of_remote? hremote).ne
      rw [remote?, List.lookup_cons, beq_false_of_ne hne]
      exact hremote

/-! ## Introductions -/

theorem greet_introduction (h : c.Ready own) (p : PeerAddress) :
    c.greet (.introduction p) =
      { c with
        lines := (c.next, some p) :: c.lines
        routes := (p, c.next) :: c.routes.filter fun r => r.1 ≠ p
        next := c.next + 1 } := by
  simp only [Connections.greet, accept, introduce, List.map_cons, if_true, mk.injEq,
    List.cons.injEq, true_and, and_true]
  exact (List.map_congr_left fun l hl => if_neg (h.numbered l hl).ne).trans (List.map_id _)

theorem lookup_greet (h : c.Ready own) (p q : PeerAddress) :
    (c.greet (.introduction p)).route? q = if q = p then some c.next else c.route? q := by
  rw [h.greet_introduction, route?, List.lookup_cons]
  by_cases hqp : q = p
  · rw [if_pos hqp, beq_iff_eq.2 hqp]
  · rw [if_neg hqp, beq_false_of_ne hqp, route?]
    -- the routes that are dropped lead elsewhere
    induction c.routes with
    | nil => rfl
    | cons r routes ih =>
      obtain ⟨r, line⟩ := r
      rw [List.filter_cons, List.lookup_cons]
      by_cases hrp : r = p
      · subst hrp
        simpa [beq_false_of_ne hqp] using ih
      · simp only [ne_eq, hrp, not_false_eq_true, decide_true, if_true, List.lookup_cons]
        split
        · rfl
        · exact ih

/-- A message that comes in leaves connections ready. -/
theorem greet (h : c.Ready own) (m : Message) : (c.greet m).Ready own := by
  cases m with
  | introduction p =>
    have hcons := h.cons (p := p) ((p, c.next) :: c.routes.filter fun r => r.1 ≠ p)
      fun q line hq => by
        have hlookup := h.lookup_greet p q
        rw [h.greet_introduction, route?, hq] at hlookup
        split_ifs at hlookup with hqp
        · exact Or.inl ⟨hqp, Option.some.inj hlookup⟩
        · exact Or.inr hlookup.symm
    rwa [h.greet_introduction]
  | _ => exact h

/-- **An introduction makes its sender reachable**, and nothing else does. -/
theorem isConnected_greet (h : c.Ready own) (m : Message) :
    (c.greet m).isConnected q = true ↔ c.isConnected q = true ∨ m = .introduction q := by
  cases m with
  | introduction p =>
    rw [isConnected, isConnected, h.lookup_greet]
    split_ifs with hqp
    · simp [hqp]
    · simp [Ne.symm hqp]
  | _ => simp [Connections.greet]

end Ready

/-! ## What is sent -/

/-- The peers that become reachable when something is done. -/
def opened (c : Connections) (o : Outgoing) : List PeerAddress :=
  o.line?.toList.filter fun p => !c.isConnected p

/-- The introduction of a peer to another. -/
def introductionTo (own p : PeerAddress) : Envelope :=
  ⟨p, .introduction own⟩

theorem Ready.connect (h : c.Ready own) (p : PeerAddress) :
    (c.connect p).1.Ready own ∧
      (∀ q, (c.connect p).1.isConnected q = true ↔
        c.isConnected q = true ∨ q ∈ (Outgoing.dial p).line?) ∧
      (c.connect p).2.filterMap (c.connect p).1.envelope? =
        (c.opened (.dial p)).map (introductionTo own) := by
  by_cases hp : c.isConnected p = true
  · have hkeep : c.connect p = (c, []) := by simp [Connections.connect, hp]
    rw [hkeep]
    refine ⟨h, fun q => ?_, by simp [opened, Outgoing.line?, hp]⟩
    simp only [Outgoing.line?, Option.mem_some_iff, iff_self_or]
    rintro rfl
    exact hp
  · have hnew : c.connect p =
        ({ c with
            lines := (c.next, some p) :: c.lines
            routes := (p, c.next) :: c.routes
            next := c.next + 1 },
          [.dial c.next p, .write c.next (.introduction c.identity)]) := by
      simp [Connections.connect, hp, h.isOpen]
    rw [hnew]
    refine ⟨h.cons _ fun q line hq => ?_, fun q => ?_, ?_⟩
    · rw [List.lookup_cons] at hq
      split at hq
      · next hqp => exact Or.inl ⟨beq_iff_eq.1 hqp, (Option.some.inj hq).symm⟩
      · exact Or.inr hq
    · simp only [isConnected, route?, List.lookup_cons, Outgoing.line?, Option.mem_some_iff]
      by_cases hqp : q = p
      · simp [hqp]
      · simp [Ne.symm hqp, beq_false_of_ne hqp]
    · simp [List.filterMap_cons, envelope?, opened, Outgoing.line?, hp, remote?, introductionTo,
        h.identity]

/-- **What comes of one thing to do**: the connections that it needs are there, and its message
    is in flight, behind an introduction if a connection was missing. -/
theorem Ready.perform (h : c.Ready own) (o : Outgoing) :
    (c.perform o).1.Ready own ∧
      (∀ q, (c.perform o).1.isConnected q = true ↔ c.isConnected q = true ∨ q ∈ o.line?) ∧
      (c.perform o).2.filterMap (c.perform o).1.envelope? =
        (c.opened o).map (introductionTo own) ++ o.envelope?.toList := by
  cases o with
  | send p m =>
    obtain ⟨hready, hconnected, hsent⟩ := h.connect p
    obtain ⟨line, hline⟩ := isConnected_iff.1 ((hconnected p).2 (Or.inr rfl))
    have hperform : c.perform (.send p m) =
        ((c.connect p).1, (c.connect p).2 ++ [.write line m]) := by
      simp [Connections.perform, send, h.isOpen, hline]
    rw [hperform]
    refine ⟨hready, hconnected, ?_⟩
    rw [List.filterMap_append, hsent]
    simp [opened, Outgoing.line?, Outgoing.envelope?, envelope?, hready.routed p line hline]
  | sendOnce p m =>
    cases hline : c.route? p with
    | some line =>
      have hperform : c.perform (.sendOnce p m) = (c, [.write line m]) := by
        simp [Connections.perform, sendOnce, h.isOpen, hline]
      rw [hperform]
      refine ⟨h, by simp [Outgoing.line?], ?_⟩
      simp [opened, Outgoing.line?, Outgoing.envelope?, envelope?, h.routed p line hline]
    | none =>
      have hperform : c.perform (.sendOnce p m) = (c, [.single p m]) := by
        simp [Connections.perform, sendOnce, h.isOpen, hline]
      rw [hperform]
      refine ⟨h, by simp [Outgoing.line?], ?_⟩
      simp [opened, Outgoing.line?, Outgoing.envelope?, envelope?]
  | dial p =>
    obtain ⟨hready, hconnected, hsent⟩ := h.connect p
    exact ⟨hready, hconnected, hsent.trans (List.append_nil _).symm⟩

/-- What comes of several things to do: the connections afterwards, the peers that have become
    reachable, and what is in flight. -/
structure Posted (c : Connections) (own : PeerAddress) (out : List Outgoing)
    (r : Connections × List Envelope) (fresh : List PeerAddress) : Prop where
  ready : r.1.Ready own
  connected : ∀ q, r.1.isConnected q = true ↔
    c.isConnected q = true ∨ q ∈ out.filterMap Outgoing.line?
  new : ∀ q, q ∈ fresh ↔ q ∈ out.filterMap Outgoing.line? ∧ ¬ c.isConnected q = true
  sent : r.2.Perm (fresh.map (introductionTo own) ++ out.filterMap Outgoing.envelope?)

/-- **What comes of several things to do**: every message is in flight that was meant, and so is
    an introduction to each peer that had no connection. -/
theorem Ready.post (h : c.Ready own) (out : List Outgoing) :
    ∃ fresh, c.Posted own out (c.post out) fresh := by
  induction out generalizing c with
  | nil => exact ⟨[], h, by simp [Connections.post], by simp, by simp [Connections.post]⟩
  | cons o os ih =>
    obtain ⟨hready, hconnected, hsent⟩ := h.perform o
    obtain ⟨fresh, hposted⟩ := ih hready
    have hopened : ∀ q, q ∈ c.opened o ↔ q ∈ o.line? ∧ ¬ c.isConnected q = true := by
      simp [opened]
    have hline : ∀ q, q ∈ (o :: os).filterMap Outgoing.line? ↔
        q ∈ o.line? ∨ q ∈ os.filterMap Outgoing.line? := by
      simp [or_and_right, exists_or]
    refine ⟨c.opened o ++ fresh, hposted.ready, fun q => ?_, fun q => ?_, ?_⟩
    · rw [hline, ← or_assoc, ← hconnected]
      exact hposted.connected q
    · rw [List.mem_append, hposted.new, hopened, hconnected, hline]
      tauto
    · have henvelope : (o :: os).filterMap Outgoing.envelope? =
          o.envelope?.toList ++ os.filterMap Outgoing.envelope? := by
        cases ho : o.envelope? <;> simp [ho]
      have hcons : (c.post (o :: os)).2 =
          (c.opened o).map (introductionTo own) ++ o.envelope?.toList ++
            ((c.perform o).1.post os).2 := by
        rw [← hsent]
        rfl
      rw [hcons, henvelope, List.map_append, List.append_assoc, List.append_assoc]
      -- the introductions of the later ones pass the message of the first
      exact ((hposted.sent.append_left _).trans (List.perm_append_comm_assoc _ _ _)).append_left _

end Connections

end OverlayCensus
