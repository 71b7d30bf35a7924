/-
  OverlayCensus — runs of a network, delivery by delivery.

  A delivery hands over any one message in flight, with any random pick and at any time,
  so a list of deliveries is a run in an arbitrary order.  A message that its addressee
  refuses is gone.

  * `after` and `afterAll` are the network after a delivery and after a run, `delivered`
    the messages that a run hands over;
  * `Step` lists what a delivery can do, and `step_after` proves that this is all;
  * `later_afterAll`: no run changes who a peer is, its devices or its neighbours.
-/
import Mathlib
import OverlayCensus.Proofs.Handling

namespace OverlayCensus

/-- What the outside decides about a delivery: the position of the message among those
    in flight, the random pick and the time. -/
structure Delivery where
  index : Nat
  pick : Nat
  now : Nat
deriving DecidableEq, Repr

/-- A later state of a node. -/
structure Node.Later (n n' : Node) : Prop where
  identity : n'.engine.identity = n.engine.identity
  metrics : n'.engine.metrics = n.engine.metrics
  neighbors : n'.neighbors = n.neighbors
  capacity : n'.engine.queries.capacity = n.engine.queries.capacity

theorem Node.Later.refl (n : Node) : n.Later n := ⟨rfl, rfl, rfl, rfl⟩

theorem Node.Later.trans {n n' n'' : Node} (h : n.Later n') (h' : n'.Later n'') : n.Later n'' :=
  ⟨h'.identity.trans h.identity, h'.metrics.trans h.metrics, h'.neighbors.trans h.neighbors,
    h'.capacity.trans h.capacity⟩

namespace Network

/-! ## Deliveries -/

/-- The network after a delivery. -/
def after (net : Network) (d : Delivery) : Network :=
  match net.deliver d.index d.pick d.now with
  | .ok step => step.network
  | .error _ => { net with flight := net.flight.eraseIdx d.index }

/-- The network after deliveries in order. -/
def afterAll (net : Network) (ds : List Delivery) : Network :=
  ds.foldl after net

/-- The messages that deliveries hand over, in order. -/
def delivered (net : Network) : List Delivery → List Envelope
  | [] => []
  | d :: ds => net.flight[d.index]?.toList ++ (net.after d).delivered ds

/-- The messages among them that the registry receives. -/
def received (net : Network) (ds : List Delivery) : List Envelope :=
  (net.delivered ds).filter fun m => m.receiver = net.registry

@[simp] theorem afterAll_nil (net : Network) : net.afterAll [] = net := rfl

@[simp] theorem delivered_nil (net : Network) : net.delivered [] = [] := rfl

theorem afterAll_append_singleton (net : Network) (ds : List Delivery) (d : Delivery) :
    net.afterAll (ds ++ [d]) = (net.afterAll ds).after d := by
  simp [afterAll]

theorem delivered_append_singleton (net : Network) (ds : List Delivery) (d : Delivery) :
    net.delivered (ds ++ [d]) =
      net.delivered ds ++ (net.afterAll ds).flight[d.index]?.toList := by
  induction ds generalizing net with
  | nil => simp [delivered]
  | cons d' ds ih =>
    rw [List.cons_append, delivered, ih, delivered, List.append_assoc]
    rfl

/-- A network without a message that its addressee has received. -/
def without (net : Network) (i : Nat) : Network :=
  { net with flight := net.flight.eraseIdx i }

/-- What handing over a message can do to a network: the registry adds it to its
    results, or nobody has the address, or a peer refuses or handles it. -/
inductive Step (net : Network) (d : Delivery) (m : Envelope) : Network → Prop
  | observed : m.receiver = net.registry →
      Step net d m
        { net.without d.index with results := (net.results.observeMessage m.message d.now).2 }
  | lost : m.receiver ≠ net.registry → net.node? m.receiver = none →
      Step net d m (net.without d.index)
  | refused {n : Node} : m.receiver ≠ net.registry → net.node? m.receiver = some n →
      n.engine.handle n.neighbors d.pick m.message = none → Step net d m (net.without d.index)
  | handled {n : Node} {r : Engine × List Parcel} : m.receiver ≠ net.registry →
      net.node? m.receiver = some n →
      n.engine.handle n.neighbors d.pick m.message = some r →
      Step net d m (((net.without d.index).setEngine m.receiver r.1).send r.2)

theorem after_of_none {net : Network} {d : Delivery} (h : net.flight[d.index]? = none) :
    net.after d = net := by
  simp [after, deliver, h]

section
variable {net : Network} {ds : List Delivery} {d : Delivery}
  (h : (net.afterAll ds).flight[d.index]? = none)
include h

/-- Where there is no message, nothing is delivered. -/
theorem afterAll_append_of_none : net.afterAll (ds ++ [d]) = net.afterAll ds := by
  rw [afterAll_append_singleton, after_of_none h]

theorem delivered_append_of_none : net.delivered (ds ++ [d]) = net.delivered ds := by
  rw [delivered_append_singleton, h, Option.toList_none, List.append_nil]

end

/-- **A delivery is one of four steps.** -/
theorem step_after {net : Network} {d : Delivery} {m : Envelope}
    (h : net.flight[d.index]? = some m) : net.Step d m (net.after d) := by
  simp only [after, deliver, h, receive]
  by_cases hreg : m.receiver = net.registry
  · simp only [hreg, if_true]
    exact .observed hreg
  · have hnode : ({ net with flight := net.flight.eraseIdx d.index } : Network).node? m.receiver =
        net.node? m.receiver := rfl
    simp only [hreg, if_false, hnode]
    cases hn : net.node? m.receiver with
    | none => exact .lost hreg hn
    | some n =>
      cases hr : n.engine.handle n.neighbors d.pick m.message with
      | none => simp only [hr]; exact .refused hreg hn hr
      | some r => simp only [hr]; exact .handled hreg hn hr

theorem perm_flight {net : Network} {i : Nat} {m : Envelope} (h : net.flight[i]? = some m) :
    net.flight.Perm (m :: (net.without i).flight) := by
  obtain ⟨hi, rfl⟩ := List.getElem?_eq_some_iff.1 h
  exact (List.getElem_cons_eraseIdx_perm hi).symm

/-! ## Peers during a run -/

theorem identity_of_node? {net : Network} {p : PeerAddress} {n : Node}
    (h : net.node? p = some n) : n.engine.identity = p := by
  simpa using List.find?_some h

theorem mem_of_node? {net : Network} {p : PeerAddress} {n : Node} (h : net.node? p = some n) :
    n ∈ net.nodes :=
  List.mem_of_find?_eq_some h

theorem node?_setEngine (net : Network) {p : PeerAddress} {e : Engine} (he : e.identity = p)
    (r : PeerAddress) :
    (net.setEngine p e).node? r =
      if r = p then (net.node? p).map fun n => { n with engine := e } else net.node? r := by
  simp only [node?, setEngine, changeNode, List.find?_map]
  induction net.nodes with
  | nil => simp
  | cons n nodes ih =>
    simp only [List.find?_cons, Function.comp_apply] at ih ⊢
    by_cases hn : n.engine.identity = p
    · by_cases hr : r = p
      · simp [hn, hr, he]
      · have hpr : ¬ p = r := fun h => hr h.symm
        simp only [hn, if_true, he, hpr, hr, decide_false, if_false] at ih ⊢
        exact ih
    · by_cases hr : r = p
      · subst hr
        simp only [hn, if_false, decide_false, if_true] at ih ⊢
        exact ih
      · by_cases hnr : n.engine.identity = r
        · simp [hr, hnr]
        · simp only [hn, hr, if_false, hnr, decide_false] at ih ⊢
          exact ih

/-- The addresses of all peers. -/
def peers (net : Network) : List PeerAddress :=
  net.nodes.map fun n => n.engine.identity

theorem peers_setEngine {net : Network} {p : PeerAddress} {e : Engine} (he : e.identity = p) :
    (net.setEngine p e).peers = net.peers := by
  rw [peers, setEngine, changeNode, List.map_map]
  refine List.map_congr_left fun n _ => ?_
  rw [Function.comp_apply]
  split_ifs with hn
  · exact he.trans hn.symm
  · rfl

/-- The peers to which a peer is linked. -/
def neighborsOf (net : Network) (p : PeerAddress) : List PeerAddress :=
  ((net.node? p).map Node.neighbors).getD []

/-- The share of the devices that a peer contributes to a query for a metric. -/
def share (net : Network) (metric : String) (p : PeerAddress) : ℤ × ℤ :=
  ((net.node? p).map fun n => n.engine.metrics.share metric).getD 0

theorem neighborsOf_eq {net : Network} {p : PeerAddress} {n : Node} (h : net.node? p = some n) :
    net.neighborsOf p = n.neighbors := by
  simp [neighborsOf, h]

theorem share_eq {net : Network} {p : PeerAddress} {n : Node} (h : net.node? p = some n)
    (metric : String) : net.share metric p = n.engine.metrics.share metric := by
  simp [share, h]

/-- Handling a message changes neither who a peer is nor what it has. -/
theorem later_of_handle {n : Node} {pick : Nat} {m : Message} {r : Engine × List Parcel}
    (h : n.engine.handle n.neighbors pick m = some r) : n.Later { n with engine := r.1 } := by
  rcases Engine.handle_cases h with ⟨kind, q, rfl, t, first, rest, rfl, -⟩ | ⟨-, ⟨d, l, hr⟩, -⟩
  · exact ⟨rfl, rfl, rfl, QueryLog.capacity_mark _ _ _ _⟩
  · rw [hr]; exact ⟨rfl, rfl, rfl, rfl⟩

/-- The peers are the same, each in the same or a later state. -/
def Later (net net' : Network) : Prop :=
  net'.registry = net.registry ∧ ∀ p, (net.node? p = none → net'.node? p = none) ∧
    ∀ n, net.node? p = some n → ∃ n', net'.node? p = some n' ∧ n.Later n'

theorem Later.refl (net : Network) : net.Later net :=
  ⟨rfl, fun _ => ⟨id, fun n hn => ⟨n, hn, .refl n⟩⟩⟩

theorem Later.trans {net net' net'' : Network} (h : net.Later net') (h' : net'.Later net'') :
    net.Later net'' := by
  refine ⟨h'.1.trans h.1, fun p => ⟨fun hp => (h'.2 p).1 ((h.2 p).1 hp), fun n hn => ?_⟩⟩
  obtain ⟨n', hn', hl⟩ := (h.2 p).2 n hn
  obtain ⟨n'', hn'', hl'⟩ := (h'.2 p).2 n' hn'
  exact ⟨n'', hn'', hl.trans hl'⟩

theorem node?_handled {net : Network} {m : Envelope} {i pick : Nat} {n : Node}
    {r : Engine × List Parcel} (hn : net.node? m.receiver = some n)
    (hr : n.engine.handle n.neighbors pick m.message = some r) (p : PeerAddress) :
    (((net.without i).setEngine m.receiver r.1).send r.2).node? p =
      if p = m.receiver then some { n with engine := r.1 } else net.node? p := by
  have he : r.1.identity = m.receiver :=
    (later_of_handle hr).identity.trans (identity_of_node? hn)
  have hset := node?_setEngine (net.without i) he p
  have hsame : (net.without i).node? = net.node? := rfl
  rw [hsame, hn] at hset
  exact hset

theorem later_of_step {net net' : Network} {d : Delivery} {m : Envelope}
    (h : net.Step d m net') : net.Later net' := by
  cases h with
  | observed | lost | refused => exact Later.refl net
  | handled _ hn hr =>
    refine ⟨rfl, fun p => ?_⟩
    rw [node?_handled hn hr p]
    by_cases hp : p = m.receiver
    · subst hp
      simp only [hn, if_true]
      refine ⟨by simp, fun n' hn' => ?_⟩
      cases hn'
      exact ⟨_, rfl, later_of_handle hr⟩
    · simp only [hp, if_false]
      exact (Later.refl net).2 p

theorem later_after (net : Network) (d : Delivery) : net.Later (net.after d) := by
  cases h : net.flight[d.index]? with
  | none => rw [after_of_none h]; exact Later.refl net
  | some m => exact later_of_step (step_after h)

/-- **A run changes no peer's identity, devices or neighbours.** -/
theorem later_afterAll (net : Network) (ds : List Delivery) : net.Later (net.afterAll ds) := by
  induction ds generalizing net with
  | nil => exact Later.refl net
  | cons d ds ih => exact (later_after net d).trans (ih (net.after d))

theorem peers_afterAll (net : Network) (ds : List Delivery) :
    (net.afterAll ds).peers = net.peers := by
  induction ds using List.reverseRecOn with
  | nil => rfl
  | append_singleton ds d ih =>
    rw [afterAll_append_singleton, ← ih]
    generalize net.afterAll ds = now
    cases hm : now.flight[d.index]? with
    | none => rw [after_of_none hm]
    | some m =>
      have hstep := step_after hm
      generalize now.after d = next at hstep
      cases hstep with
      | observed | lost | refused => rfl
      | handled _ hn hr =>
        exact peers_setEngine ((later_of_handle hr).identity.trans (identity_of_node? hn))

namespace Later
variable {net net' : Network} (h : net.Later net')
include h

theorem node?_eq_none_iff (p : PeerAddress) : net'.node? p = none ↔ net.node? p = none := by
  refine ⟨fun hp => ?_, (h.2 p).1⟩
  cases hn : net.node? p with
  | none => rfl
  | some n =>
    obtain ⟨n', hn', -⟩ := (h.2 p).2 n hn
    rw [hp] at hn'
    cases hn'

theorem of_node? {p : PeerAddress} {n' : Node} (hn' : net'.node? p = some n') :
    ∃ n, net.node? p = some n ∧ n.Later n' := by
  cases hn : net.node? p with
  | none => rw [(h.2 p).1 hn] at hn'; cases hn'
  | some n =>
    obtain ⟨n'', hn'', hl⟩ := (h.2 p).2 n hn
    rw [hn'] at hn''
    cases hn''
    exact ⟨n, rfl, hl⟩

theorem neighborsOf (p : PeerAddress) : net'.neighborsOf p = net.neighborsOf p := by
  cases hn : net.node? p with
  | none => simp [Network.neighborsOf, hn, (h.2 p).1 hn]
  | some n =>
    obtain ⟨n', hn', hl⟩ := (h.2 p).2 n hn
    rw [neighborsOf_eq hn, neighborsOf_eq hn', hl.neighbors]

theorem share (metric : String) (p : PeerAddress) : net'.share metric p = net.share metric p := by
  cases hn : net.node? p with
  | none => simp [Network.share, hn, (h.2 p).1 hn]
  | some n =>
    obtain ⟨n', hn', hl⟩ := (h.2 p).2 n hn
    rw [share_eq hn, share_eq hn', hl.metrics]

end Later

end Network

/-! ## Small networks -/

namespace Sample

/-- The peers of the examples are told apart by their ports. -/
def peer (port : UInt16) : PeerAddress := ⟨"p", port⟩

/-- A peer that is new, with some devices and some counts of metrics. -/
def node (port : UInt16) (devices : Nat) (counts : List (String × Nat))
    (neighbors : List UInt16) : Node where
  engine := (Engine.new (peer port) (.ofCounts devices counts) {} (.ofWords fun _ => 0)).seed
  neighbors := neighbors.map peer

/-- Three peers linked to each other, a fourth with one link, and one with none. -/
def kite : Network where
  registry := peer 0
  nodes := [node 1 3 [("t", 1)] [2, 3], node 2 4 [("t", 1)] [1, 3], node 3 5 [("t", 1)] [1, 2, 4],
    node 4 6 [("t", 1)] [3], node 5 7 [("t", 1)] []]
  flight := []
  results := .empty

/-- Three peers in a row, the first of which has a metric. -/
def row : Network where
  registry := peer 0
  nodes := [node 1 3 [("t", 1)] [2], node 2 4 [] [1, 3], node 3 5 [] [2]]
  flight := []
  results := .empty

/-- Deliveries in the order of sending, with the first of all candidates picked. -/
def inOrder (n : Nat) : List Delivery := List.replicate n ⟨0, 0, 0⟩

end Sample

end OverlayCensus
