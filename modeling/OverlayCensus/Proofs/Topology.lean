/-
  OverlayCensus — the graph of a network.

  * `graph`: the peers of a network and the links between them;
  * `Linked`: links go both ways, and no two peers have one address;
  * `sum_length_neighborsOf`: in a component, all neighbour lists together name every
    link twice.
-/
import Mathlib
import OverlayCensus.Proofs.Delivery

namespace OverlayCensus.Network

/-- The peers as vertices and their links as edges. -/
def graph (net : Network) : SimpleGraph PeerAddress :=
  SimpleGraph.fromRel fun a b => b ∈ net.neighborsOf a

/-- A network of different peers that are linked in both directions, never to
    themselves.  The registry is none of them. -/
structure Linked (net : Network) : Prop where
  distinct : net.peers.Nodup
  registry : net.registry ∉ net.peers
  irrefl : ∀ n ∈ net.nodes, n.engine.identity ∉ n.neighbors
  symm : ∀ n ∈ net.nodes, ∀ p ∈ n.neighbors, ∃ n' ∈ net.nodes,
    n'.engine.identity = p ∧ n.engine.identity ∈ n'.neighbors

variable {net : Network} {p r : PeerAddress} {n : Node}

/-! ## Peers and nodes -/

theorem isSome_node?_iff : (net.node? p).isSome ↔ p ∈ net.peers := by
  rw [node?, List.find?_isSome, peers, List.mem_map]
  simp only [decide_eq_true_eq]

theorem node?_of_mem (h : net.peers.Nodup) (hn : n ∈ net.nodes) :
    net.node? n.engine.identity = some n := by
  rw [node?]
  rw [peers] at h
  generalize net.nodes = nodes at h hn ⊢
  induction nodes with
  | nil => cases hn
  | cons n' nodes ih =>
    obtain ⟨hnew, hnodup⟩ := List.nodup_cons.1 h
    rcases List.mem_cons.1 hn with rfl | hn
    · simp
    · have hne : n'.engine.identity ≠ n.engine.identity := by
        intro he
        exact hnew (List.mem_map.2 ⟨n, hn, he.symm⟩)
      rw [List.find?_cons_of_neg (by simpa using hne)]
      exact ih hnodup hn

theorem isPeer_of_mem_peers (hregistry : net.registry ∉ net.peers) (hp : p ∈ net.peers) :
    p ≠ net.registry ∧ (net.node? p).isSome :=
  ⟨fun h => hregistry (h ▸ hp), isSome_node?_iff.2 hp⟩

theorem mem_neighborsOf (h : r ∈ net.neighborsOf p) :
    ∃ n, net.node? p = some n ∧ r ∈ n.neighbors := by
  cases hn : net.node? p with
  | none => simp [neighborsOf, hn] at h
  | some n => exact ⟨n, rfl, neighborsOf_eq hn ▸ h⟩

theorem nodup_neighborsOf (hnodup : ∀ n ∈ net.nodes, n.neighbors.Nodup) (p : PeerAddress) :
    (net.neighborsOf p).Nodup := by
  cases hn : net.node? p with
  | none => simp [neighborsOf, hn]
  | some n => rw [neighborsOf_eq hn]; exact hnodup n (mem_of_node? hn)

namespace Linked
variable (h : net.Linked)
include h

theorem mem_peers (hr : r ∈ net.neighborsOf p) : r ∈ net.peers := by
  obtain ⟨n, hn, hmem⟩ := mem_neighborsOf hr
  obtain ⟨n', hn', rfl, -⟩ := h.symm n (mem_of_node? hn) r hmem
  exact List.mem_map.2 ⟨n', hn', rfl⟩

theorem neighborsOf_symm (hr : r ∈ net.neighborsOf p) : p ∈ net.neighborsOf r := by
  obtain ⟨n, hn, hmem⟩ := mem_neighborsOf hr
  obtain ⟨n', hn', rfl, hback⟩ := h.symm n (mem_of_node? hn) r hmem
  rw [neighborsOf_eq (node?_of_mem h.distinct hn')]
  rwa [identity_of_node? hn] at hback

theorem not_mem_neighborsOf_self : p ∉ net.neighborsOf p := by
  intro hp
  obtain ⟨n, hn, hmem⟩ := mem_neighborsOf hp
  refine h.irrefl n (mem_of_node? hn) ?_
  rwa [identity_of_node? hn]

theorem adj_iff : net.graph.Adj p r ↔ r ∈ net.neighborsOf p := by
  rw [graph, SimpleGraph.fromRel_adj]
  constructor
  · rintro ⟨-, hr | hr⟩
    · exact hr
    · exact h.neighborsOf_symm hr
  · intro hr
    refine ⟨?_, Or.inl hr⟩
    rintro rfl
    exact h.not_mem_neighborsOf_self hr

theorem isPeer_of_mem (hr : r ∈ net.neighborsOf p) :
    r ≠ net.registry ∧ (net.node? r).isSome := by
  have hmem := h.mem_peers hr
  refine ⟨?_, isSome_node?_iff.2 hmem⟩
  rintro rfl
  exact h.registry hmem

theorem mem_peers_of_reachable (hp : p ∈ net.peers) (hreach : net.graph.Reachable p r) :
    r ∈ net.peers := by
  rw [SimpleGraph.reachable_iff_reflTransGen] at hreach
  rcases hreach.cases_tail with rfl | ⟨s, -, hadj⟩
  · exact hp
  · exact h.mem_peers (h.adj_iff.1 hadj)

/-- A shortest way visits no peer twice. -/
theorem dist_lt (hp : p ∈ net.peers) (hreach : net.graph.Reachable p r) :
    net.graph.dist p r < net.nodes.length := by
  obtain ⟨w, hw⟩ := hreach.exists_walk_length_eq_dist
  have hnodup := (w.isPath_of_length_eq_dist hw).support_nodup
  have hsubset : w.support ⊆ net.peers := fun s hs =>
    h.mem_peers_of_reachable hp (w.takeUntil s hs).reachable
  have hle := (List.subperm_of_subset hnodup hsubset).length_le
  rw [SimpleGraph.Walk.length_support, hw, peers, List.length_map] at hle
  exact hle

end Linked

theorem Later.graph {net' : Network} (h : net.Later net') : net'.graph = net.graph := by
  simp only [Network.graph, h.neighborsOf]

/-! ## Counting links -/

/-- **The neighbour lists of a component name every link twice.** -/
theorem sum_length_neighborsOf (h : net.Linked) (hnodup : ∀ n ∈ net.nodes, n.neighbors.Nodup)
    (C : net.graph.ConnectedComponent) {s : Finset PeerAddress} (hs : ∀ p, p ∈ s ↔ p ∈ C.supp) :
    ∑ p ∈ s, (net.neighborsOf p).length = 2 * C.toSimpleGraph.edgeSet.ncard := by
  classical
  have hsubtype : Fintype C := Fintype.subtype s hs
  have hdegree : ∀ p : C, C.toSimpleGraph.degree p = (net.neighborsOf p).length := by
    intro p
    rw [← List.toFinset_card_of_nodup (nodup_neighborsOf hnodup p.1), ← SimpleGraph.card_neighborFinset_eq_degree,
      ← Finset.card_map (Function.Embedding.subtype _)]
    congr 1
    ext r
    simp only [Finset.mem_map, SimpleGraph.mem_neighborFinset, List.mem_toFinset]
    constructor
    · rintro ⟨r, hadj, rfl⟩
      exact h.adj_iff.1 hadj
    · intro hr
      have hadj := h.adj_iff.2 hr
      exact ⟨⟨r, C.mem_supp_of_adj_mem_supp p.2 hadj⟩, hadj, rfl⟩
  rw [Set.ncard_eq_toFinset_card', ← SimpleGraph.edgeFinset,
    ← C.toSimpleGraph.sum_degrees_eq_twice_card_edges, Finset.sum_congr rfl fun p _ => hdegree p]
  exact Finset.sum_subtype s hs _

end OverlayCensus.Network
