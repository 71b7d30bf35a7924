/-
  OverlayCensus — who dials whom.

  Of the two ends of a link the one with the lower id has the other on its list, so what a
  vertex is linked to is what it dials and what dials it.

  * `Distinct`: overlays whose links make up a graph and whose vertices differ in id and peer;
  * `mem_neighborsOf`, `mem_listOf`: whom a peer is linked to and whom it dials, by vertices;
  * `mem_neighborsOf_iff`: each link is dialed from one of its ends.
-/
import Mathlib
import OverlayCensus.Proofs.OverlayOrder

namespace OverlayCensus.Overlay

variable {o : Overlay} {p q : PeerAddress} {v w : Vertex}

/-- Links make up a graph, and no two vertices have an id or a peer in common. -/
structure Distinct (o : Overlay) : Prop extends o.Simple where
  ids : (o.ends.map EdgeEnd.id).Nodup
  peers : (o.ends.map EdgeEnd.peer).Nodup

/-- An overlay whose vertices are in order of their ids is of this kind. -/
theorem Ordered.distinct (h : o.Ordered) : o.Distinct :=
  ⟨h.toSimple, List.pairwise_map.2 (h.increasing.imp ne_of_lt), h.peers⟩

/-- The peers at the vertices. -/
def peers (o : Overlay) : List PeerAddress :=
  o.vertices.toList.map Vertex.peer

/-- The peers to which a peer is linked; none if it has no vertex. -/
def neighborsOf (o : Overlay) (p : PeerAddress) : List PeerAddress :=
  match o.neighbors p with
  | .ok ns => ns.map Prod.fst
  | .error _ => []

/-- The peers that a peer dials; none if it has no vertex. -/
def listOf (o : Overlay) (p : PeerAddress) : List PeerAddress :=
  match o.initiationList p with
  | .ok ps => ps
  | .error _ => []

/-- Two vertices between which there is a link. -/
def Linked (o : Overlay) (v w : Vertex) : Prop :=
  ∃ i j, o.vertices[i]? = some v ∧ o.vertices[j]? = some w ∧ o.Adj i j

theorem length_peers (o : Overlay) : o.peers.length = o.size := by
  rw [peers, List.length_map, Array.length_toList, size]

theorem mem_peers : p ∈ o.peers ↔ ∃ v ∈ o.vertices, v.peer = p := by
  simp [peers]

theorem Simple.linked_symm (h : o.Simple) (hvw : o.Linked v w) : o.Linked w v := by
  obtain ⟨i, j, hi, hj, hadj⟩ := hvw
  exact ⟨j, i, hj, hi, h.adj_symm hadj⟩

/-- The links of a vertex, one by one. -/
theorem linked_iff : o.Linked v w ↔ v ∈ o.vertices ∧ ∃ cost, (w, cost) ∈ o.neighborVertices v := by
  have hone : ∀ i, o.vertices[i]? = some v →
      ((∃ cost, (w, cost) ∈ o.neighborVertices v) ↔ ∃ j, o.vertices[j]? = some w ∧ o.Adj i j) := by
    intro i hi
    have hlinks : o.linksAt i = v.links := by rw [linksAt, hi]
    simp only [neighborVertices, List.mem_filterMap, Option.map_eq_some_iff, Prod.mk.injEq, adj_iff,
      hlinks]
    constructor
    · rintro ⟨cost, ⟨j, c⟩, hl, w', hw, rfl, rfl⟩
      exact ⟨j, hw, c, hl⟩
    · rintro ⟨j, hw, cost, hl⟩
      exact ⟨cost, ⟨j, cost⟩, hl, w, hw, rfl, rfl⟩
  constructor
  · rintro ⟨i, j, hi, hj, hadj⟩
    exact ⟨Array.mem_of_getElem? hi, (hone i hi).2 ⟨j, hj, hadj⟩⟩
  · rintro ⟨hv, hw⟩
    obtain ⟨i, hi⟩ := Array.mem_iff_getElem?.1 hv
    obtain ⟨j, hj, hadj⟩ := (hone i hi).1 hw
    exact ⟨i, j, hi, hj, hadj⟩

namespace Distinct

variable (h : o.Distinct)
include h

theorem nodup_peers : o.peers.Nodup := by
  have hpeers := h.peers
  rwa [ends, List.map_map] at hpeers

theorem eq_of_peer (hv : v ∈ o.vertices) (hw : w ∈ o.vertices) (hpeer : v.peer = w.peer) : v = w :=
  List.inj_on_of_nodup_map h.nodup_peers (Array.mem_toList_iff.2 hv)
    (Array.mem_toList_iff.2 hw) hpeer

/-- A vertex has one position. -/
theorem index_inj {i j : ℕ} (hi : o.vertices[i]? = some v) (hj : o.vertices[j]? = some v) :
    i = j := by
  rw [← Array.getElem?_toList] at hi hj
  exact (List.getElem?_inj (List.getElem?_eq_some_iff.1 hi).1 (h.nodup_peers.of_map _)).1
    (hi.trans hj.symm)

/-- The two ends of a link differ in their ids. -/
theorem id_ne (hvw : o.Linked v w) : v.id ≠ w.id := by
  obtain ⟨i, j, hi, hj, hadj⟩ := hvw
  intro hid
  have hids := h.ids
  rw [ends, List.map_map] at hids
  obtain rfl : v = w := List.inj_on_of_nodup_map hids
    (Array.mem_toList_iff.2 (Array.mem_of_getElem? hi))
    (Array.mem_toList_iff.2 (Array.mem_of_getElem? hj)) hid
  obtain rfl := h.index_inj hi hj
  exact h.irrefl i hadj

theorem vertexOf_eq_ok_iff : o.vertexOf p = .ok v ↔ v ∈ o.vertices ∧ v.peer = p := by
  rw [vertexOf]
  constructor
  · intro hv
    split at hv
    · next w hw =>
      cases hv
      exact ⟨Array.mem_of_find?_eq_some hw, by simpa using Array.find?_some hw⟩
    · cases hv
  · rintro ⟨hv, rfl⟩
    split
    · next w hw =>
      have hpeer : w.peer = v.peer := by simpa using Array.find?_some hw
      rw [h.eq_of_peer (Array.mem_of_find?_eq_some hw) hv hpeer]
    · next hnone => exact absurd (decide_eq_true rfl) (Array.find?_eq_none.1 hnone v hv)

/-! ## Lists by vertices -/

theorem neighbors_eq (hv : v ∈ o.vertices) : o.neighbors v.peer =
    .ok ((o.neighborVertices v).map fun n => (n.1.peer, n.2)) := by
  rw [neighbors, h.vertexOf_eq_ok_iff.2 ⟨hv, rfl⟩]

theorem initiationList_eq (hv : v ∈ o.vertices) : o.initiationList v.peer =
    .ok (((o.neighborVertices v).filter fun n => v.id < n.1.id).map fun n => n.1.peer) := by
  rw [initiationList, h.vertexOf_eq_ok_iff.2 ⟨hv, rfl⟩]

theorem neighbors_eq_ok (hp : p ∈ o.peers) :
    ∃ ns, o.neighbors p = .ok ns ∧ o.neighborsOf p = ns.map Prod.fst := by
  obtain ⟨v, hv, rfl⟩ := mem_peers.1 hp
  refine ⟨_, h.neighbors_eq hv, ?_⟩
  rw [neighborsOf, h.neighbors_eq hv]

theorem initiationList_eq_ok (hp : p ∈ o.peers) : o.initiationList p = .ok (o.listOf p) := by
  obtain ⟨v, hv, rfl⟩ := mem_peers.1 hp
  rw [listOf, h.initiationList_eq hv]

/-- **Whom a peer is linked to**, by vertices. -/
theorem mem_neighborsOf :
    q ∈ o.neighborsOf p ↔ ∃ v w, o.Linked v w ∧ v.peer = p ∧ w.peer = q := by
  simp only [linked_iff]
  constructor
  · intro hq
    rw [neighborsOf, neighbors] at hq
    cases hv : o.vertexOf p with
    | error e => simp [hv] at hq
    | ok v =>
      obtain ⟨hmem, rfl⟩ := h.vertexOf_eq_ok_iff.1 hv
      simp only [hv, List.map_map, List.mem_map, Function.comp_apply, Prod.exists] at hq
      obtain ⟨w, cost, hw, rfl⟩ := hq
      exact ⟨v, w, ⟨hmem, cost, hw⟩, rfl, rfl⟩
  · rintro ⟨v, w, ⟨hv, cost, hw⟩, rfl, rfl⟩
    rw [neighborsOf, h.neighbors_eq hv]
    exact List.mem_map.2 ⟨(w.peer, cost), List.mem_map.2 ⟨(w, cost), hw, rfl⟩, rfl⟩

/-- **Whom a peer dials**: those at the ends of its links that have a higher id. -/
theorem mem_listOf :
    q ∈ o.listOf p ↔ ∃ v w, o.Linked v w ∧ v.id < w.id ∧ v.peer = p ∧ w.peer = q := by
  simp only [linked_iff]
  constructor
  · intro hq
    rw [listOf, initiationList] at hq
    cases hv : o.vertexOf p with
    | error e => simp [hv] at hq
    | ok v =>
      obtain ⟨hmem, rfl⟩ := h.vertexOf_eq_ok_iff.1 hv
      simp only [hv, List.mem_map, List.mem_filter, decide_eq_true_eq, Prod.exists] at hq
      obtain ⟨w, cost, ⟨hw, hid⟩, rfl⟩ := hq
      exact ⟨v, w, ⟨hmem, cost, hw⟩, hid, rfl, rfl⟩
  · rintro ⟨v, w, ⟨hv, cost, hw⟩, hid, rfl, rfl⟩
    rw [listOf, h.initiationList_eq hv]
    exact List.mem_map.2 ⟨(w, cost), List.mem_filter.2 ⟨hw, decide_eq_true hid⟩, rfl⟩

theorem neighborsOf_symm (hq : q ∈ o.neighborsOf p) : p ∈ o.neighborsOf q := by
  obtain ⟨v, w, hvw, rfl, rfl⟩ := h.mem_neighborsOf.1 hq
  exact h.mem_neighborsOf.2 ⟨w, v, h.linked_symm hvw, rfl, rfl⟩

/-- **Each link is dialed from one of its ends.** -/
theorem mem_neighborsOf_iff : q ∈ o.neighborsOf p ↔ q ∈ o.listOf p ∨ p ∈ o.listOf q := by
  rw [h.mem_neighborsOf, h.mem_listOf, h.mem_listOf]
  constructor
  · rintro ⟨v, w, hvw, hp, hq⟩
    rcases (h.id_ne hvw).lt_or_gt with hid | hid
    · exact Or.inl ⟨v, w, hvw, hid, hp, hq⟩
    · exact Or.inr ⟨w, v, h.linked_symm hvw, hid, hq, hp⟩
  · rintro (⟨v, w, hvw, -, hp, hq⟩ | ⟨w, v, hwv, -, hq, hp⟩)
    · exact ⟨v, w, hvw, hp, hq⟩
    · exact ⟨v, w, h.linked_symm hwv, hp, hq⟩

theorem mem_peers_of_neighborsOf (hq : q ∈ o.neighborsOf p) : p ∈ o.peers := by
  obtain ⟨v, w, hvw, rfl, -⟩ := h.mem_neighborsOf.1 hq
  exact mem_peers.2 ⟨v, (linked_iff.1 hvw).1, rfl⟩

end Distinct

end OverlayCensus.Overlay
