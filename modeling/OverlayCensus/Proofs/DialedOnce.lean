/-
  OverlayCensus — every link is dialed once.

  The peers that one peer dials are some of those it is linked to, and the others dial it.  So
  all lists together (`dials`) are the list of edges, edge by edge, and as long as the number
  of links.

  * `Distinct.perm_neighborsOf`: what a peer is linked to, from the lists of both sides;
  * `Distinct.edges_eq_dials`, `Distinct.nodup_dials`: the lists are the edges, each once;
  * `dialedOnce_of_reached`: for the arenas that come about, with the number of links.
-/
import Mathlib
import OverlayCensus.Proofs.OverlayArena
import OverlayCensus.Proofs.OverlayDialing

namespace OverlayCensus

/-- The peers at the ends of an edge. -/
def Edge.peers (e : Edge) : PeerAddress × Option PeerAddress :=
  (e.first.peer, e.second.map EdgeEnd.peer)

namespace Overlay

variable {o : Overlay} {p q : PeerAddress} {v w : Vertex}

/-- Who dials whom, peer by peer. -/
def dials (o : Overlay) : List (PeerAddress × PeerAddress) :=
  o.peers.flatMap fun p => (o.listOf p).map fun q => (p, q)

/-- The peers that dial a peer. -/
def dialersOf (o : Overlay) (p : PeerAddress) : List PeerAddress :=
  o.peers.filter fun q => p ∈ o.listOf q

/-- A vertex has another one on its list, once, and is not on the list of that one. -/
def Dials (o : Overlay) (v w : Vertex) : Prop :=
  (o.listOf v.peer).count w.peer = 1 ∧ v.peer ∉ o.listOf w.peer

theorem length_dials (o : Overlay) :
    o.dials.length = (o.peers.map fun p => (o.listOf p).length).sum := by
  simp only [dials, List.length_flatMap, List.length_map]

/-- The peers that a peer dials are in the order of its links. -/
theorem listOf_sublist (o : Overlay) (p : PeerAddress) :
    (o.listOf p).Sublist (o.neighborsOf p) := by
  rw [listOf, neighborsOf, initiationList, neighbors]
  cases o.vertexOf p with
  | error e => exact List.Sublist.refl []
  | ok v =>
    simp only [List.map_map]
    exact List.filter_sublist.map _

namespace Distinct

variable (h : o.Distinct)
include h

theorem mem_peers_of_listOf (hq : q ∈ o.listOf p) : p ∈ o.peers :=
  h.mem_peers_of_neighborsOf (h.mem_neighborsOf_iff.2 (Or.inl hq))

theorem mem_dials : (p, q) ∈ o.dials ↔ q ∈ o.listOf p := by
  simp only [dials, List.mem_flatMap, List.mem_map, Prod.mk.injEq]
  constructor
  · rintro ⟨p', -, q', hq, rfl, rfl⟩
    exact hq
  · exact fun hq => ⟨p, h.mem_peers_of_listOf hq, q, hq, rfl, rfl⟩

theorem mem_dialersOf : q ∈ o.dialersOf p ↔ p ∈ o.listOf q := by
  rw [dialersOf, List.mem_filter, decide_eq_true_eq, and_iff_right_iff_imp]
  exact h.mem_peers_of_listOf

/-- Not more than one link of a vertex leads to a peer. -/
theorem nodup_neighborVertices (hv : v ∈ o.vertices) :
    ((o.neighborVertices v).map fun n => n.1.peer).Nodup := by
  obtain ⟨i, hi⟩ := Array.mem_iff_getElem?.1 hv
  have htargets : (v.links.map Link.target).Nodup := by
    have hnodup := h.nodup i
    rwa [targetsAt, linksAt, hi] at hnodup
  rw [List.Nodup, List.pairwise_map, neighborVertices, List.pairwise_filterMap]
  refine (List.pairwise_map.1 htargets).imp fun {l l'} hne n hn n' hn' hpeer => hne ?_
  obtain ⟨w, hw, rfl⟩ := Option.map_eq_some_iff.1 hn
  obtain ⟨w', hw', rfl⟩ := Option.map_eq_some_iff.1 hn'
  obtain rfl := h.eq_of_peer (Array.mem_of_getElem? hw) (Array.mem_of_getElem? hw') hpeer
  exact h.index_inj hw hw'

theorem nodup_neighborsOf (p : PeerAddress) : (o.neighborsOf p).Nodup := by
  rw [neighborsOf, neighbors]
  cases hv : o.vertexOf p with
  | error e => exact List.nodup_nil
  | ok v =>
    simp only [List.map_map]
    exact h.nodup_neighborVertices (h.vertexOf_eq_ok_iff.1 hv).1

theorem nodup_listOf (p : PeerAddress) : (o.listOf p).Nodup :=
  (h.nodup_neighborsOf p).sublist (listOf_sublist o p)

/-- No two peers dial each other. -/
theorem not_mem_listOf (hq : q ∈ o.listOf p) : p ∉ o.listOf q := by
  obtain ⟨v, w, hvw, hlt, rfl, rfl⟩ := h.mem_listOf.1 hq
  intro hp
  obtain ⟨w', v', hwv, hgt, hw, hv⟩ := h.mem_listOf.1 hp
  obtain rfl := h.eq_of_peer (linked_iff.1 hwv).1 (linked_iff.1 (h.linked_symm hvw)).1 hw
  obtain rfl := h.eq_of_peer (linked_iff.1 (h.linked_symm hwv)).1 (linked_iff.1 hvw).1 hv
  exact hlt.asymm hgt

theorem disjoint_listOf (p : PeerAddress) : (o.listOf p).Disjoint (o.dialersOf p) :=
  fun _ hq hdials => h.not_mem_listOf hq (h.mem_dialersOf.1 hdials)

/-- **A peer is linked to those it dials and to those that dial it.** -/
theorem perm_neighborsOf (p : PeerAddress) :
    (o.neighborsOf p).Perm (o.listOf p ++ o.dialersOf p) := by
  have hnodup : (o.listOf p ++ o.dialersOf p).Nodup :=
    (h.nodup_listOf p).append (h.nodup_peers.filter _) (h.disjoint_listOf p)
  refine (List.perm_ext_iff_of_nodup (h.nodup_neighborsOf p) hnodup).2 fun q => ?_
  rw [h.mem_neighborsOf_iff, List.mem_append, h.mem_dialersOf]

theorem dials_of_lt (hvw : o.Linked v w) (hid : v.id < w.id) : o.Dials v w := by
  have hmem := h.mem_listOf.2 ⟨v, w, hvw, hid, rfl, rfl⟩
  exact ⟨List.count_eq_one_of_mem (h.nodup_listOf _) hmem, h.not_mem_listOf hmem⟩

/-- **Of the two ends of a link**, the one with the lower id dials the other. -/
theorem dials_or_dials (hvw : o.Linked v w) :
    v.id < w.id ∧ o.Dials v w ∨ w.id < v.id ∧ o.Dials w v := by
  rcases (h.id_ne hvw).lt_or_gt with hid | hid
  · exact Or.inl ⟨hid, h.dials_of_lt hvw hid⟩
  · exact Or.inr ⟨hid, h.dials_of_lt (h.linked_symm hvw) hid⟩

/-! ## All lists -/

theorem nodup_dials : o.dials.Nodup := by
  refine List.nodup_flatMap.2 ⟨fun p _ => (h.nodup_listOf p).map fun _ _ => ?_, ?_⟩
  · exact fun heq => (Prod.mk.inj heq).2
  · refine h.nodup_peers.imp fun {p p'} hne => ?_
    intro d hd hd'
    obtain ⟨q, -, rfl⟩ := List.mem_map.1 hd
    obtain ⟨q', -, heq⟩ := List.mem_map.1 hd'
    exact hne (Prod.mk.inj heq).1.symm

/-- **The lists are the edges**, in their order. -/
theorem edges_eq_dials : o.edges.map Edge.peers = o.dials.map (Prod.map id some) := by
  rw [edges, dials, List.map_flatMap, List.map_flatMap, Overlay.peers, List.flatMap_map]
  refine List.flatMap_congr fun v hv => ?_
  rw [listOf, h.initiationList_eq (Array.mem_toList_iff.1 hv)]
  simp only [List.map_map]
  rfl

end Distinct

/-- Every link is dialed from one end, once, and the lists of all peers are the edges. -/
structure DialedOnce (o : Overlay) : Prop where
  asked : ∀ p ∈ o.peers, o.initiationList p = .ok (o.listOf p) ∧
    ∃ ns, o.neighbors p = .ok ns ∧ o.neighborsOf p = ns.map Prod.fst
  one_side : ∀ v w, o.Linked v w → v.id < w.id ∧ o.Dials v w ∨ w.id < v.id ∧ o.Dials w v
  mem_dials : ∀ p q, (p, q) ∈ o.dials ↔ q ∈ o.listOf p
  nodup : o.dials.Nodup
  edges : o.edges.map Edge.peers = o.dials.map (Prod.map id some)
  edgeCount : (o.peers.map fun p => (o.listOf p).length).sum = o.edgeCount
  neighbors : ∀ p, (o.neighborsOf p).Perm (o.listOf p ++ o.dialersOf p)
  disjoint : ∀ p, (o.listOf p).Disjoint (o.dialersOf p)

theorem Distinct.dialedOnce (h : o.Distinct) (hcount : o.edgeCount = o.edges.length) :
    o.DialedOnce where
  asked := fun _ hp => ⟨h.initiationList_eq_ok hp, h.neighbors_eq_ok hp⟩
  one_side := fun _ _ => h.dials_or_dials
  mem_dials := fun _ _ => h.mem_dials
  nodup := h.nodup_dials
  edges := h.edges_eq_dials
  edgeCount := by
    rw [← length_dials, ← List.length_map (Prod.map id some), ← h.edges_eq_dials, List.length_map,
      hcount]
  neighbors := h.perm_neighborsOf
  disjoint := h.disjoint_listOf

end Overlay

namespace Arena

variable {m : Arena}

/-- **Every link is dialed once**, in whatever arena comes about, and whoever is asked is at the
    position that the index has. -/
theorem dialedOnce_of_reached (hm : Reached m) : m.overlay.DialedOnce ∧
    ∀ p v, m.overlay.vertexOf p = .ok v ↔
      ∃ i, m.find? p = some i ∧ m.overlay.vertices[i]? = some v := by
  obtain ⟨o, hordered, rfl⟩ := hm.eq_indexed
  have hsound := sound_indexed hordered
  refine ⟨hordered.distinct.dialedOnce hsound.edgeCount_eq, fun p v => ?_⟩
  rw [overlay_indexed, hordered.distinct.vertexOf_eq_ok_iff]
  constructor
  · rintro ⟨hv, hp⟩
    obtain ⟨i, hi⟩ := Array.mem_iff_getElem?.1 hv
    exact ⟨i, (hsound.find?_iff p i).2 ⟨v, hi, hp⟩, hi⟩
  · rintro ⟨i, hfind, hi⟩
    obtain ⟨w, hw, hp⟩ := (hsound.find?_iff p i).1 hfind
    obtain rfl := Option.some.inj (hi.symm.trans hw)
    exact ⟨Array.mem_of_getElem? hi, hp⟩

namespace Sample

/-- On the ring with a chord, the first vertex dials all others and the last one dials none. -/
theorem dialedOnce_of_reached_chord : Reached chord ∧ chord.overlay.DialedOnce ∧
    chord.overlay.edgeCount = 5 ∧
    chord.overlay.peers.map (fun p => (chord.overlay.listOf p).length) = [3, 1, 1, 0] := by
  obtain ⟨d, hbuild⟩ := build_ring
  have hreached : Reached chord := (Reached.build hbuild).connect (by decide) (by decide) 4
  exact ⟨hreached, (dialedOnce_of_reached hreached).1, by decide +kernel, by decide +kernel⟩

end Sample

end Arena

end OverlayCensus
