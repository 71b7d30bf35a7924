/-
  OverlayCensus — the links of an overlay between other vertices.

  Links are listed from their lower position, vertex by vertex, and so they are added to
  vertices that have none (`relinked`).  Every vertex has its links again, in perhaps another
  order, but those that lead upward in the same one; so to add them a second time changes
  nothing.

  * `Simple.perm_linksAt_relinked`, `Simple.linksUpward_relinked`: the links afterwards;
  * `Simple.assemble_eq_ok_iff`: they are added to vertices of different peers;
  * `Simple.retarget_eq_ok_iff`, `Simple.retarget_retarget`: with other peers at the vertices
    of an overlay;
  * `Ordered.ofEdges_edges_eq`, `Ordered.ofEdges_edges`: with the ends of its edges, if no
    vertex is isolated.
-/
import Mathlib
import OverlayCensus.Proofs.OverlayOrder

namespace OverlayCensus.Overlay

variable {o o' : Overlay} {i : ℕ} {es : List EdgeEnd}

/-! ## Links that lead upward -/

theorem flatMap_range_ite {α : Type} (i n : ℕ) (f : ℕ → List α) :
    ((List.range n).flatMap fun j => if i = j then f j else []) = if i < n then f i else [] := by
  induction n with
  | zero => rfl
  | succ n ih =>
    rw [List.range_succ, List.flatMap_append, ih, List.flatMap_singleton]
    rcases lt_trichotomy i n with hlt | rfl | hgt
    · simp [hlt, hlt.ne, hlt.trans n.lt_succ_self]
    · simp
    · simp [hgt.asymm, hgt.ne', Nat.not_lt.2 (Nat.succ_le_of_lt hgt)]

/-- The links that lead upward are added in the order in which they were. -/
theorem upward_linkFor (o : Overlay) (i : ℕ) :
    (o.linksUpward.filterMap (linkFor? i)).filter (fun l => i < l.target) = o.upwardAt i := by
  have hone : ∀ p ∈ o.linksUpward, (linkFor? i p).filter (fun l => i < l.target) =
      if i = p.1 then some ⟨p.2.1, p.2.2⟩ else none := by
    rintro ⟨a, b, cost⟩ hp
    obtain ⟨hab, -⟩ := mem_linksUpward.1 hp
    rw [linkFor?]
    dsimp only
    split_ifs with ha hb
    · simp [ha, hab]
    · simp [hb, hab.le]
    · rfl
  have hsource : ∀ j, ((o.upwardAt j).map fun l => (j, l.target, l.cost)).filterMap
      (fun p => if i = p.1 then some (⟨p.2.1, p.2.2⟩ : Link) else none) =
        if i = j then o.upwardAt j else [] := by
    intro j
    rw [List.filterMap_map]
    split_ifs with hij <;> simp [hij]
  rw [List.filter_filterMap, List.filterMap_congr hone, linksUpward_eq, List.filterMap_flatMap]
  simp only [hsource]
  rw [flatMap_range_ite]
  split_ifs with hi
  · rfl
  · rw [upwardAt, linksAt_of_le (not_lt.1 hi), List.filter_nil]

/-- The links that a vertex gets are those it has. -/
theorem Simple.mem_filterMap_linkFor (h : o.Simple) {l : Link} :
    l ∈ o.linksUpward.filterMap (linkFor? i) ↔ l ∈ o.linksAt i := by
  rw [List.mem_filterMap]
  constructor
  · rintro ⟨⟨a, b, cost⟩, hp, hl⟩
    obtain ⟨-, hab⟩ := mem_linksUpward.1 hp
    rw [linkFor?] at hl
    split_ifs at hl with ha hb
    · obtain rfl := Option.some.inj hl
      exact ha ▸ hab
    · obtain rfl := Option.some.inj hl
      exact hb ▸ h.symm a b cost hab
  · intro hl
    have hne : i ≠ l.target := fun hi => h.irrefl i (adj_iff.2 ⟨l.cost, hi ▸ hl⟩)
    rcases lt_or_gt_of_ne hne with hlt | hgt
    · exact ⟨(i, l.target, l.cost), mem_linksUpward.2 ⟨hlt, hl⟩, if_pos rfl⟩
    · refine ⟨(l.target, i, l.cost), mem_linksUpward.2 ⟨hgt, h.symm i _ _ hl⟩, ?_⟩
      rw [linkFor?, if_neg hne, if_pos rfl]

/-- The links can be added to vertices that have none. -/
theorem Simple.joinable_bare (h : o.Simple) (band : DegreeBand) (es : List EdgeEnd) :
    (bare band es).Joinable o.linksUpward where
  irrefl := fun _ hp => (mem_linksUpward.1 hp).1.ne
  new := fun _ _ => not_adj_bare _ _ _ _
  once := by
    rw [List.Nodup, List.pairwise_map]
    refine h.pairwise_linksUpward.imp_of_mem ?_
    rintro ⟨a, b, cost⟩ ⟨a', b', cost'⟩ hp hq hne hsame
    have hlt : a < b := (mem_linksUpward.1 hp).1
    have hlt' : a' < b' := (mem_linksUpward.1 hq).1
    rcases Sym2.eq_iff.1 hsame with ⟨h₁, h₂⟩ | ⟨rfl, rfl⟩
    · exact hne h₁ h₂
    · -- both lead upward, so they cannot be one link in two directions
      exact lt_asymm hlt hlt'

/-! ## Other vertices -/

/-- Vertices with the links of an overlay. -/
def relinked (o : Overlay) (es : List EdgeEnd) : Overlay :=
  (bare o.band es).linkAll o.linksUpward

@[simp] theorem band_relinked (o : Overlay) (es : List EdgeEnd) : (o.relinked es).band = o.band :=
  band_linkAll _ _

@[simp] theorem ends_relinked (o : Overlay) (es : List EdgeEnd) : (o.relinked es).ends = es :=
  (ends_linkAll _ _).trans (ends_bare _ _)

@[simp] theorem size_relinked (o : Overlay) (es : List EdgeEnd) :
    (o.relinked es).size = es.length := by
  rw [← length_ends, ends_relinked]

section
variable (h : o.Simple) (hlength : es.length = o.size)
include h hlength

theorem Simple.lt_size_bare (p : ℕ × ℕ × UInt32) (hp : p ∈ o.linksUpward) :
    p.1 < (bare o.band es).size ∧ p.2.1 < (bare o.band es).size := by
  rw [size_bare, hlength]
  exact h.lt_size_of_mem_linksUpward hp

theorem Simple.connectAll_bare :
    (bare o.band es).connectAll o.linksUpward = .ok (o.relinked es) :=
  (connectAll_eq_ok_iff (simple_bare o.band es) (h.lt_size_bare hlength)).2
    ⟨h.joinable_bare o.band es, rfl⟩

theorem Simple.relinked : (o.relinked es).Simple :=
  ((simple_bare o.band es).linkAll (h.lt_size_bare hlength) (h.joinable_bare o.band es)).1

theorem Simple.linksAt_relinked (i : ℕ) :
    (o.relinked es).linksAt i = o.linksUpward.filterMap (linkFor? i) := by
  have hlinks :=
    ((simple_bare o.band es).linkAll (h.lt_size_bare hlength) (h.joinable_bare o.band es)).2 i
  rwa [linksAt_bare, List.nil_append] at hlinks

/-- **Every vertex has its links again**, in perhaps another order. -/
theorem Simple.perm_linksAt_relinked (i : ℕ) :
    ((o.relinked es).linksAt i).Perm (o.linksAt i) := by
  have hnodup := (h.relinked hlength).nodup i
  refine (List.perm_ext_iff_of_nodup hnodup.of_map (h.nodup i).of_map).2 fun l => ?_
  rw [h.linksAt_relinked hlength, h.mem_filterMap_linkFor]

/-- **The links that lead upward** are in the same order again. -/
theorem Simple.linksUpward_relinked : (o.relinked es).linksUpward = o.linksUpward := by
  rw [linksUpward_eq, linksUpward_eq, size_relinked, hlength]
  refine List.flatMap_congr fun i _ => ?_
  rw [upwardAt, h.linksAt_relinked hlength, upward_linkFor]

theorem Simple.verify_relinked (hverify : o.verify = .ok ()) :
    (o.relinked es).verify = .ok () := by
  refine verify_eq_ok_iff.2 fun a ha => ?_
  rw [size_relinked, hlength] at ha
  rw [band_relinked, degreeAt, (h.perm_linksAt_relinked hlength a).length_eq]
  exact admits_of_verify hverify ha

/-- **The links of a verified overlay are added** to as many vertices, unless one peer has two of
    them. -/
theorem Simple.assemble_eq_ok_iff (hverify : o.verify = .ok ())
    {ps : Overlay → List (ℕ × ℕ × UInt32)} (hps : ps (bare o.band es) = o.linksUpward) :
    assemble o.band es ps = .ok o' ↔ (es.map EdgeEnd.peer).Nodup ∧ o' = o.relinked es := by
  constructor
  · intro hok
    obtain ⟨_, hbare, hok⟩ := bind_eq_ok.1 hok
    obtain ⟨hpeers, rfl⟩ := ofVertices?_eq_ok_iff.1 hbare
    obtain ⟨linked, hlinked, hok⟩ := bind_eq_ok.1 hok
    obtain ⟨⟨⟩, -, hok⟩ := bind_eq_ok.1 hok
    rw [hps, h.connectAll_bare hlength] at hlinked
    exact ⟨hpeers, (Except.ok.inj hok).symm.trans (Except.ok.inj hlinked).symm⟩
  · rintro ⟨hpeers, rfl⟩
    refine bind_eq_ok.2 ⟨_, ofVertices?_eq_ok o.band hpeers, bind_eq_ok.2 ⟨_, ?_,
      bind_eq_ok.2 ⟨(), h.verify_relinked hlength hverify, rfl⟩⟩⟩
    rw [hps, h.connectAll_bare hlength]

end

/-! ## Other peers -/

/-- The vertices of an overlay with other peers at them. -/
def endsOver (o : Overlay) (peers : List PeerAddress) : List EdgeEnd :=
  List.zipWith (fun x p => ⟨x.id, p, x.devices⟩) o.ends peers

theorem retarget_eq_assemble {peers : List PeerAddress} (h : peers.length = o.size) :
    o.retarget peers = assemble o.band (o.endsOver peers) fun _ => o.linksUpward := by
  have hends : ((o.vertices.toList.zip peers).map fun v =>
      (⟨v.1.id, v.2, v.1.devices⟩ : EdgeEnd)) = o.endsOver peers := by
    rw [endsOver, ends, List.zipWith_map_left, List.map_zip_eq_zipWith]
    rfl
  rw [retarget, if_pos h, hends]
  rfl

section
variable {peers : List PeerAddress}

theorem length_endsOver (h : peers.length = o.size) : (o.endsOver peers).length = o.size := by
  rw [endsOver, List.length_zipWith, length_ends, h, min_self]

/-- The peers are replaced, and nothing else. -/
theorem map_endsOver (h : peers.length = o.size) :
    (o.endsOver peers).map EdgeEnd.peer = peers ∧
      (o.endsOver peers).map EdgeEnd.id = o.ends.map EdgeEnd.id ∧
      (o.endsOver peers).map EdgeEnd.devices = o.ends.map EdgeEnd.devices := by
  have hlength := length_endsOver h
  have hends := length_ends o
  refine ⟨List.ext_getElem ?_ ?_, List.ext_getElem ?_ ?_, List.ext_getElem ?_ ?_⟩
  · rw [List.length_map, hlength, h]
  · simp [endsOver]
  · rw [List.length_map, List.length_map, hlength, hends]
  · simp [endsOver]
  · rw [List.length_map, List.length_map, hlength, hends]
  · simp [endsOver]

/-- Of peers that are replaced twice, the first ones leave nothing behind. -/
theorem endsOver_relinked (h : peers.length = o.size) (peers' : List PeerAddress) :
    (o.relinked (o.endsOver peers)).endsOver peers' = o.endsOver peers' := by
  have hlength := length_endsOver h
  have hends := length_ends o
  refine List.ext_getElem ?_ fun i hi hi' => ?_
  · simp only [endsOver, ends_relinked, List.length_zipWith]
    omega
  · simp [endsOver]

theorem endsOver_self (o : Overlay) : o.endsOver (o.ends.map EdgeEnd.peer) = o.ends := by
  rw [endsOver, List.zipWith_map_right, List.zipWith_self]
  exact List.map_id' _

end

section
variable {peers : List PeerAddress} (h : o.Simple) (hverify : o.verify = .ok ())
include h hverify

/-- **Every list of as many different peers** can be put at the vertices, and no other list. -/
theorem Simple.retarget_eq_ok_iff : o.retarget peers = .ok o' ↔
    peers.length = o.size ∧ peers.Nodup ∧ o' = o.relinked (o.endsOver peers) := by
  by_cases hlength : peers.length = o.size
  · rw [retarget_eq_assemble hlength,
      h.assemble_eq_ok_iff (length_endsOver hlength) hverify rfl, (map_endsOver hlength).1]
    exact (and_iff_right hlength).symm
  · rw [retarget, if_neg hlength]
    exact iff_of_false (fun hok => by cases hok) fun hok => hlength hok.1

/-- **Peers that are replaced leave no trace**, in the order of the links either. -/
theorem Simple.retarget_retarget (hok : o.retarget peers = .ok o') (peers' : List PeerAddress) :
    o'.retarget peers' = o.retarget peers' := by
  obtain ⟨hlength, -, rfl⟩ := (h.retarget_eq_ok_iff hverify).1 hok
  have hends := length_endsOver hlength
  have hsize : (o.relinked (o.endsOver peers)).size = o.size := (size_relinked ..).trans hends
  by_cases hlength' : peers'.length = o.size
  · rw [retarget_eq_assemble (hlength'.trans hsize.symm), retarget_eq_assemble hlength',
      band_relinked, endsOver_relinked hlength, h.linksUpward_relinked hends]
  · rw [retarget, retarget, if_neg hlength', if_neg (hsize.symm ▸ hlength'), hsize]

end

namespace Ordered

/-- The edge of a link by position exists. -/
theorem exists_edgeBetween (h : o.Ordered) {p : ℕ × ℕ × UInt32} (hp : p ∈ o.linksUpward) :
    ∃ x y, o.ends[p.1]? = some x ∧ o.ends[p.2.1]? = some y ∧
      edgeBetween? o.ends p = some ⟨x, some y, p.2.2⟩ := by
  obtain ⟨hlt, hl⟩ := mem_linksUpward.1 hp
  have hsize := h.lt_size (adj_iff.2 ⟨_, hl⟩)
  obtain ⟨x, hx⟩ := getElem?_ends_eq_some (hlt.trans hsize)
  obtain ⟨y, hy⟩ := getElem?_ends_eq_some hsize
  exact ⟨x, y, hx, hy, by simp [edgeBetween?, hx, hy]⟩

theorem mem_edges (h : o.Ordered) {e : Edge} (he : e ∈ o.edges) :
    ∃ x ∈ o.ends, ∃ y ∈ o.ends, e.first = x ∧ e.second = some y := by
  rw [h.edges_eq] at he
  obtain ⟨p, hp, he⟩ := List.mem_filterMap.1 he
  obtain ⟨x, y, hx, hy, hedge⟩ := h.exists_edgeBetween hp
  obtain rfl := Option.some.inj (hedge.symm.trans he)
  exact ⟨x, List.mem_of_getElem? hx, y, List.mem_of_getElem? hy, rfl, rfl⟩

/-- Without isolated vertices, the ends of the edges are the vertices. -/
theorem mem_sortedEnds_edges (h : o.Ordered) (hdegree : ∀ a < o.size, 1 ≤ o.degreeAt a)
    (x : EdgeEnd) : x ∈ sortedEnds o.edges ↔ x ∈ o.ends := by
  rw [mem_sortedEnds]
  constructor
  · rintro ⟨e, he, hx⟩
    obtain ⟨y, hy, z, hz, hfirst, hsecond⟩ := h.mem_edges he
    rw [edgeEnds, hfirst, hsecond] at hx
    simp only [Option.toList_some, List.mem_cons, List.not_mem_nil, or_false] at hx
    rcases hx with rfl | rfl
    · exact hy
    · exact hz
  · intro hx
    obtain ⟨i, hi⟩ := List.mem_iff_getElem?.1 hx
    have hsize : i < o.size := length_ends o ▸ (List.getElem?_eq_some_iff.1 hi).1
    obtain ⟨⟨j, cost⟩, hl⟩ := List.exists_mem_of_length_pos (hdegree i hsize)
    have hne : i ≠ j := fun hij => h.irrefl i (adj_iff.2 ⟨cost, hij ▸ hl⟩)
    -- The vertex is the first or the second end of the link's edge, as its id is the lower one
    -- or not.
    rcases lt_or_gt_of_ne hne with hlt | hgt
    · obtain ⟨y, z, hy, -, hedge⟩ := h.exists_edgeBetween (mem_linksUpward.2 ⟨hlt, hl⟩)
      obtain rfl := Option.some.inj (hi.symm.trans hy)
      refine ⟨_, h.edges_eq ▸ List.mem_filterMap.2 ⟨_, mem_linksUpward.2 ⟨hlt, hl⟩, hedge⟩, ?_⟩
      exact List.mem_cons_self
    · have hl' := h.symm i j cost hl
      obtain ⟨y, z, -, hz, hedge⟩ := h.exists_edgeBetween (mem_linksUpward.2 ⟨hgt, hl'⟩)
      obtain rfl := Option.some.inj (hi.symm.trans hz)
      refine ⟨_, h.edges_eq ▸ List.mem_filterMap.2 ⟨_, mem_linksUpward.2 ⟨hgt, hl'⟩, hedge⟩, ?_⟩
      exact List.mem_cons_of_mem _ (List.mem_singleton_self _)

/-- The edges join the positions that the links join. -/
theorem joins_edges (h : o.Ordered) : (bare o.band o.ends).joins o.edges = o.linksUpward := by
  rw [joins, h.edges_eq, List.filterMap_filterMap]
  conv_rhs => rw [← List.filterMap_some (l := o.linksUpward)]
  refine List.filterMap_congr fun p hp => ?_
  obtain ⟨x, y, hx, hy, hedge⟩ := h.exists_edgeBetween hp
  have hincreasing : Increasing (bare o.band o.ends).ends := (ends_bare ..).symm ▸ h.increasing
  rw [hedge, Option.bind_some, Option.map_some,
    hincreasing.positionOf_eq (by rwa [ends_bare]), hincreasing.positionOf_eq (by rwa [ends_bare])]

/-- **Edges give the overlay back**, with its links added again. -/
theorem ofEdges_edges_eq (h : o.Ordered) (hdegree : ∀ a < o.size, 1 ≤ o.degreeAt a)
    (hverify : o.verify = .ok ()) : ofEdges o.band o.edges = .ok (o.relinked o.ends) := by
  have hmem := h.mem_sortedEnds_edges hdegree
  have hconflict : conflict? (sortedEnds o.edges) = none := conflict?_eq_none fun x hx y hy =>
    h.increasing.id_inj ((hmem x).1 hx) ((hmem y).1 hy)
  have hends : oncePerId (sortedEnds o.edges) = o.ends :=
    oncePerId_eq h.increasing (pairwise_sortedEnds _) hmem
  rw [ofEdges_eq_assemble hconflict, hends]
  exact (h.assemble_eq_ok_iff o.length_ends hverify h.joins_edges).2 ⟨h.peers, rfl⟩

/-- To read the edges is to put the peers of the overlay at its vertices again. -/
theorem ofEdges_edges_eq_retarget (h : o.Ordered) (hdegree : ∀ a < o.size, 1 ≤ o.degreeAt a)
    (hverify : o.verify = .ok ()) :
    ofEdges o.band o.edges = o.retarget (o.ends.map EdgeEnd.peer) := by
  rw [h.ofEdges_edges_eq hdegree hverify]
  refine ((h.retarget_eq_ok_iff hverify).2 ⟨?_, h.peers, ?_⟩).symm
  · rw [List.length_map, length_ends]
  · rw [endsOver_self]

/-- **Edges give an overlay back**, with the links of a vertex in perhaps another order. -/
theorem ofEdges_edges (h : o.Ordered) (hmin : 1 ≤ o.band.min) (hverify : o.verify = .ok ()) :
    ∃ o', ofEdges o.band o.edges = .ok o' ∧ o'.Ordered ∧ o'.band = o.band ∧ o'.ends = o.ends ∧
      (∀ i, (o'.linksAt i).Perm (o.linksAt i)) ∧ o'.linksUpward = o.linksUpward := by
  have hlength := o.length_ends
  have hends := o.ends_relinked o.ends
  refine ⟨o.relinked o.ends, ?_, ⟨h.relinked hlength, hends.symm ▸ h.increasing,
    hends.symm ▸ h.peers⟩, o.band_relinked o.ends, hends, h.perm_linksAt_relinked hlength,
    h.linksUpward_relinked hlength⟩
  exact h.ofEdges_edges_eq (fun a ha => hmin.trans (admits_of_verify hverify ha).1) hverify

end Ordered

end OverlayCensus.Overlay
