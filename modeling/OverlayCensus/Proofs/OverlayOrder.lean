/-
  OverlayCensus — overlays whose vertices stand in the order of their ids.

  * `Ordered`: links make up a graph, ids increase along the vertices, and no peer stands at
    two of them;
  * `edges_eq`: the edges of such an overlay are its links by position, each from its lower
    end;
  * `connectAll_eq_ok_iff`: links between different pairs of positions are added one after
    another (`linkAll`), and no others;
  * `links_of_attempts`: a random construction makes links one by one and does nothing else;
  * `ordered_of_ofEdges`, `ordered_of_retarget`, `ordered_of_build`, `ordered_of_ofFile`:
    whatever returns an overlay returns an ordered one whose degrees lie in its band.
-/
import Mathlib
import OverlayCensus.Overlay.File
import OverlayCensus.Proofs.Outcomes
import OverlayCensus.Proofs.OverlayBuild

namespace OverlayCensus.Overlay

open Relation (ReflTransGen)

variable {o o' : Overlay} {i j a b : ℕ} {cost : UInt32}

/-! ## Vertices in order -/

/-- The ids of ends increase. -/
def Increasing (es : List EdgeEnd) : Prop :=
  es.Pairwise fun x y => x.id < y.id

/-- An overlay as it is returned: links make up a graph, vertices stand in the order of their
    ids, and their peers differ. -/
structure Ordered (o : Overlay) : Prop extends o.Simple where
  increasing : Increasing o.ends
  peers : (o.ends.map EdgeEnd.peer).Nodup

theorem positionOf_eq (o : Overlay) (id : ℕ) :
    o.positionOf id = o.ends.findIdx fun x => x.id = id := by
  obtain ⟨band, ⟨vertices⟩⟩ := o
  rw [positionOf, List.findIdx_toArray, ends, List.findIdx_map]
  rfl

/-- Degrees are checked one by one. -/
theorem verify_eq_ok_iff : o.verify = .ok () ↔
    ∀ a < o.size, o.band.min ≤ o.degreeAt a ∧ o.degreeAt a ≤ o.band.max := by
  refine ⟨fun h a ha => admits_of_verify h ha, fun h => ?_⟩
  have hnone : (o.vertices.find? fun v => !o.band.admits v.degree) = none := by
    refine Array.find?_eq_none.2 fun v hv => ?_
    obtain ⟨i, hi, rfl⟩ := Array.mem_iff_getElem.1 hv
    have hdegree := h i hi
    rw [degreeAt, linksAt, Array.getElem?_eq_getElem hi] at hdegree
    simp only [DegreeBand.admits, Bool.not_eq_true', Bool.not_eq_false, Bool.and_eq_true,
      decide_eq_true_eq]
    exact hdegree
  rw [verify, hnone]

theorem find?_eq (o : Overlay) (p : PeerAddress) :
    o.find? p = o.ends.findIdx? fun x => x.peer = p := by
  obtain ⟨band, ⟨vertices⟩⟩ := o
  rw [find?, List.findIdx?_toArray, ends, List.findIdx?_map]
  rfl

theorem getElem?_ends_eq_some (h : i < o.size) : ∃ x, o.ends[i]? = some x :=
  ⟨_, List.getElem?_eq_getElem (by rwa [length_ends])⟩

namespace Increasing

variable {es : List EdgeEnd} {x y : EdgeEnd}

theorem id_lt_iff (h : Increasing es) (hx : es[i]? = some x) (hy : es[j]? = some y) :
    x.id < y.id ↔ i < j := by
  obtain ⟨hi, rfl⟩ := List.getElem?_eq_some_iff.1 hx
  obtain ⟨hj, rfl⟩ := List.getElem?_eq_some_iff.1 hy
  have hlt := List.pairwise_iff_getElem.1 h
  refine ⟨fun hid => ?_, hlt i j hi hj⟩
  by_contra hle
  rcases (not_lt.1 hle).lt_or_eq with hji | rfl
  · exact absurd hid (hlt j i hj hi hji).asymm
  · exact absurd hid (lt_irrefl _)

theorem id_inj (h : Increasing es) (hx : x ∈ es) (hy : y ∈ es) (hid : x.id = y.id) : x = y := by
  obtain ⟨i, hi⟩ := List.mem_iff_getElem?.1 hx
  obtain ⟨j, hj⟩ := List.mem_iff_getElem?.1 hy
  have hij : i = j := by
    have hij := (h.id_lt_iff hi hj).not
    have hji := (h.id_lt_iff hj hi).not
    omega
  subst hij
  exact Option.some.inj (hi.symm.trans hj)

/-- Increasing ends are determined by which they are. -/
theorem eq_of_mem_iff {es' : List EdgeEnd} (h : Increasing es) (h' : Increasing es')
    (hmem : ∀ x, x ∈ es ↔ x ∈ es') : es = es' := by
  have hnodup : ∀ {l : List EdgeEnd}, Increasing l → l.Nodup := fun hl =>
    hl.imp fun hlt => ne_of_apply_ne EdgeEnd.id (ne_of_lt hlt)
  refine List.Perm.eq_of_pairwise (fun x y _ _ hxy hyx => absurd hxy hyx.asymm) h h' ?_
  exact (List.perm_ext_iff_of_nodup (hnodup h) (hnodup h')).2 hmem

/-- The position of a vertex is found by its id. -/
theorem positionOf_eq (h : Increasing o.ends) (hx : o.ends[i]? = some x) :
    o.positionOf x.id = i := by
  obtain ⟨hi, hxi⟩ := List.getElem?_eq_some_iff.1 hx
  rw [Overlay.positionOf_eq, List.findIdx_eq hi, hxi]
  refine ⟨decide_eq_true rfl, fun j hj => decide_eq_false fun heq => ?_⟩
  have hlt := List.pairwise_iff_getElem.1 h j i (hj.trans hi) hi hj
  rw [heq, hxi] at hlt
  exact lt_irrefl _ hlt

end Increasing

/-! ## Links from their lower position -/

/-- The links of a vertex that lead to higher positions. -/
def upwardAt (o : Overlay) (i : ℕ) : List Link :=
  (o.linksAt i).filter fun l => i < l.target

theorem flatMap_zipIdx {α β : Type} (l : List α) (f : α × ℕ → List β) :
    l.zipIdx.flatMap f = (List.range l.length).flatMap fun i => l[i]?.elim [] fun x => f (x, i) := by
  induction l using List.reverseRecOn with
  | nil => rfl
  | append_singleton l x ih =>
    rw [List.zipIdx_append, List.flatMap_append, ih, List.length_append, List.length_singleton,
      List.range_succ, List.flatMap_append]
    congr 1
    · refine List.flatMap_congr fun i hi => ?_
      rw [List.getElem?_append_left (List.mem_range.1 hi)]
    · simp

theorem linksUpward_eq (o : Overlay) :
    o.linksUpward = (List.range o.size).flatMap fun i =>
      (o.upwardAt i).map fun l => (i, l.target, l.cost) := by
  rw [linksUpward, flatMap_zipIdx, Array.length_toList]
  refine List.flatMap_congr fun i _ => ?_
  rw [Array.getElem?_toList, upwardAt, linksAt]
  cases o.vertices[i]? <;> rfl

theorem mem_linksUpward : (a, b, cost) ∈ o.linksUpward ↔ a < b ∧ ⟨b, cost⟩ ∈ o.linksAt a := by
  simp only [linksUpward_eq, List.mem_flatMap, List.mem_range, List.mem_map, upwardAt,
    List.mem_filter, decide_eq_true_eq, Prod.mk.injEq]
  constructor
  · rintro ⟨i, -, ⟨t, c⟩, ⟨hl, hlt⟩, rfl, rfl, rfl⟩
    exact ⟨hlt, hl⟩
  · rintro ⟨hlt, hl⟩
    exact ⟨a, (adj_iff.2 ⟨cost, hl⟩).lt_size, ⟨b, cost⟩, ⟨hl, hlt⟩, rfl, rfl, rfl⟩

theorem Simple.lt_size_of_mem_linksUpward (h : o.Simple) {p : ℕ × ℕ × UInt32}
    (hp : p ∈ o.linksUpward) : p.1 < o.size ∧ p.2.1 < o.size := by
  obtain ⟨hlt, hl⟩ := mem_linksUpward.1 hp
  have hsize := h.lt_size (adj_iff.2 ⟨_, hl⟩)
  exact ⟨hlt.trans hsize, hsize⟩

/-- No two links join the same positions. -/
theorem Simple.pairwise_linksUpward (h : o.Simple) :
    o.linksUpward.Pairwise fun p q => p.1 = q.1 → p.2.1 ≠ q.2.1 := by
  rw [linksUpward_eq, List.pairwise_flatMap]
  refine ⟨fun i _ => ?_, List.nodup_range.imp fun hij p hp q hq hpq => ?_⟩
  · have hnodup : ((o.upwardAt i).map Link.target).Nodup :=
      (h.nodup i).sublist (List.filter_sublist.map _)
    refine List.pairwise_map.2 (List.Pairwise.imp ?_ (List.pairwise_map.1 hnodup))
    exact fun hne _ => hne
  · obtain ⟨l, -, rfl⟩ := List.mem_map.1 hp
    obtain ⟨l', -, rfl⟩ := List.mem_map.1 hq
    exact absurd hpq hij

/-! ## Edges -/

/-- The edge between two positions. -/
def edgeBetween? (es : List EdgeEnd) (p : ℕ × ℕ × UInt32) : Option Edge :=
  es[p.1]?.bind fun x => es[p.2.1]?.map fun y => ⟨x, some y, p.2.2⟩

/-- **The edges** are the links by position. -/
theorem Ordered.edges_eq (h : o.Ordered) :
    o.edges = o.linksUpward.filterMap (edgeBetween? o.ends) := by
  have hvertices : o.edges = o.vertices.toList.zipIdx.flatMap fun v =>
      ((o.neighborVertices v.1).filter fun n => v.1.id < n.1.id).map fun n =>
        ⟨v.1.toEnd, some n.1.toEnd, n.2⟩ := by
    conv_lhs => rw [edges, ← List.zipIdx_map_fst 0 o.vertices.toList, List.flatMap_map]
  rw [hvertices, linksUpward, List.filterMap_flatMap]
  refine List.flatMap_congr fun ⟨v, i⟩ hv => ?_
  rw [List.mem_zipIdx_iff_getElem?, Array.getElem?_toList] at hv
  have hend : o.ends[i]? = some v.toEnd := by rw [getElem?_ends, hv, Option.map_some]
  rw [neighborVertices, List.filter_filterMap, List.map_filterMap, List.filterMap_map,
    List.filterMap_filter]
  refine List.filterMap_congr fun l hl => ?_
  have hlink : l ∈ o.linksAt i := by rw [linksAt, hv]; exact hl
  have hlt : l.target < o.vertices.size := h.lt_size (adj_iff.2 ⟨l.cost, hlink⟩)
  have hw : o.vertices[l.target]? = some o.vertices[l.target] := Array.getElem?_eq_getElem hlt
  have hend' : o.ends[l.target]? = some o.vertices[l.target].toEnd := by
    rw [getElem?_ends, hw, Option.map_some]
  have hid := h.increasing.id_lt_iff hend hend'
  simp only [Vertex.toEnd] at hid
  simp only [hw, Option.map_some, Option.filter_some, hid, decide_eq_true_eq, Function.comp_apply,
    edgeBetween?, hend, hend', Option.bind_some]
  split_ifs <;> rfl

theorem edgeBetween?_eq_some_iff {es : List EdgeEnd} {e : Edge} :
    edgeBetween? es (a, b, cost) = some e ↔
      ∃ x y, es[a]? = some x ∧ es[b]? = some y ∧ e = ⟨x, some y, cost⟩ := by
  simp only [edgeBetween?, Option.bind_eq_some_iff, Option.map_eq_some_iff, eq_comm (a := e),
    exists_and_left]

theorem Ordered.mem_edges_iff (h : o.Ordered) {e : Edge} :
    e ∈ o.edges ↔ ∃ a b cost x y, a < b ∧ ⟨b, cost⟩ ∈ o.linksAt a ∧ o.ends[a]? = some x ∧
      o.ends[b]? = some y ∧ e = ⟨x, some y, cost⟩ := by
  simp only [h.edges_eq, List.mem_filterMap, Prod.exists, mem_linksUpward, edgeBetween?_eq_some_iff,
    and_assoc, exists_and_left]

/-- An end stands at one position. -/
theorem Increasing.index_inj {es : List EdgeEnd} {x : EdgeEnd} (h : Increasing es)
    (hi : es[i]? = some x) (hj : es[j]? = some x) : i = j := by
  have hij := h.id_lt_iff hi hj
  have hji := h.id_lt_iff hj hi
  have hirrefl := lt_irrefl x.id
  omega

/-- No edge is listed twice. -/
theorem Ordered.nodup_edges (h : o.Ordered) : o.edges.Nodup := by
  rw [h.edges_eq]
  refine List.Nodup.filterMap ?_ (h.pairwise_linksUpward.imp ?_)
  · rintro ⟨a, b, cost⟩ ⟨a', b', cost'⟩ e he he'
    obtain ⟨x, y, hx, hy, rfl⟩ := edgeBetween?_eq_some_iff.1 he
    obtain ⟨x', y', hx', hy', heq⟩ := edgeBetween?_eq_some_iff.1 he'
    cases heq
    rw [h.increasing.index_inj hx hx', h.increasing.index_inj hy hy']
  · rintro p _ hne rfl
    exact hne rfl rfl

/-! ## Links added in order -/

/-- The link that a pair of positions gives to one of them. -/
def linkFor? (i : ℕ) (p : ℕ × ℕ × UInt32) : Option Link :=
  if i = p.1 then some ⟨p.2.1, p.2.2⟩ else if i = p.2.1 then some ⟨p.1, p.2.2⟩ else none

/-- The overlay with links between several pairs of positions, added in order. -/
def linkAll (o : Overlay) (ps : List (ℕ × ℕ × UInt32)) : Overlay :=
  ps.foldl (fun o p => o.link p.1 p.2.1 p.2.2) o

/-- Pairs of positions that can be linked: no position with itself, no two that are linked
    already, and no two twice, in whatever order. -/
structure Joinable (o : Overlay) (ps : List (ℕ × ℕ × UInt32)) : Prop where
  irrefl : ∀ p ∈ ps, p.1 ≠ p.2.1
  new : ∀ p ∈ ps, ¬ o.Adj p.1 p.2.1
  once : (ps.map fun p => s(p.1, p.2.1)).Nodup

section
variable {ps : List (ℕ × ℕ × UInt32)}

@[simp] theorem linkAll_nil (o : Overlay) : o.linkAll [] = o := rfl

theorem linkAll_cons (o : Overlay) (p : ℕ × ℕ × UInt32) (ps : List (ℕ × ℕ × UInt32)) :
    o.linkAll (p :: ps) = (o.link p.1 p.2.1 p.2.2).linkAll ps := rfl

theorem ends_linkAll (o : Overlay) (ps : List (ℕ × ℕ × UInt32)) : (o.linkAll ps).ends = o.ends := by
  induction ps generalizing o with
  | nil => rfl
  | cons p ps ih => rw [linkAll_cons, ih, ends_link]

theorem band_linkAll (o : Overlay) (ps : List (ℕ × ℕ × UInt32)) : (o.linkAll ps).band = o.band := by
  induction ps generalizing o with
  | nil => rfl
  | cons p ps ih => rw [linkAll_cons, ih]; rfl

/-- A pair can be linked before others if it can be linked, and the others after it. -/
theorem joinable_cons_iff (ha : a < o.size) (hb : b < o.size) :
    o.Joinable ((a, b, cost) :: ps) ↔
      a ≠ b ∧ ¬ o.Adj a b ∧ (a ≠ b → (o.link a b cost).Joinable ps) := by
  constructor
  · rintro ⟨hirrefl, hnew, honce⟩
    obtain ⟨hfirst, hrest⟩ := List.nodup_cons.1 honce
    refine ⟨hirrefl _ List.mem_cons_self, hnew _ List.mem_cons_self, fun hne => ⟨?_, ?_, hrest⟩⟩
    · exact fun p hp => hirrefl p (List.mem_cons_of_mem _ hp)
    · intro p hp hadj
      rcases (adj_link ha hb hne cost).1 hadj with hold | hsame
      · exact hnew p (List.mem_cons_of_mem _ hp) hold
      · exact hfirst (List.mem_map.2 ⟨p, hp, Sym2.eq_iff.2 hsame⟩)
  · rintro ⟨hne, hadj, hrest⟩
    obtain ⟨hirrefl, hnew, honce⟩ := hrest hne
    refine ⟨List.forall_mem_cons.2 ⟨hne, hirrefl⟩, List.forall_mem_cons.2 ⟨hadj, ?_⟩, ?_⟩
    · exact fun p hp hold => hnew p hp ((adj_link ha hb hne cost).2 (Or.inl hold))
    · refine List.nodup_cons.2 ⟨fun hmem => ?_, honce⟩
      obtain ⟨p, hp, hsame⟩ := List.mem_map.1 hmem
      exact hnew p hp ((adj_link ha hb hne cost).2 (Or.inr (Sym2.eq_iff.1 hsame)))

/-- **Links are added one after another** if they make up a graph with those that are there,
    and otherwise refused. -/
theorem connectAll_eq_ok_iff (h : o.Simple) (hin : ∀ p ∈ ps, p.1 < o.size ∧ p.2.1 < o.size) :
    o.connectAll ps = .ok o' ↔ o.Joinable ps ∧ o' = o.linkAll ps := by
  induction ps generalizing o with
  | nil =>
    have hjoin : o.Joinable [] := ⟨by simp, by simp, List.nodup_nil⟩
    rw [connectAll, Except.ok.injEq, linkAll_nil, and_iff_right hjoin, eq_comm]
  | cons p ps ih =>
    obtain ⟨a, b, cost⟩ := p
    obtain ⟨⟨ha, hb⟩, hin⟩ := List.forall_mem_cons.1 hin
    rw [joinable_cons_iff ha hb, connectAll]
    cases hconnect : o.connect a b cost with
    | error e =>
      refine ⟨nofun, fun ⟨⟨hne, hadj, _⟩, _⟩ => ?_⟩
      have hok : o.connect a b cost = .ok (o.link a b cost) :=
        connect_eq_ok_iff.2 ⟨hne, Bool.eq_false_iff.2 (mt h.isConnected_iff.1 hadj), rfl⟩
      exact nomatch hconnect.symm.trans hok
    | ok o₁ =>
      obtain ⟨hne, hconn, rfl⟩ := connect_eq_ok_iff.1 hconnect
      have hadj : ¬ o.Adj a b := mt h.isConnected_iff.2 (Bool.eq_false_iff.1 hconn)
      rw [ih (h.link ha hb hne hadj cost) (by simpa using hin)]
      simp only [ne_eq, hne, not_false_eq_true, hadj, true_and, forall_const]
      rfl

/-- Links that can be added make up a graph with those that are there, and each vertex has
    its new ones behind the others. -/
theorem Simple.linkAll (h : o.Simple) (hin : ∀ p ∈ ps, p.1 < o.size ∧ p.2.1 < o.size)
    (hjoin : o.Joinable ps) : (o.linkAll ps).Simple ∧
      ∀ i, (o.linkAll ps).linksAt i = o.linksAt i ++ ps.filterMap (linkFor? i) := by
  induction ps generalizing o with
  | nil => exact ⟨h, fun i => (List.append_nil _).symm⟩
  | cons p ps ih =>
    obtain ⟨a, b, cost⟩ := p
    obtain ⟨⟨ha, hb⟩, hin⟩ := List.forall_mem_cons.1 hin
    obtain ⟨hne, hadj, hrest⟩ := (joinable_cons_iff ha hb).1 hjoin
    obtain ⟨hsimple, hlinks⟩ := ih (h.link ha hb hne hadj cost) (by simpa using hin) (hrest hne)
    refine ⟨hsimple, fun i => ?_⟩
    rw [linkAll_cons, hlinks, linksAt_link ha hb hne, List.append_assoc, List.filterMap_cons,
      linkFor?]
    dsimp only
    split_ifs <;> rfl

end

/-! ## Ends, once for each id -/

section
variable {l es : List EdgeEnd} {x : EdgeEnd}

theorem mem_sortedEnds {edges : List Edge} :
    x ∈ sortedEnds edges ↔ ∃ e ∈ edges, x ∈ edgeEnds e := by
  rw [sortedEnds, (List.mergeSort_perm _ _).mem_iff, List.mem_flatMap]

theorem pairwise_sortedEnds (edges : List Edge) :
    (sortedEnds edges).Pairwise fun x y => x.id ≤ y.id := by
  have htrans : ∀ x y z : EdgeEnd, decide (x.id ≤ y.id) = true → decide (y.id ≤ z.id) = true →
      decide (x.id ≤ z.id) = true := by
    simpa using fun x y z : EdgeEnd => @le_trans _ _ x.id y.id z.id
  have htotal : ∀ x y : EdgeEnd, (decide (x.id ≤ y.id) || decide (y.id ≤ x.id)) = true := by
    simpa using fun x y : EdgeEnd => le_total x.id y.id
  exact (List.pairwise_mergeSort htrans htotal _).imp of_decide_eq_true

/-- The first end stays, and the others come from those behind it. -/
theorem oncePerId_cons (x : EdgeEnd) (l : List EdgeEnd) :
    ∃ others, oncePerId (x :: l) = x :: others ∧ others.Sublist l := by
  induction l generalizing x with
  | nil => exact ⟨[], rfl, List.Sublist.refl _⟩
  | cons y l ih =>
    obtain ⟨others, heq, hsub⟩ := ih y
    rw [oncePerId, heq]
    split_ifs
    · exact ⟨others, rfl, hsub.cons y⟩
    · exact ⟨y :: others, rfl, hsub.cons_cons y⟩

theorem increasing_oncePerId (h : l.Pairwise fun x y => x.id ≤ y.id) :
    Increasing (oncePerId l) := by
  induction l with
  | nil => exact List.Pairwise.nil
  | cons x l ih =>
    obtain ⟨hx, hl⟩ := List.pairwise_cons.1 h
    have hrest := ih hl
    cases l with
    | nil => exact List.pairwise_singleton _ _
    | cons y l =>
      obtain ⟨others, heq, -⟩ := oncePerId_cons y l
      rw [heq] at hrest
      obtain ⟨hy, hothers⟩ := List.pairwise_cons.1 hrest
      have hxy := hx y List.mem_cons_self
      rw [oncePerId, heq]
      split_ifs with hid
      · exact List.pairwise_cons.2 ⟨fun z hz => hid ▸ hy z hz, hothers⟩
      · refine List.pairwise_cons.2 ⟨fun z hz => ?_, hrest⟩
        rcases List.mem_cons.1 hz with rfl | hz
        · exact lt_of_le_of_ne hxy hid
        · exact hxy.trans_lt (hy z hz)

theorem mem_of_mem_oncePerId (h : x ∈ oncePerId l) : x ∈ l := by
  cases l with
  | nil => exact h
  | cons y l =>
    obtain ⟨others, heq, hsub⟩ := oncePerId_cons y l
    rw [heq] at h
    exact (hsub.cons_cons y).subset h

/-- Every id stays. -/
theorem exists_mem_oncePerId (h : x ∈ l) : ∃ y ∈ oncePerId l, y.id = x.id := by
  induction l with
  | nil => cases h
  | cons y l ih =>
    cases l with
    | nil =>
      obtain rfl := List.mem_singleton.1 h
      exact ⟨x, List.mem_singleton_self x, rfl⟩
    | cons z l =>
      obtain ⟨others, heq, -⟩ := oncePerId_cons z l
      rw [oncePerId]
      rw [heq] at ih ⊢
      rcases List.mem_cons.1 h with rfl | hx
      · split_ifs
        · exact ⟨x, List.mem_cons_self, rfl⟩
        · exact ⟨x, List.mem_cons_self, rfl⟩
      · obtain ⟨w, hw, hid⟩ := ih hx
        split_ifs with hyz
        · rcases List.mem_cons.1 hw with rfl | hw
          · exact ⟨y, List.mem_cons_self, hyz.trans hid⟩
          · exact ⟨w, List.mem_cons_of_mem _ hw, hid⟩
        · exact ⟨w, List.mem_cons_of_mem _ hw, hid⟩

/-- What repeats the given ends in any numbers gives them back. -/
theorem oncePerId_eq (h : Increasing es) (hsorted : l.Pairwise fun x y => x.id ≤ y.id)
    (hmem : ∀ x, x ∈ l ↔ x ∈ es) : oncePerId l = es := by
  refine (increasing_oncePerId hsorted).eq_of_mem_iff h fun x => ⟨fun hx => ?_, fun hx => ?_⟩
  · exact (hmem x).1 (mem_of_mem_oncePerId hx)
  · obtain ⟨y, hy, hid⟩ := exists_mem_oncePerId ((hmem x).2 hx)
    rwa [← h.id_inj ((hmem y).1 (mem_of_mem_oncePerId hy)) hx hid]

theorem conflict?_eq_none (h : ∀ x ∈ l, ∀ y ∈ l, x.id = y.id → x = y) : conflict? l = none := by
  induction l with
  | nil => rfl
  | cons x l ih =>
    cases l with
    | nil => rfl
    | cons y l =>
      rw [conflict?, if_neg]
      · exact ih fun z hz w hw => h z (List.mem_cons_of_mem _ hz) w (List.mem_cons_of_mem _ hw)
      · rintro ⟨hid, hne⟩
        exact hne (h x List.mem_cons_self y (List.mem_cons_of_mem _ List.mem_cons_self) hid)

end

/-! ## Whatever is returned is ordered -/

section
variable {band : DegreeBand} {es : List EdgeEnd} {ps : Overlay → List (ℕ × ℕ × UInt32)}

/-- An overlay as it is made: links are added to bare vertices, and the degrees checked. -/
def assemble (band : DegreeBand) (es : List EdgeEnd) (ps : Overlay → List (ℕ × ℕ × UInt32)) :
    Except OverlayError Overlay := do
  let bare ← ofVertices? band es
  let linked ← bare.connectAll (ps bare)
  linked.verify
  return linked

theorem ofVertices?_eq_ok_iff : ofVertices? band es = .ok o ↔
    (es.map EdgeEnd.peer).Nodup ∧ o = bare band es := by
  by_cases h : (es.map EdgeEnd.peer).Nodup
  · simp [ofVertices?_eq_ok band h, h, eq_comm]
  · obtain ⟨p, hp, -⟩ := ofVertices?_eq_error band h
    simp [hp, h]

/-- **An assembled overlay** is ordered if its ends are, and its degrees lie in the band. -/
theorem ordered_of_assemble (hincreasing : Increasing es)
    (hin : ∀ p ∈ ps (bare band es), p.1 < es.length ∧ p.2.1 < es.length)
    (h : assemble band es ps = .ok o) :
    o.Ordered ∧ o.band = band ∧ o.ends = es ∧ o.verify = .ok () := by
  obtain ⟨_, hbare, h⟩ := bind_eq_ok.1 h
  obtain ⟨hpeers, rfl⟩ := ofVertices?_eq_ok_iff.1 hbare
  obtain ⟨linked, hlinked, h⟩ := bind_eq_ok.1 h
  obtain ⟨⟨⟩, hverify, h⟩ := bind_eq_ok.1 h
  cases h
  have hin' : ∀ p ∈ ps (bare band es), p.1 < (bare band es).size ∧ p.2.1 < (bare band es).size := by
    simpa using hin
  obtain ⟨hjoin, rfl⟩ := (connectAll_eq_ok_iff (simple_bare band es) hin').1 hlinked
  have hends : ((bare band es).linkAll (ps (bare band es))).ends = es := by
    rw [ends_linkAll, ends_bare]
  refine ⟨⟨((simple_bare band es).linkAll hin' hjoin).1, ?_, ?_⟩, band_linkAll _ _, hends, hverify⟩
  · rwa [hends]
  · rwa [hends]

end

section
variable {band : DegreeBand} {edges : List Edge}

theorem ofEdges_eq_assemble (h : conflict? (sortedEnds edges) = none) :
    ofEdges band edges =
      assemble band (oncePerId (sortedEnds edges)) fun bare => bare.joins edges := by
  rw [ofEdges]
  simp only [h]
  rfl

/-- Every id of an end is found among the ends that are kept. -/
theorem positionOf_lt {e : Edge} {x : EdgeEnd} (he : e ∈ edges) (hx : x ∈ edgeEnds e) :
    (bare band (oncePerId (sortedEnds edges))).positionOf x.id <
      (oncePerId (sortedEnds edges)).length := by
  obtain ⟨y, hy, hid⟩ := exists_mem_oncePerId (mem_sortedEnds.2 ⟨e, he, hx⟩)
  obtain ⟨i, hi⟩ := List.mem_iff_getElem?.1 hy
  have hincreasing := increasing_oncePerId (pairwise_sortedEnds edges)
  rw [← hid, Increasing.positionOf_eq (by rwa [ends_bare]) (by rwa [ends_bare])]
  exact (List.getElem?_eq_some_iff.1 hi).1

theorem ordered_of_ofEdges (h : ofEdges band edges = .ok o) :
    o.Ordered ∧ o.band = band ∧ o.verify = .ok () := by
  cases hconflict : conflict? (sortedEnds edges) with
  | some reason =>
    rw [ofEdges] at h
    simp only [hconflict] at h
    cases h
  | none =>
    rw [ofEdges_eq_assemble hconflict] at h
    have hin : ∀ p ∈ (bare band (oncePerId (sortedEnds edges))).joins edges,
        p.1 < (oncePerId (sortedEnds edges)).length ∧
          p.2.1 < (oncePerId (sortedEnds edges)).length := by
      intro p hp
      obtain ⟨e, he, hp⟩ := List.mem_filterMap.1 hp
      obtain ⟨s, hs, rfl⟩ := Option.map_eq_some_iff.1 hp
      have hsecond : s ∈ edgeEnds e := by simp [edgeEnds, hs]
      exact ⟨positionOf_lt he List.mem_cons_self, positionOf_lt he hsecond⟩
    obtain ⟨hordered, hband, -, hverify⟩ :=
      ordered_of_assemble (increasing_oncePerId (pairwise_sortedEnds edges)) hin h
    exact ⟨hordered, hband, hverify⟩

theorem ordered_of_ofFile {bytes : List UInt8} (h : ofFile bytes = .ok o) :
    o.Ordered ∧ o.verify = .ok () := by
  unfold ofFile at h
  split at h
  · cases h
  · obtain ⟨record, -, h⟩ := bind_eq_ok.1 h
    obtain ⟨band, -, h⟩ := bind_eq_ok.1 h
    obtain ⟨edges, -, h⟩ := bind_eq_ok.1 h
    obtain ⟨hordered, -, hverify⟩ := ordered_of_ofEdges h
    exact ⟨hordered, hverify⟩

theorem ordered_of_retarget {peers : List PeerAddress} (ho : o.Ordered)
    (h : o.retarget peers = .ok o') : o'.Ordered ∧ o'.band = o.band ∧ o'.verify = .ok () := by
  rw [retarget] at h
  split_ifs at h with hlength
  have hends : ((o.vertices.toList.zip peers).map fun v =>
      (⟨v.1.id, v.2, v.1.devices⟩ : EdgeEnd)).map EdgeEnd.id = o.ends.map EdgeEnd.id := by
    have hfst : (o.vertices.toList.zip peers).map Prod.fst = o.vertices.toList :=
      List.map_fst_zip (by rw [Array.length_toList, hlength, size])
    rw [ends, List.map_map, List.map_map]
    conv_rhs => rw [← hfst, List.map_map]
    rfl
  have hlen := congrArg List.length hends
  simp only [List.length_map, length_ends] at hlen
  have hin : ∀ p ∈ o.linksUpward, p.1 < o.size ∧ p.2.1 < o.size := fun p hp =>
    ho.lt_size_of_mem_linksUpward hp
  change assemble o.band _ (fun _ => o.linksUpward) = .ok o' at h
  obtain ⟨hordered, hband, -, hverify⟩ := ordered_of_assemble
    (List.pairwise_map.1 (hends ▸ List.pairwise_map.2 ho.increasing))
    (by rwa [List.length_map, hlen]) h
  exact ⟨hordered, hband, hverify⟩

end

/-! ## Links made one by one -/

/-- Another overlay comes about by one link between two vertices. -/
def LinkStep (o o' : Overlay) : Prop :=
  ∃ a b cost, a < o.size ∧ b < o.size ∧ o.connect a b cost = .ok o'

theorem ends_of_connect (h : o.connect a b cost = .ok o') : o'.ends = o.ends := by
  obtain ⟨-, -, rfl⟩ := connect_eq_ok_iff.1 h
  exact ends_link o a b cost

theorem ends_of_connectAll {ps : List (ℕ × ℕ × UInt32)} (h : o.connectAll ps = .ok o') :
    o'.ends = o.ends := by
  induction ps generalizing o with
  | nil =>
    cases h
    rfl
  | cons p ps ih =>
    rw [connectAll] at h
    split at h
    · next o₁ hfirst => exact (ih h).trans (ends_of_connect hfirst)
    · cases h

theorem ends_of_links (h : ReflTransGen LinkStep o o') : o'.ends = o.ends := by
  induction h with
  | refl => rfl
  | tail _ hstep ih =>
    obtain ⟨a, b, cost, -, -, hok⟩ := hstep
    exact (ends_of_connect hok).trans ih

theorem size_of_ends (h : o'.ends = o.ends) : o'.size = o.size := by
  rw [← length_ends, h, length_ends]

/-- **A link keeps an overlay ordered.** -/
theorem Ordered.connect (h : o.Ordered) (ha : a < o.size) (hb : b < o.size)
    (hok : o.connect a b cost = .ok o') : o'.Ordered ∧ o'.band = o.band := by
  have hends := ends_of_connect hok
  obtain ⟨hne, hconn, rfl⟩ := connect_eq_ok_iff.1 hok
  have hnew : ¬ o.Adj a b := mt h.isConnected_iff.2 (Bool.eq_false_iff.1 hconn)
  exact ⟨⟨h.link ha hb hne hnew cost, hends.symm ▸ h.increasing, hends.symm ▸ h.peers⟩, rfl⟩

theorem Ordered.links (h : o.Ordered) (hlinks : ReflTransGen LinkStep o o') :
    o'.Ordered ∧ o'.band = o.band := by
  induction hlinks with
  | refl => exact ⟨h, rfl⟩
  | tail _ hstep ih =>
    obtain ⟨hordered, hband⟩ := ih
    obtain ⟨a, b, cost, ha, hb, hok⟩ := hstep
    obtain ⟨hordered', hband'⟩ := hordered.connect ha hb hok
    exact ⟨hordered', hband'.trans hband⟩

section
variable {costs : DrawRange} {d d' : Draws}

theorem links_of_connectPairs {pairs : List (ℕ × ℕ)}
    (hin : ∀ p ∈ pairs, p.1 < o.size ∧ p.2 < o.size)
    (h : connectPairs costs pairs o d = .ok (o', d')) : ReflTransGen LinkStep o o' := by
  induction pairs generalizing o d with
  | nil =>
    cases h
    exact .refl
  | cons p pairs ih =>
    obtain ⟨⟨ha, hb⟩, hin⟩ := List.forall_mem_cons.1 hin
    rw [connectPairs] at h
    dsimp only at h
    split at h
    · next o₁ hok =>
      refine .head ⟨_, _, _, ha, hb, hok⟩ (ih ?_ h)
      rwa [size_of_ends (ends_of_connect hok)]
    · cases h

theorem links_of_raiseVertex {tries : ℕ} (ha : a < o.size)
    (h : raiseVertex costs a tries o d = .ok (o', d')) : ReflTransGen LinkStep o o' := by
  induction tries generalizing o d with
  | zero =>
    cases h
    exact .refl
  | succ tries ih =>
    have htarget := Draws.below_lt (Nat.zero_lt_of_lt ha) d
    rw [raiseVertex_succ] at h
    generalize d.below o.size = drawn at htarget h
    obtain ⟨b, d⟩ := drawn
    simp only at h
    split_ifs at h
    · exact ih ha h
    · split at h
      · next o₁ hok =>
        refine .head ⟨_, _, _, ha, htarget, hok⟩ (ih ?_ h)
        rwa [size_of_ends (ends_of_connect hok)]
      · cases h
    · cases h
      exact .refl

theorem links_of_raiseAll {tries : ℕ} {sources : List ℕ} (hin : ∀ a ∈ sources, a < o.size)
    (h : raiseAll costs tries sources o d = .ok (o', d')) : ReflTransGen LinkStep o o' := by
  induction sources generalizing o d with
  | nil =>
    cases h
    exact .refl
  | cons a sources ih =>
    obtain ⟨ha, hin⟩ := List.forall_mem_cons.1 hin
    rw [raiseAll] at h
    split at h
    · next o₁ d₁ hraised =>
      have hlinks := links_of_raiseVertex ha hraised
      exact hlinks.trans (ih (by rwa [size_of_ends (ends_of_links hlinks)]) h)
    · cases h

theorem links_of_attempt (h : attempt costs o d = .ok (o', d')) : ReflTransGen LinkStep o o' := by
  have hring : ∀ p ∈ ringPairs o.size, p.1 < o.size ∧ p.2 < o.size := by
    rintro ⟨a, b⟩ hp
    rw [mem_ringPairs] at hp
    dsimp only
    omega
  rw [attempt] at h
  split at h
  · next ring d₁ hconnected =>
    have hlinks := links_of_connectPairs hring hconnected
    refine hlinks.trans (links_of_raiseAll (fun a ha => ?_) h)
    rw [size_of_ends (ends_of_links hlinks)]
    exact List.mem_range.1 ha
  · cases h

/-- **Attempts only add links** to the vertices that they are given. -/
theorem links_of_attempts {settings : BuildSettings} {left : ℕ}
    (h : attempts settings o left d = .ok (o', d')) :
    ReflTransGen LinkStep o o' ∧ o'.verify = .ok () := by
  induction left generalizing d with
  | zero => cases h
  | succ left ih =>
    rw [attempts] at h
    split at h
    · next o₁ d₁ hattempt =>
      split at h
      · next hverify =>
        cases h
        exact ⟨links_of_attempt hattempt, hverify⟩
      · exact ih h
    · cases h

end

section
variable {band : DegreeBand} {settings : BuildSettings} {peers : List (PeerAddress × UInt32)}
  {d d' : Draws}

theorem increasing_numbered (peers : List (PeerAddress × UInt32)) :
    Increasing (numbered peers) := by
  refine List.pairwise_iff_getElem.2 fun i j hi hj hij => ?_
  simpa [numbered] using hij

theorem ordered_bare {es : List EdgeEnd} (hincreasing : Increasing es)
    (hpeers : (es.map EdgeEnd.peer).Nodup) : (bare band es).Ordered :=
  ⟨simple_bare band es, (ends_bare band es).symm ▸ hincreasing, (ends_bare band es).symm ▸ hpeers⟩

/-- **A construction that succeeds** had a valid request over different peers, and made links
    between the bare vertices. -/
theorem links_of_build (h : build settings peers band d = .ok (o, d')) :
    validate peers.length band = .ok () ∧ ((numbered peers).map EdgeEnd.peer).Nodup ∧
      ReflTransGen LinkStep (bare band (numbered peers)) o ∧ o.verify = .ok () := by
  rw [build] at h
  split at h
  · cases h
  · next hvalid =>
    split_ifs at h
    split at h
    · next _ hbare =>
      obtain ⟨hpeers, rfl⟩ := ofVertices?_eq_ok_iff.1 hbare
      exact ⟨hvalid, hpeers, links_of_attempts h⟩
    · cases h

theorem ordered_of_build (h : build settings peers band d = .ok (o, d')) :
    o.Ordered ∧ o.band = band ∧ o.verify = .ok () := by
  obtain ⟨-, hpeers, hlinks, hverify⟩ := links_of_build h
  obtain ⟨hordered, hband⟩ := (ordered_bare (increasing_numbered peers) hpeers).links hlinks
  exact ⟨hordered, hband, hverify⟩

/-- A built overlay has the peers that it was built over, in their order, and their devices. -/
theorem ends_of_build (h : build settings peers band d = .ok (o, d')) :
    o.ends = numbered peers := by
  obtain ⟨-, -, hlinks, -⟩ := links_of_build h
  rw [ends_of_links hlinks, ends_bare]

end

end OverlayCensus.Overlay
