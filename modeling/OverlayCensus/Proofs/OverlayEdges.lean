/-
  OverlayCensus — which edge lists describe an overlay.

  An edge list describes an overlay if its edges say the same of every id, different ids have
  different peers, the links make up a graph, and all degrees lie in the band (`Consistent`).
  These are checked one after another, on the sorted ends and on positions instead of ids.

  * `conflict?_sortedEnds_eq_none_iff`: sorted ends bring conflicts next to each other;
  * `positionOf_eq_iff`: positions tell ids apart;
  * `ofEdges_eq_ok_iff`: the checks pass for consistent edge lists and for no others;
  * `ofEdges_spec`: and the overlay has the vertices and the edges of the list.
-/
import Mathlib
import OverlayCensus.Proofs.OverlayOrder

namespace OverlayCensus

/-- The ids that an edge with two ends joins, in no order. -/
def Edge.joined? (e : Edge) : Option (Sym2 ℕ) :=
  e.second.map fun y => s(e.first.id, y.id)

/-- An edge with two ends, the lower id first. -/
def Edge.upward? (e : Edge) : Option Edge :=
  e.second.map fun y => if e.first.id < y.id then e else ⟨y, some e.first, e.cost⟩

namespace Overlay

/-! ## Consistent edge lists -/

/-- All ends of an edge list. -/
def endsOf (es : List Edge) : List EdgeEnd :=
  es.flatMap edgeEnds

/-- The pairs of ids that an edge list joins. -/
def joinedIds (es : List Edge) : List (Sym2 ℕ) :=
  es.filterMap Edge.joined?

/-- Edges that agree with each other and with a degree band. -/
structure Consistent (band : DegreeBand) (es : List Edge) : Prop where
  /-- An id is the same peer with the same devices everywhere. -/
  agree : ∀ x ∈ endsOf es, ∀ y ∈ endsOf es, x.id = y.id → x.peer = y.peer ∧ x.devices = y.devices
  distinct : ∀ x ∈ endsOf es, ∀ y ∈ endsOf es, x.id ≠ y.id → x.peer ≠ y.peer
  irrefl : ∀ z ∈ joinedIds es, ¬ z.IsDiag
  once : (joinedIds es).Nodup
  degrees : ∀ x ∈ endsOf es, band.min ≤ (joinedIds es).countP (x.id ∈ ·) ∧
    (joinedIds es).countP (x.id ∈ ·) ≤ band.max

/-- The overlay that an edge list describes: one vertex for each id, in the order of the ids,
    and the edges of the list that have two ends. -/
structure Describes (band : DegreeBand) (es : List Edge) (o : Overlay) : Prop where
  band_eq : o.band = band
  increasing : Increasing o.ends
  mem_ends_iff : ∀ x, x ∈ o.ends ↔ x ∈ endsOf es
  edges_perm : o.edges.Perm (es.filterMap Edge.upward?)

variable {band : DegreeBand} {es : List Edge} {o : Overlay} {x y : EdgeEnd} {e : Edge}

theorem mem_endsOf : x ∈ endsOf es ↔ ∃ e ∈ es, x ∈ edgeEnds e :=
  List.mem_flatMap

theorem mem_sortedEnds_iff : x ∈ sortedEnds es ↔ x ∈ endsOf es := by
  rw [mem_sortedEnds, mem_endsOf]

theorem first_mem_endsOf (he : e ∈ es) : e.first ∈ endsOf es :=
  mem_endsOf.2 ⟨e, he, List.mem_cons_self⟩

theorem second_mem_endsOf (he : e ∈ es) (hy : y ∈ e.second) : y ∈ endsOf es :=
  mem_endsOf.2 ⟨e, he, List.mem_cons_of_mem _ (Option.mem_toList.2 hy)⟩

/-! ## Ends that agree -/

/-- Ends with one id are the same. -/
def Agree (l : List EdgeEnd) : Prop :=
  ∀ x ∈ l, ∀ y ∈ l, x.id = y.id → x = y

theorem agree_iff {l : List EdgeEnd} : Agree l ↔
    ∀ x ∈ l, ∀ y ∈ l, x.id = y.id → x.peer = y.peer ∧ x.devices = y.devices := by
  refine forall₂_congr fun x _ => forall₂_congr fun y _ => forall_congr' fun hid => ?_
  rw [EdgeEnd.mk.injEq x.id x.peer x.devices y.id y.peer y.devices]
  exact and_iff_right hid

/-- **In sorted ends, conflicts stand next to each other.** -/
theorem agree_of_conflict?_eq_none {l : List EdgeEnd}
    (hsorted : l.Pairwise fun x y => x.id ≤ y.id) (h : conflict? l = none) : Agree l := by
  induction l with
  | nil => exact fun x hx => nomatch hx
  | cons a l ih =>
    cases l with
    | nil =>
      intro x hx y hy _
      rw [List.mem_singleton.1 hx, List.mem_singleton.1 hy]
    | cons b l =>
      obtain ⟨ha, hsorted⟩ := List.pairwise_cons.1 hsorted
      rw [conflict?] at h
      split_ifs at h with hab
      have ih := ih hsorted h
      -- an end with the id of the first one has the second one's, which lies between them
      have hfirst : ∀ y ∈ b :: l, a.id = y.id → a = y := by
        intro y hy hid
        have hb : b.id ≤ y.id := by
          rcases List.mem_cons.1 hy with rfl | hy
          · exact le_rfl
          · exact (List.pairwise_cons.1 hsorted).1 y hy
        have hle : a.id = b.id := le_antisymm (ha b List.mem_cons_self) (hid ▸ hb)
        have hsame : a = b := by
          by_contra hne
          exact hab ⟨hle, hne⟩
        rw [hsame]
        exact ih b List.mem_cons_self y hy (hle ▸ hid)
      intro x hx y hy hid
      rcases List.mem_cons.1 hx with rfl | hx'
      · rcases List.mem_cons.1 hy with rfl | hy'
        · rfl
        · exact hfirst y hy' hid
      · rcases List.mem_cons.1 hy with rfl | hy'
        · exact (hfirst x hx' hid.symm).symm
        · exact ih x hx' y hy' hid

theorem conflict?_sortedEnds_eq_none_iff :
    conflict? (sortedEnds es) = none ↔ Agree (endsOf es) := by
  have hmem : Agree (sortedEnds es) ↔ Agree (endsOf es) := by
    simp only [Agree, mem_sortedEnds_iff]
  rw [← hmem]
  exact ⟨agree_of_conflict?_eq_none (pairwise_sortedEnds es), conflict?_eq_none⟩

/-- The ends that are kept are all ends, if those of one id agree. -/
theorem mem_oncePerId_iff (hagree : Agree (endsOf es)) :
    x ∈ oncePerId (sortedEnds es) ↔ x ∈ endsOf es := by
  refine ⟨fun hx => mem_sortedEnds_iff.1 (mem_of_mem_oncePerId hx), fun hx => ?_⟩
  obtain ⟨y, hy, hid⟩ := exists_mem_oncePerId (mem_sortedEnds_iff.2 hx)
  rwa [← hagree y (mem_sortedEnds_iff.1 (mem_of_mem_oncePerId hy)) x hx hid]

/-- The peers of the ends that are kept differ if different ids have different peers. -/
theorem nodup_peers_iff (hagree : Agree (endsOf es)) :
    ((oncePerId (sortedEnds es)).map EdgeEnd.peer).Nodup ↔
      ∀ x ∈ endsOf es, ∀ y ∈ endsOf es, x.id ≠ y.id → x.peer ≠ y.peer := by
  have hincreasing := increasing_oncePerId (pairwise_sortedEnds es)
  have hnodup : (oncePerId (sortedEnds es)).Nodup :=
    hincreasing.imp fun hlt => ne_of_apply_ne EdgeEnd.id (ne_of_lt hlt)
  simp only [List.nodup_map_iff_inj_on hnodup, mem_oncePerId_iff hagree]
  refine forall₂_congr fun x hx => forall₂_congr fun y hy => ?_
  constructor
  · intro hinj hid hpeer
    exact hid (congrArg EdgeEnd.id (hinj hpeer))
  · intro hdistinct hpeer
    refine hagree x hx y hy ?_
    by_contra hid
    exact hdistinct hid hpeer

/-! ## Positions instead of ids -/

/-- The vertices of an edge list without links. -/
def bareOf (band : DegreeBand) (es : List Edge) : Overlay :=
  bare band (oncePerId (sortedEnds es))

theorem ends_bareOf (band : DegreeBand) (es : List Edge) :
    (bareOf band es).ends = oncePerId (sortedEnds es) :=
  ends_bare _ _

theorem simple_bareOf (band : DegreeBand) (es : List Edge) : (bareOf band es).Simple :=
  simple_bare _ _

theorem increasing_bareOf (band : DegreeBand) (es : List Edge) :
    Increasing (bareOf band es).ends := by
  rw [ends_bareOf]
  exact increasing_oncePerId (pairwise_sortedEnds es)

/-- An id stands at its position. -/
theorem getElem?_positionOf (band : DegreeBand) (hx : x ∈ endsOf es) :
    ∃ y, (bareOf band es).ends[(bareOf band es).positionOf x.id]? = some y ∧ y.id = x.id := by
  obtain ⟨y, hy, hid⟩ := exists_mem_oncePerId (mem_sortedEnds_iff.2 hx)
  obtain ⟨i, hi⟩ := List.mem_iff_getElem?.1 hy
  rw [← ends_bareOf band es] at hi
  refine ⟨y, ?_, hid⟩
  rw [← hid, (increasing_bareOf band es).positionOf_eq hi, hi]

/-- An end stands at the position of its id, if the ends agree. -/
theorem getElem?_positionOf_eq (band : DegreeBand) (hagree : Agree (endsOf es)) (hx : x ∈ endsOf es) :
    (bareOf band es).ends[(bareOf band es).positionOf x.id]? = some x := by
  obtain ⟨y, hy, hid⟩ := getElem?_positionOf band hx
  have hmem : y ∈ endsOf es := by
    rw [← mem_oncePerId_iff hagree, ← ends_bareOf band es]
    exact List.mem_of_getElem? hy
  rw [hy, hagree y hmem x hx hid]

/-- **Positions tell ids apart.** -/
theorem positionOf_eq_iff (band : DegreeBand) (hx : x ∈ endsOf es) (hy : y ∈ endsOf es) :
    (bareOf band es).positionOf x.id = (bareOf band es).positionOf y.id ↔ x.id = y.id := by
  refine ⟨fun heq => ?_, congrArg _⟩
  obtain ⟨x', hx', hid⟩ := getElem?_positionOf band hx
  obtain ⟨y', hy', hid'⟩ := getElem?_positionOf band hy
  rw [heq, hy', Option.some.injEq] at hx'
  rw [← hid, ← hid', hx']

theorem mem_joins {p : ℕ × ℕ × UInt32} : p ∈ (bareOf band es).joins es ↔
    ∃ e ∈ es, ∃ y ∈ e.second,
      ((bareOf band es).positionOf e.first.id, (bareOf band es).positionOf y.id, e.cost) = p := by
  simp only [joins, List.mem_filterMap, Option.map_eq_some_iff, Option.mem_def]

theorem mem_joinedIds {z : Sym2 ℕ} :
    z ∈ joinedIds es ↔ ∃ e ∈ es, ∃ y ∈ e.second, s(e.first.id, y.id) = z := by
  simp only [joinedIds, Edge.joined?, List.mem_filterMap, Option.map_eq_some_iff, Option.mem_def]

theorem lt_size_of_mem_joins {p : ℕ × ℕ × UInt32} (hp : p ∈ (bareOf band es).joins es) :
    p.1 < (bareOf band es).size ∧ p.2.1 < (bareOf band es).size := by
  obtain ⟨e, he, y, hy, rfl⟩ := mem_joins.1 hp
  rw [bareOf, size_bare]
  exact ⟨positionOf_lt he List.mem_cons_self,
    positionOf_lt he (List.mem_cons_of_mem _ (Option.mem_toList.2 hy))⟩

/-- **The links can be added** if no id is joined to itself and no two ids are joined twice. -/
theorem joinable_bareOf_iff (band : DegreeBand) (es : List Edge) :
    (bareOf band es).Joinable ((bareOf band es).joins es) ↔
      (∀ z ∈ joinedIds es, ¬ z.IsDiag) ∧ (joinedIds es).Nodup := by
  have hirrefl : (∀ p ∈ (bareOf band es).joins es, p.1 ≠ p.2.1) ↔
      ∀ z ∈ joinedIds es, ¬ z.IsDiag := by
    constructor
    · intro h z hz
      obtain ⟨e, he, y, hy, rfl⟩ := mem_joinedIds.1 hz
      exact fun hid => h _ (mem_joins.2 ⟨e, he, y, hy, rfl⟩)
        (congrArg (bareOf band es).positionOf (Sym2.mk_isDiag_iff.1 hid))
    · intro h p hp heq
      obtain ⟨e, he, y, hy, rfl⟩ := mem_joins.1 hp
      exact h _ (mem_joinedIds.2 ⟨e, he, y, hy, rfl⟩) (Sym2.mk_isDiag_iff.2
        ((positionOf_eq_iff band (first_mem_endsOf he) (second_mem_endsOf he hy)).1 heq))
  have honce : (((bareOf band es).joins es).map fun p => s(p.1, p.2.1)).Nodup ↔
      (joinedIds es).Nodup := by
    rw [joins, joinedIds, List.map_filterMap]
    simp only [List.Nodup, List.pairwise_filterMap]
    refine List.Pairwise.iff_of_mem fun {e e'} he he' => ?_
    cases hy : e.second with
    | none => simp [Edge.joined?, hy]
    | some y =>
      cases hy' : e'.second with
      | none => simp [Edge.joined?, hy']
      | some y' =>
        have hx := first_mem_endsOf he
        have hx' := first_mem_endsOf he'
        have hmem := second_mem_endsOf he hy
        have hmem' := second_mem_endsOf he' hy'
        simp [Edge.joined?, hy, hy', positionOf_eq_iff band hx hx', positionOf_eq_iff band hx hmem',
          positionOf_eq_iff band hmem hx', positionOf_eq_iff band hmem hmem']
  rw [← hirrefl, ← honce]
  exact ⟨fun h => ⟨h.irrefl, h.once⟩, fun h => ⟨h.1, fun p _ => not_adj_bare _ _ _ _, h.2⟩⟩

/-- **A degree is the number of edges** at an id. -/
theorem length_linksFor (hx : x ∈ endsOf es) :
    (((bareOf band es).joins es).filterMap
        (linkFor? ((bareOf band es).positionOf x.id))).length =
      (joinedIds es).countP (x.id ∈ ·) := by
  rw [List.length_filterMap_eq_countP, joins, joinedIds, List.countP_filterMap, List.countP_filterMap]
  refine List.countP_congr fun e he => ?_
  cases hy : e.second with
  | none => simp [Edge.joined?, hy]
  | some y =>
    have hfirst := positionOf_eq_iff band hx (first_mem_endsOf he)
    have hsecond := positionOf_eq_iff band hx (second_mem_endsOf he hy)
    simp only [Option.map_some, Edge.joined?, hy, linkFor?, hfirst, hsecond, Option.getD_some,
      Sym2.mem_iff, decide_eq_true_eq]
    split_ifs with h₁ h₂ <;> simp [*]

/-! ## Which edge lists are accepted -/

/-- The links of a vertex are those of the edges at its position. -/
theorem linksAt_linkAll_bareOf (h : (bareOf band es).Joinable ((bareOf band es).joins es)) (i : ℕ) :
    ((bareOf band es).linkAll ((bareOf band es).joins es)).linksAt i =
      ((bareOf band es).joins es).filterMap (linkFor? i) := by
  have hbare : (bareOf band es).linksAt i = [] := linksAt_bare _ _ i
  rw [((simple_bareOf band es).linkAll (fun _ hp => lt_size_of_mem_joins hp) h).2, hbare,
    List.nil_append]

/-- **The degrees are checked** of all ids that occur. -/
theorem verify_linkAll_iff (hagree : Agree (endsOf es))
    (h : (bareOf band es).Joinable ((bareOf band es).joins es)) :
    ((bareOf band es).linkAll ((bareOf band es).joins es)).verify = .ok () ↔
      ∀ x ∈ endsOf es, band.min ≤ (joinedIds es).countP (x.id ∈ ·) ∧
        (joinedIds es).countP (x.id ∈ ·) ≤ band.max := by
  have hband : ((bareOf band es).linkAll ((bareOf band es).joins es)).band = band :=
    band_linkAll _ _
  have hends := ends_linkAll (bareOf band es) ((bareOf band es).joins es)
  rw [verify_eq_ok_iff, hband]
  simp only [degreeAt, linksAt_linkAll_bareOf h, ← length_ends, hends]
  constructor
  · intro hall x hx
    rw [← length_linksFor hx]
    exact hall _ (List.getElem?_eq_some_iff.1 (getElem?_positionOf_eq band hagree hx)).1
  · intro hall i hi
    obtain ⟨x, hx⟩ : ∃ x, (bareOf band es).ends[i]? = some x := ⟨_, List.getElem?_eq_getElem hi⟩
    have hmem := List.mem_of_getElem? hx
    rw [ends_bareOf, mem_oncePerId_iff hagree] at hmem
    rw [← (increasing_bareOf band es).positionOf_eq hx, length_linksFor hmem]
    exact hall _ hmem

/-- **Edge lists are accepted if they are consistent**, and only then. -/
theorem ofEdges_eq_ok_iff : ofEdges band es = .ok o ↔
    Consistent band es ∧ o = (bareOf band es).linkAll ((bareOf band es).joins es) := by
  cases hconflict : conflict? (sortedEnds es) with
  | some reason =>
    rw [ofEdges]
    simp only [hconflict]
    constructor
    · intro h
      cases h
    · rintro ⟨hconsistent, -⟩
      rw [conflict?_sortedEnds_eq_none_iff.2 (agree_iff.2 hconsistent.agree)] at hconflict
      cases hconflict
  | none =>
    have hagree := conflict?_sortedEnds_eq_none_iff.1 hconflict
    rw [ofEdges_eq_assemble hconflict]
    constructor
    · intro h
      obtain ⟨_, hbare, h⟩ := bind_eq_ok.1 h
      obtain ⟨hpeers, rfl⟩ := ofVertices?_eq_ok_iff.1 hbare
      obtain ⟨linked, hlinked, h⟩ := bind_eq_ok.1 h
      obtain ⟨⟨⟩, hverify, h⟩ := bind_eq_ok.1 h
      cases h
      obtain ⟨hjoin, rfl⟩ := (connectAll_eq_ok_iff (simple_bareOf band es)
        fun _ hp => lt_size_of_mem_joins hp).1 hlinked
      obtain ⟨hirrefl, honce⟩ := (joinable_bareOf_iff band es).1 hjoin
      exact ⟨⟨agree_iff.1 hagree, (nodup_peers_iff hagree).1 hpeers, hirrefl, honce,
        (verify_linkAll_iff hagree hjoin).1 hverify⟩, rfl⟩
    · rintro ⟨h, rfl⟩
      have hjoin := (joinable_bareOf_iff band es).2 ⟨h.irrefl, h.once⟩
      refine bind_eq_ok.2 ⟨_, ofVertices?_eq_ok_iff.2 ⟨(nodup_peers_iff hagree).2 h.distinct, rfl⟩,
        bind_eq_ok.2 ⟨_, ?_, bind_eq_ok.2 ⟨(), (verify_linkAll_iff hagree hjoin).2 h.degrees, rfl⟩⟩⟩
      exact (connectAll_eq_ok_iff (simple_bareOf band es) fun _ hp => lt_size_of_mem_joins hp).2
        ⟨hjoin, rfl⟩

/-! ## What is returned -/

/-- **The edges that come out** are those that were put in, the lower id first. -/
theorem mem_edges_linkAll (h : Consistent band es) (e : Edge) :
    e ∈ ((bareOf band es).linkAll ((bareOf band es).joins es)).edges ↔
      e ∈ es.filterMap Edge.upward? := by
  have hagree := agree_iff.2 h.agree
  have hjoin := (joinable_bareOf_iff band es).2 ⟨h.irrefl, h.once⟩
  have hincreasing := increasing_bareOf band es
  rw [(ordered_of_ofEdges (ofEdges_eq_ok_iff.2 ⟨h, rfl⟩)).1.mem_edges_iff]
  simp only [linksAt_linkAll_bareOf hjoin, ends_linkAll, List.mem_filterMap, mem_joins]
  constructor
  · rintro ⟨a, b, cost, x, y, hab, ⟨_, ⟨e', he', s, hs, rfl⟩, hl⟩, hx, hy, rfl⟩
    have hfirst := getElem?_positionOf_eq band hagree (first_mem_endsOf he')
    have hsecond := getElem?_positionOf_eq band hagree (second_mem_endsOf he' hs)
    have hid := (hincreasing.id_lt_iff hx hy).2 hab
    refine ⟨e', he', ?_⟩
    rw [Edge.upward?, hs, Option.map_some]
    -- the link is seen from its lower end, which is the first or the second end of the edge
    rw [linkFor?] at hl
    split_ifs at hl with ha hb
    · obtain ⟨rfl, rfl⟩ := Link.mk.inj (Option.some.inj hl)
      obtain rfl := Option.some.inj (hfirst.symm.trans (ha ▸ hx))
      obtain rfl := Option.some.inj (hsecond.symm.trans hy)
      rw [if_pos hid, ← Option.mem_def.1 hs]
    · obtain ⟨rfl, rfl⟩ := Link.mk.inj (Option.some.inj hl)
      obtain rfl := Option.some.inj (hsecond.symm.trans (hb ▸ hx))
      obtain rfl := Option.some.inj (hfirst.symm.trans hy)
      rw [if_neg hid.asymm]
  · rintro ⟨e', he', hup⟩
    obtain ⟨s, hs, rfl⟩ := Option.map_eq_some_iff.1 hup
    have hfirst := getElem?_positionOf_eq band hagree (first_mem_endsOf he')
    have hsecond := getElem?_positionOf_eq band hagree (second_mem_endsOf he' hs)
    split_ifs with hid
    · refine ⟨_, _, _, e'.first, s, (hincreasing.id_lt_iff hfirst hsecond).1 hid,
        ⟨_, ⟨e', he', s, hs, rfl⟩, if_pos rfl⟩, hfirst, hsecond, ?_⟩
      rw [← Option.mem_def.1 hs]
    · have hne : e'.first.id ≠ s.id := fun heq =>
        h.irrefl _ (mem_joinedIds.2 ⟨e', he', s, hs, rfl⟩) (Sym2.mk_isDiag_iff.2 heq)
      have hlt := (hincreasing.id_lt_iff hsecond hfirst).1 (lt_of_le_of_ne (not_lt.1 hid) hne.symm)
      refine ⟨_, _, _, s, e'.first, hlt, ⟨_, ⟨e', he', s, hs, rfl⟩, ?_⟩, hsecond, hfirst, rfl⟩
      rw [linkFor?, if_neg hlt.ne, if_pos rfl]

/-- An edge joins the same ids when its lower id comes first. -/
theorem joined?_of_upward {e' : Edge} (h : e.upward? = some e') : e'.joined? = e.joined? := by
  obtain ⟨y, hy, rfl⟩ := Option.map_eq_some_iff.1 h
  split_ifs
  · rfl
  · rw [Edge.joined?, Edge.joined?, hy, Option.map_some, Option.map_some, Sym2.eq_swap]

theorem nodup_upward_edges (h : (joinedIds es).Nodup) : (es.filterMap Edge.upward?).Nodup := by
  rw [joinedIds] at h
  simp only [List.Nodup, List.pairwise_filterMap] at h ⊢
  refine h.imp fun {e e'} hne u hu u' hu' => ?_
  rintro rfl
  obtain ⟨y, hy, -⟩ := Option.map_eq_some_iff.1 hu
  have hjoined : e.joined? = some s(e.first.id, y.id) := by rw [Edge.joined?, hy, Option.map_some]
  exact hne _ hjoined _ ((joined?_of_upward hu').symm.trans ((joined?_of_upward hu).trans hjoined))
    rfl

/-- **The consistent edge lists are accepted, and no others**; and then the overlay has one
    vertex for each id that occurs, in the order of the ids and with the peer and the devices
    that the list gives it, and the edges are those of the list that have two ends, the lower
    id first. -/
theorem ofEdges_spec (band : DegreeBand) (es : List Edge) :
    ((∃ o, ofEdges band es = .ok o) ↔ Consistent band es) ∧
      ∀ o, ofEdges band es = .ok o → Describes band es o := by
  refine ⟨⟨?_, fun h => ⟨_, ofEdges_eq_ok_iff.2 ⟨h, rfl⟩⟩⟩, fun o ho => ?_⟩
  · rintro ⟨o, ho⟩
    exact (ofEdges_eq_ok_iff.1 ho).1
  · obtain ⟨hordered, hband, -⟩ := ordered_of_ofEdges ho
    obtain ⟨h, rfl⟩ := ofEdges_eq_ok_iff.1 ho
    refine ⟨hband, hordered.increasing, fun x => ?_, ?_⟩
    · rw [ends_linkAll, ends_bareOf, mem_oncePerId_iff (agree_iff.2 h.agree)]
    · exact (List.perm_ext_iff_of_nodup hordered.nodup_edges (nodup_upward_edges h.once)).2
        (mem_edges_linkAll h)

namespace Sample

/-- Three peers in a row, with the edges turned and out of order. -/
def turned : List Edge :=
  [⟨⟨7, ⟨"b", 1⟩, 2⟩, some ⟨3, ⟨"c", 1⟩, 0⟩, 5⟩, ⟨⟨9, ⟨"a", 1⟩, 4⟩, none, 0⟩,
    ⟨⟨7, ⟨"b", 1⟩, 2⟩, some ⟨9, ⟨"a", 1⟩, 4⟩, 1⟩]

/-- An edge list that is accepted. -/
theorem ofEdges_spec_turned :
    ∃ o, ofEdges ⟨1, 2⟩ turned = .ok o ∧ Consistent ⟨1, 2⟩ turned ∧ Describes ⟨1, 2⟩ turned o := by
  have hconsistent : Consistent ⟨1, 2⟩ turned :=
    ⟨by decide +kernel, by decide +kernel, by decide +kernel, by decide +kernel, by decide +kernel⟩
  obtain ⟨o, ho⟩ := (ofEdges_spec ⟨1, 2⟩ turned).1.2 hconsistent
  exact ⟨o, ho, hconsistent, (ofEdges_spec ⟨1, 2⟩ turned).2 o ho⟩

end Sample

end Overlay

end OverlayCensus
