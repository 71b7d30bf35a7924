/-
  OverlayCensus — overlays as graphs.

  `Adj` is the relation of being linked, `Simple` says that links make up a graph: they go
  both ways at one cost, none leads back to its own vertex, and no two lead to one vertex.

  * `ofVertices?_eq_ok`, `simple_bare`: vertices without links, to begin with;
  * `connect_eq_ok_iff`: when two vertices are linked;
  * `linksAt_link`, `adj_link`, `degreeAt_link`, `ends_link`: the overlay with one link more;
  * `Simple.link`: it is simple again.
-/
import Mathlib
import OverlayCensus.Overlay.Basic

namespace OverlayCensus.Overlay

variable {o o' : Overlay} {a b i j : ℕ} {cost c : UInt32}

/-! ## Links -/

/-- The positions to which a vertex is linked. -/
def targetsAt (o : Overlay) (a : ℕ) : List ℕ :=
  (o.linksAt a).map Link.target

/-- The second position is among those to which the first one is linked. -/
def Adj (o : Overlay) (a b : ℕ) : Prop :=
  b ∈ o.targetsAt a

/-- The vertices without their links. -/
def ends (o : Overlay) : List EdgeEnd :=
  o.vertices.toList.map Vertex.toEnd

/-- Links make up a graph in which each link has one cost. -/
structure Simple (o : Overlay) : Prop where
  symm : ∀ a b cost, ⟨b, cost⟩ ∈ o.linksAt a → ⟨a, cost⟩ ∈ o.linksAt b
  irrefl : ∀ a, ¬ o.Adj a a
  nodup : ∀ a, (o.targetsAt a).Nodup

theorem linksAt_of_le (h : o.size ≤ a) : o.linksAt a = [] := by
  rw [linksAt, Array.getElem?_eq_none h]

theorem adj_iff : o.Adj a b ↔ ∃ cost, ⟨b, cost⟩ ∈ o.linksAt a := by
  constructor
  · intro h
    obtain ⟨⟨b, cost⟩, hl, rfl⟩ := List.mem_map.1 h
    exact ⟨cost, hl⟩
  · exact fun ⟨cost, hl⟩ => List.mem_map.2 ⟨⟨b, cost⟩, hl, rfl⟩

theorem Adj.lt_size (h : o.Adj a b) : a < o.size := by
  by_contra hle
  rw [Adj, targetsAt, linksAt_of_le (not_lt.1 hle)] at h
  cases h

theorem length_targetsAt (o : Overlay) (a : ℕ) : (o.targetsAt a).length = o.degreeAt a :=
  List.length_map ..

theorem isSome_costTo?_iff : (o.costTo? a b).isSome ↔ o.Adj a b := by
  simp only [costTo?, Adj, targetsAt, linksAt]
  cases o.vertices[a]? with
  | none => simp
  | some v => simp [Vertex.costTo?]

theorem isConnected_iff : o.isConnected a b = true ↔ o.Adj a b ∨ o.Adj b a := by
  rw [isConnected, Bool.or_eq_true, isSome_costTo?_iff, isSome_costTo?_iff]

theorem getElem?_ends (o : Overlay) (i : ℕ) :
    o.ends[i]? = o.vertices[i]?.map Vertex.toEnd := by
  rw [ends, List.getElem?_map, Array.getElem?_toList]

theorem length_ends (o : Overlay) : o.ends.length = o.size := by
  rw [ends, List.length_map, Array.length_toList, size]

namespace Simple

theorem adj_symm (h : o.Simple) (hab : o.Adj a b) : o.Adj b a := by
  obtain ⟨cost, hl⟩ := adj_iff.1 hab
  exact adj_iff.2 ⟨cost, h.symm a b cost hl⟩

theorem lt_size (h : o.Simple) (hab : o.Adj a b) : b < o.size :=
  (h.adj_symm hab).lt_size

theorem isConnected_iff (h : o.Simple) : o.isConnected a b = true ↔ o.Adj a b := by
  rw [Overlay.isConnected_iff]
  exact ⟨fun hab => hab.elim id h.adj_symm, Or.inl⟩

/-- The degree is at most the size of any set that holds all linked positions. -/
theorem degreeAt_le (h : o.Simple) {s : Finset ℕ} (hs : ∀ b, o.Adj a b → b ∈ s) :
    o.degreeAt a ≤ s.card := by
  rw [← length_targetsAt, ← List.toFinset_card_of_nodup (h.nodup a)]
  exact Finset.card_le_card fun b hb => hs b (List.mem_toFinset.1 hb)

end Simple

/-! ## No links -/

theorem firstRepeatFrom_eq_none_iff {seen : Std.HashSet PeerAddress} {as : List PeerAddress} :
    PeerAddress.firstRepeatFrom seen as = none ↔ as.Nodup ∧ ∀ p ∈ as, p ∉ seen := by
  induction as generalizing seen with
  | nil => simp [PeerAddress.firstRepeatFrom]
  | cons a as ih =>
    rw [PeerAddress.firstRepeatFrom, List.nodup_cons, List.forall_mem_cons]
    split_ifs with ha
    · simp [ha]
    · simp only [ih, Std.HashSet.mem_insert, not_or, forall_and, beq_iff_eq, ha, not_false_eq_true,
        true_and]
      have hnot : (∀ p ∈ as, ¬ a = p) ↔ a ∉ as :=
        ⟨fun h hmem => h a hmem rfl, fun h p hp hap => h (hap ▸ hp)⟩
      rw [hnot, and_left_comm, and_assoc]

theorem duplicate_of_firstRepeatFrom {seen : Std.HashSet PeerAddress} {as : List PeerAddress}
    {p : PeerAddress} (h : PeerAddress.firstRepeatFrom seen as = some p) :
    p ∈ seen ∧ p ∈ as ∨ List.Duplicate p as := by
  induction as generalizing seen with
  | nil => cases h
  | cons a as ih =>
    rw [PeerAddress.firstRepeatFrom] at h
    split_ifs at h with ha
    · obtain rfl := Option.some.inj h
      exact Or.inl ⟨ha, List.mem_cons_self⟩
    · rcases ih h with ⟨hseen, hp⟩ | hdup
      · rcases Std.HashSet.mem_insert.1 hseen with hap | hseen
        · rw [← beq_iff_eq.1 hap] at hp ⊢
          exact Or.inr (List.Duplicate.cons_mem hp)
        · exact Or.inl ⟨hseen, List.mem_cons_of_mem _ hp⟩
      · exact Or.inr (hdup.duplicate_cons a)

/-- The overlay of the given vertices without any link. -/
def bare (band : DegreeBand) (es : List EdgeEnd) : Overlay :=
  ⟨band, (es.map EdgeEnd.isolated).toArray⟩

section
variable {band : DegreeBand} {es : List EdgeEnd}

/-- Vertices of different peers are accepted. -/
theorem ofVertices?_eq_ok (band : DegreeBand) (h : (es.map EdgeEnd.peer).Nodup) :
    ofVertices? band es = .ok (bare band es) := by
  have hnone : PeerAddress.firstRepeat (es.map EdgeEnd.peer) = none :=
    firstRepeatFrom_eq_none_iff.2 ⟨h, fun p _ => Std.HashSet.not_mem_empty⟩
  rw [ofVertices?, hnone]
  rfl

/-- Of a peer that is given twice, the refusal tells. -/
theorem ofVertices?_eq_error (band : DegreeBand) (h : ¬ (es.map EdgeEnd.peer).Nodup) :
    ∃ p, ofVertices? band es = .error (.invalidRequest (.repeatedPeer p)) ∧
      List.Duplicate p (es.map EdgeEnd.peer) := by
  cases hp : PeerAddress.firstRepeat (es.map EdgeEnd.peer) with
  | none => exact absurd (firstRepeatFrom_eq_none_iff.1 hp).1 h
  | some p =>
    refine ⟨p, by rw [ofVertices?, hp], ?_⟩
    exact (duplicate_of_firstRepeatFrom hp).resolve_left fun hseen =>
      Std.HashSet.not_mem_empty hseen.1

theorem linksAt_bare (band : DegreeBand) (es : List EdgeEnd) (a : ℕ) :
    (bare band es).linksAt a = [] := by
  simp only [linksAt, bare, List.getElem?_toArray, List.getElem?_map]
  cases es[a]? <;> rfl

theorem not_adj_bare (band : DegreeBand) (es : List EdgeEnd) (a b : ℕ) :
    ¬ (bare band es).Adj a b := by
  rw [Adj, targetsAt, linksAt_bare]
  exact List.not_mem_nil

theorem simple_bare (band : DegreeBand) (es : List EdgeEnd) : (bare band es).Simple := by
  refine ⟨fun a b cost hl => ?_, fun a => not_adj_bare band es a a, fun a => ?_⟩
  · rw [linksAt_bare] at hl
    cases hl
  · rw [targetsAt, linksAt_bare]
    exact List.nodup_nil

@[simp] theorem ends_bare (band : DegreeBand) (es : List EdgeEnd) : (bare band es).ends = es := by
  simp only [ends, bare, List.map_map]
  exact List.map_id' es

@[simp] theorem size_bare (band : DegreeBand) (es : List EdgeEnd) :
    (bare band es).size = es.length := by
  simp [bare, size]

end

/-! ## One link more -/

/-- The overlay with a link between two positions. -/
def link (o : Overlay) (a b : ℕ) (cost : UInt32) : Overlay :=
  { o with vertices :=
      (o.vertices.modify a fun v => v.addLink b cost).modify b fun v => v.addLink a cost }

theorem connect_eq_ok_iff : o.connect a b cost = .ok o' ↔
    a ≠ b ∧ o.isConnected a b = false ∧ o' = o.link a b cost := by
  unfold connect
  split_ifs with hab hconn
  · simp [hab]
  · simp [hconn]
  · simp only [Except.ok.injEq, ne_eq, hab, not_false_eq_true, true_and, Bool.eq_false_iff.2 hconn]
    exact eq_comm

@[simp] theorem size_link (o : Overlay) (a b : ℕ) (cost : UInt32) :
    (o.link a b cost).size = o.size := by
  simp [link, size]

@[simp] theorem ends_link (o : Overlay) (a b : ℕ) (cost : UInt32) :
    (o.link a b cost).ends = o.ends := by
  refine List.ext_getElem? fun i => ?_
  rw [getElem?_ends, getElem?_ends]
  simp only [link, Array.getElem?_modify]
  cases o.vertices[i]? with
  | none => simp
  | some v => split_ifs <;> rfl

theorem linksAt_link (ha : a < o.size) (hb : b < o.size) (hne : a ≠ b) (cost : UInt32) (j : ℕ) :
    (o.link a b cost).linksAt j = o.linksAt j ++
      if j = a then [⟨b, cost⟩] else if j = b then [⟨a, cost⟩] else [] := by
  simp only [linksAt, link, Array.getElem?_modify]
  cases hj : o.vertices[j]? with
  | none =>
    have hle : o.size ≤ j := Array.getElem?_eq_none_iff.1 hj
    have hja : j ≠ a := by omega
    have hjb : j ≠ b := by omega
    simp [hja, hjb]
  | some v => grind [Vertex.addLink]

theorem targetsAt_link (ha : a < o.size) (hb : b < o.size) (hne : a ≠ b) (cost : UInt32) (j : ℕ) :
    (o.link a b cost).targetsAt j = o.targetsAt j ++
      if j = a then [b] else if j = b then [a] else [] := by
  rw [targetsAt, targetsAt, linksAt_link ha hb hne, List.map_append]
  split_ifs <;> rfl

theorem mem_linksAt_link (ha : a < o.size) (hb : b < o.size) (hne : a ≠ b) {l : Link} :
    l ∈ (o.link a b cost).linksAt j ↔
      l ∈ o.linksAt j ∨ j = a ∧ l = ⟨b, cost⟩ ∨ j = b ∧ l = ⟨a, cost⟩ := by
  rw [linksAt_link ha hb hne, List.mem_append]
  split_ifs with hja hjb
  · simp [hja, hne]
  · simp [hjb, hne.symm]
  · simp [hja, hjb]

theorem adj_link (ha : a < o.size) (hb : b < o.size) (hne : a ≠ b) (cost : UInt32) :
    (o.link a b cost).Adj i j ↔ o.Adj i j ∨ i = a ∧ j = b ∨ i = b ∧ j = a := by
  simp only [adj_iff, mem_linksAt_link ha hb hne, Link.mk.injEq, exists_or]
  simp

theorem degreeAt_link (ha : a < o.size) (hb : b < o.size) (hne : a ≠ b) (cost : UInt32) (j : ℕ) :
    (o.link a b cost).degreeAt j = o.degreeAt j + if j = a ∨ j = b then 1 else 0 := by
  rw [degreeAt, degreeAt, linksAt_link ha hb hne, List.length_append]
  split_ifs <;> simp_all

/-- **A link between two vertices** that are not linked yet. -/
theorem Simple.link (h : o.Simple) (ha : a < o.size) (hb : b < o.size) (hne : a ≠ b)
    (hnew : ¬ o.Adj a b) (cost : UInt32) : (o.link a b cost).Simple := by
  refine ⟨fun i j c hl => ?_, fun i hi => ?_, fun i => ?_⟩
  · rw [mem_linksAt_link ha hb hne] at hl ⊢
    rcases hl with hl | ⟨rfl, hl⟩ | ⟨rfl, hl⟩
    · exact Or.inl (h.symm i j c hl)
    · cases hl
      exact Or.inr (Or.inr ⟨rfl, rfl⟩)
    · cases hl
      exact Or.inr (Or.inl ⟨rfl, rfl⟩)
  · rcases (adj_link ha hb hne cost).1 hi with hi' | ⟨hia, hib⟩ | ⟨hib, hia⟩
    · exact h.irrefl i hi'
    · exact hne (hia.symm.trans hib)
    · exact hne (hia.symm.trans hib)
  · rw [targetsAt_link ha hb hne, List.nodup_append']
    refine ⟨h.nodup i, ?_, ?_⟩
    · split_ifs <;> simp
    · split_ifs with hia hib
      · exact List.disjoint_singleton.2 (hia ▸ hnew)
      · exact List.disjoint_singleton.2 fun hadj => hnew (h.adj_symm (hib ▸ hadj))
      · exact List.disjoint_nil_right _

end OverlayCensus.Overlay
