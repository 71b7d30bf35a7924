/-
  OverlayCensus — an overlay and its index stay in step.

  The arena of an overlay (`indexed`) has all its peers indexed at their positions, and its
  constructions are those of the overlay.  So every arena that comes about (`Reached`) is the
  arena of an ordered overlay, whatever is linked, or refused, in between.

  * `addVertices_eq`, `connect_eq`: an arena is changed like its overlay;
  * `ofEdges_eq`, `ofFile_eq`, `retarget_eq`, `build_eq`: and constructed like it;
  * `Reached.eq_indexed`: by induction over what happens to an arena;
  * `sound_of_reached`: its vertices, its index, its links and its counts agree.
-/
import Mathlib
import OverlayCensus.Overlay.Arena
import OverlayCensus.Proofs.OverlayOrder

namespace OverlayCensus

namespace Overlay

variable {o : Overlay} {p : PeerAddress} {i : ℕ}

/-- Of different peers, each is found at its own vertex. -/
theorem Ordered.find?_eq_some_iff (h : o.Ordered) :
    o.find? p = some i ↔ ∃ v, o.vertices[i]? = some v ∧ v.peer = p := by
  have hends : (∃ v, o.vertices[i]? = some v ∧ v.peer = p) ↔
      ∃ x, o.ends[i]? = some x ∧ x.peer = p := by
    simp [getElem?_ends, Vertex.toEnd]
  rw [hends, find?_eq, List.findIdx?_eq_some_iff_getElem]
  simp only [decide_eq_true_eq, List.getElem?_eq_some_iff]
  constructor
  · rintro ⟨hi, hp, -⟩
    exact ⟨_, ⟨hi, rfl⟩, hp⟩
  · rintro ⟨x, ⟨hi, rfl⟩, hp⟩
    refine ⟨hi, hp, fun j hj hjp => ?_⟩
    have hne := List.pairwise_iff_getElem.1 (List.pairwise_map.1 h.peers) j i (hj.trans hi) hi hj
    exact hne (hjp.trans hp.symm)

/-! ## Counting links -/

/-- The number of links to vertices with a property. -/
theorem Simple.countP_targetsAt (h : o.Simple) (a : ℕ) (p : ℕ → Prop) [DecidablePred p] :
    (o.targetsAt a).countP p = ∑ b ∈ Finset.range o.size, if b ∈ o.targetsAt a ∧ p b then 1 else 0 := by
  have hset : ((o.targetsAt a).filter p).toFinset =
      (Finset.range o.size).filter fun b => b ∈ o.targetsAt a ∧ p b := by
    ext b
    simp only [List.mem_toFinset, List.mem_filter, decide_eq_true_eq, Finset.mem_filter,
      Finset.mem_range, iff_and_self, and_imp]
    exact fun hb _ => h.lt_size hb
  rw [List.countP_eq_length_filter, ← List.toFinset_card_of_nodup ((h.nodup a).filter _), hset,
    Finset.card_filter]

theorem length_upwardAt (o : Overlay) (a : ℕ) :
    (o.upwardAt a).length = (o.targetsAt a).countP (a < ·) := by
  rw [upwardAt, targetsAt, List.countP_map, List.countP_eq_length_filter]
  rfl

/-- **Every link is counted at both of its ends**, and goes up from one of them. -/
theorem Simple.sum_degreeAt (h : o.Simple) :
    ∑ a ∈ Finset.range o.size, o.degreeAt a =
      2 * ∑ a ∈ Finset.range o.size, (o.upwardAt a).length := by
  have hsplit : ∀ a, o.degreeAt a = (o.targetsAt a).countP (a < ·) + (o.targetsAt a).countP (· < a) := by
    intro a
    rw [← length_targetsAt, (o.targetsAt a).length_eq_countP_add_countP (a < ·)]
    congr 1
    refine List.countP_congr fun b hb => ?_
    have hne : b ≠ a := fun heq => h.irrefl a (heq ▸ hb)
    simp only [decide_eq_true_eq, not_lt]
    omega
  -- a link that goes down from one end goes up from the other
  have hturn : ∑ a ∈ Finset.range o.size, (o.targetsAt a).countP (· < a) =
      ∑ a ∈ Finset.range o.size, (o.targetsAt a).countP (a < ·) := by
    simp only [h.countP_targetsAt]
    rw [Finset.sum_comm]
    refine Finset.sum_congr rfl fun b _ => Finset.sum_congr rfl fun a _ => ?_
    have hsymm : b ∈ o.targetsAt a ↔ a ∈ o.targetsAt b := ⟨h.adj_symm, h.adj_symm⟩
    simp only [hsymm]
  simp only [hsplit, Finset.sum_add_distrib, hturn, length_upwardAt, two_mul]

/-- An edge is listed for every link that goes up. -/
theorem Ordered.length_edges (h : o.Ordered) :
    o.edges.length = ∑ a ∈ Finset.range o.size, (o.upwardAt a).length := by
  have hall : ∀ p ∈ o.linksUpward, (edgeBetween? o.ends p).isSome := by
    intro p hp
    obtain ⟨ha, hb⟩ := h.lt_size_of_mem_linksUpward hp
    obtain ⟨x, hx⟩ := getElem?_ends_eq_some ha
    obtain ⟨y, hy⟩ := getElem?_ends_eq_some hb
    rw [edgeBetween?, hx, hy]
    rfl
  rw [h.edges_eq, List.length_filterMap_eq_countP, List.countP_eq_length.2 hall, linksUpward_eq,
    List.length_flatMap]
  simp only [List.length_map]
  rfl

theorem edgeCount_eq (o : Overlay) :
    o.edgeCount = (∑ a ∈ Finset.range o.size, o.degreeAt a) / 2 := by
  have hdegrees : o.vertices.toList.map Vertex.degree = (List.range o.size).map o.degreeAt := by
    refine List.ext_getElem? fun a => ?_
    rw [List.getElem?_map, List.getElem?_map, Array.getElem?_toList]
    by_cases ha : a < o.size
    · have hv : o.vertices[a]? = some o.vertices[a] := Array.getElem?_eq_getElem ha
      rw [hv, List.getElem?_range ha, Option.map_some, Option.map_some, degreeAt, linksAt, hv]
      rfl
    · rw [Array.getElem?_eq_none (not_lt.1 ha), List.getElem?_eq_none (by simpa using ha)]
      rfl
  rw [edgeCount, hdegrees]
  rfl

end Overlay

namespace Arena

open Relation (ReflTransGen)
open Overlay (ofVertices? numbered ends_bare)

variable {o o' : Overlay} {m m' : Arena} {band : DegreeBand} {p : PeerAddress} {i a b : ℕ}
  {cost : UInt32}

/-! ## The arena of an overlay -/

/-- An index with peers added at the positions from `n` on. -/
def indexFrom (ix : Std.HashMap PeerAddress ℕ) (n : ℕ) : List PeerAddress →
    Std.HashMap PeerAddress ℕ
  | [] => ix
  | p :: ps => indexFrom (ix.insert p n) (n + 1) ps

/-- The arena of an overlay. -/
def indexed (o : Overlay) : Arena :=
  ⟨o, indexFrom ∅ 0 (o.ends.map EdgeEnd.peer)⟩

@[simp] theorem overlay_indexed (o : Overlay) : (indexed o).overlay = o := rfl

theorem getElem?_indexFrom {ps : List PeerAddress} (h : ps.Nodup)
    (ix : Std.HashMap PeerAddress ℕ) (n : ℕ) (p : PeerAddress) :
    (indexFrom ix n ps)[p]? = ((ps.findIdx? fun q => q = p).map (n + ·)).or ix[p]? := by
  induction ps generalizing ix n with
  | nil => rfl
  | cons q ps ih =>
    obtain ⟨hq, hps⟩ := List.nodup_cons.1 h
    rw [indexFrom, ih hps, Std.HashMap.getElem?_insert, List.findIdx?_cons]
    by_cases hqp : q = p
    · have hnone : ps.findIdx? (fun r => r = p) = none :=
        List.findIdx?_eq_none_iff.2 fun r hr => decide_eq_false fun hrp => hq (hqp ▸ hrp ▸ hr)
      simp [hqp, hnone]
    · simp [hqp, Option.map_map, Function.comp_def, Nat.add_comm, Nat.add_left_comm]

/-- **The index finds what a search finds**, if no peer has two vertices. -/
theorem find?_indexed (h : (o.ends.map EdgeEnd.peer).Nodup) (p : PeerAddress) :
    (indexed o).find? p = o.find? p := by
  rw [find?, indexed, getElem?_indexFrom h, Overlay.find?_eq, List.findIdx?_map]
  simp [Function.comp_def]

/-- The index depends on the vertices alone. -/
theorem indexed_of_ends (h : o'.ends = o.ends) : indexed o' = { indexed o with overlay := o' } := by
  rw [indexed, indexed, h]

/-! ## Changes -/

/-- **Vertices are added** to the overlay and to the index, and refused for a peer that has
    one. -/
theorem addVertices_eq (m : Arena) (seen : Std.HashSet PeerAddress)
    (hseen : ∀ p, p ∈ seen ↔ p ∈ m.index) (es : List EdgeEnd) :
    m.addVertices es =
      match PeerAddress.firstRepeatFrom seen (es.map EdgeEnd.peer) with
      | some p => .error (.invalidRequest (.repeatedPeer p))
      | none => .ok
          { overlay := { m.overlay with
              vertices := m.overlay.vertices ++ (es.map EdgeEnd.isolated).toArray }
            index := indexFrom m.index m.overlay.size (es.map EdgeEnd.peer) } := by
  induction es generalizing m seen with
  | nil => simp [addVertices, PeerAddress.firstRepeatFrom, indexFrom]
  | cons e es ih =>
    rw [addVertices, addVertex, List.map_cons, PeerAddress.firstRepeatFrom]
    by_cases he : e.peer ∈ m.index
    · have hcontains : m.index.contains e.peer = true := he
      rw [if_pos hcontains, if_pos ((hseen e.peer).2 he)]
    · have hcontains : ¬ m.index.contains e.peer = true := he
      rw [if_neg hcontains, if_neg (mt (hseen e.peer).1 he)]
      dsimp only
      have hinsert : ∀ p, p ∈ seen.insert e.peer ↔ p ∈ m.index.insert e.peer m.overlay.size := by
        intro p
        rw [Std.HashSet.mem_insert, Std.HashMap.mem_insert, hseen]
      rw [ih _ _ hinsert]
      simp [Overlay.size, indexFrom]

/-- The vertices of a list are accepted or refused as those of an overlay. -/
theorem addVertices_empty (band : DegreeBand) (es : List EdgeEnd) :
    (empty band).addVertices es = indexed <$> ofVertices? band es := by
  rw [addVertices_eq _ ∅ (by simp [empty]), ofVertices?, PeerAddress.firstRepeat]
  cases PeerAddress.firstRepeatFrom ∅ (es.map EdgeEnd.peer) with
  | some p => rfl
  | none =>
    have hends : (Overlay.mk band (es.map EdgeEnd.isolated).toArray).ends = es := ends_bare band es
    simp [indexed, hends, empty, Overlay.empty, Overlay.size]

/-- **A link is made** in the overlay, or refused without a change. -/
theorem connect_eq (m : Arena) (a b : ℕ) (cost : UInt32) :
    m.connect a b cost =
      match m.overlay.connect a b cost with
      | .ok o => (.ok (), { m with overlay := o })
      | .error e => (.error e, m) := by
  rw [connect, Overlay.connect]
  split_ifs <;> rfl

theorem connectAll_eq (m : Arena) (ps : List (ℕ × ℕ × UInt32)) :
    m.connectAll ps = (fun o => { m with overlay := o }) <$> m.overlay.connectAll ps := by
  induction ps generalizing m with
  | nil => rfl
  | cons p ps ih =>
    obtain ⟨a, b, cost⟩ := p
    rw [connectAll, connect_eq, Overlay.connectAll]
    cases m.overlay.connect a b cost with
    | error e => rfl
    | ok o => exact ih _

/-! ## Constructions -/

theorem connectAll_indexed (o : Overlay) (ps : List (ℕ × ℕ × UInt32)) :
    (indexed o).connectAll ps = indexed <$> o.connectAll ps := by
  rw [connectAll_eq, overlay_indexed]
  cases h : o.connectAll ps with
  | error e => rfl
  | ok o' => exact congrArg Except.ok (indexed_of_ends (Overlay.ends_of_connectAll h)).symm

/-- **An arena is assembled like its overlay.** -/
theorem assemble_eq (band : DegreeBand) (es : List EdgeEnd)
    (ps : Overlay → List (ℕ × ℕ × UInt32)) :
    assemble band es ps = indexed <$> Overlay.assemble band es ps := by
  simp only [assemble, Overlay.assemble, addVertices_empty, bind_map_left, overlay_indexed,
    connectAll_indexed, map_bind, map_pure]

theorem ofEdges_eq (band : DegreeBand) (es : List Edge) :
    ofEdges band es = indexed <$> Overlay.ofEdges band es := by
  cases h : Overlay.conflict? (Overlay.sortedEnds es) with
  | some reason =>
    rw [ofEdges, Overlay.ofEdges]
    simp only [h]
    rfl
  | none =>
    rw [ofEdges, Overlay.ofEdges_eq_assemble h, ← assemble_eq]
    simp only [h]

theorem ofFile_eq (bytes : List UInt8) : ofFile bytes = indexed <$> Overlay.ofFile bytes := by
  rw [ofFile, Overlay.ofFile]
  cases Csv.rawRecords bytes with
  | nil => rfl
  | cons header rows => simp only [ofEdges_eq, map_bind]

theorem retarget_eq (m : Arena) (peers : List PeerAddress) :
    m.retarget peers = indexed <$> m.overlay.retarget peers := by
  rw [retarget, Overlay.retarget]
  split_ifs
  · exact assemble_eq _ _ _
  · rfl

section
variable (settings : BuildSettings) (band : DegreeBand) (d : Draws)

theorem build_eq (peers : List (PeerAddress × UInt32)) :
    build settings peers band d =
      Prod.map indexed id <$> Overlay.build settings peers band d := by
  rw [build, Overlay.build]
  cases Overlay.validate peers.length band with
  | error reason => rfl
  | ok =>
    dsimp only
    split_ifs
    · rfl
    · rw [addVertices_empty]
      cases ofVertices? band (numbered peers) with
      | error e => rfl
      | ok bare =>
        simp only [Except.map_ok, overlay_indexed]
        cases hattempts : Overlay.attempts settings bare settings.maxAttempts d with
        | error e => rfl
        | ok r =>
          have hends := Overlay.ends_of_links (Overlay.links_of_attempts hattempts).1
          simp only [Except.map_ok, Prod.map, id, indexed_of_ends hends]

theorem buildOver_eq (peers : List PeerAddress) :
    buildOver settings peers band d =
      Prod.map indexed id <$> Overlay.buildOver settings peers band d :=
  build_eq _ _ _ _

theorem buildSynthetic_eq (count : ℕ) :
    buildSynthetic settings count band d =
      Prod.map indexed id <$> Overlay.buildSynthetic settings count band d :=
  buildOver_eq _ _ _ _

end

/-! ## Whatever happens to an arena -/

/-- One link more, made in place. -/
def LinkStep (m m' : Arena) : Prop :=
  ∃ a b cost, a < m.overlay.size ∧ b < m.overlay.size ∧ m.connect a b cost = (.ok (), m')

/-- **A random construction makes links in place** on the bare vertices, and does nothing
    else. -/
theorem links_of_build {settings : BuildSettings} {peers : List (PeerAddress × UInt32)}
    {d d' : Draws} (h : build settings peers band d = .ok (m, d')) :
    ∃ bare, (empty band).addVertices (numbered peers) = .ok bare ∧ ReflTransGen LinkStep bare m := by
  rw [build] at h
  split at h
  · cases h
  · split_ifs at h
    split at h
    · next bare hbare =>
      split at h
      · next o d₁ hattempts =>
        cases h
        refine ⟨bare, hbare, ?_⟩
        refine (Overlay.links_of_attempts hattempts).1.lift (fun o => { bare with overlay := o }) ?_
        rintro o o' ⟨a, b, cost, ha, hb, hok⟩
        refine ⟨a, b, cost, ha, hb, ?_⟩
        rw [connect_eq, hok]
      · cases h
    · cases h

/-- The arenas that come about: constructed ones, and those with other peers or with links
    that were made, or refused, between two vertices. -/
inductive Reached : Arena → Prop
  | empty (band : DegreeBand) : Reached (empty band)
  | ofEdges {band : DegreeBand} {es : List Edge} {m : Arena} (h : ofEdges band es = .ok m) :
    Reached m
  | ofFile {bytes : List UInt8} {m : Arena} (h : ofFile bytes = .ok m) : Reached m
  | build {settings : BuildSettings} {peers : List (PeerAddress × UInt32)} {band : DegreeBand}
    {d d' : Draws} {m : Arena} (h : build settings peers band d = .ok (m, d')) : Reached m
  | buildOver {settings : BuildSettings} {peers : List PeerAddress} {band : DegreeBand}
    {d d' : Draws} {m : Arena} (h : buildOver settings peers band d = .ok (m, d')) : Reached m
  | buildSynthetic {settings : BuildSettings} {count : ℕ} {band : DegreeBand} {d d' : Draws}
    {m : Arena} (h : buildSynthetic settings count band d = .ok (m, d')) : Reached m
  | retarget {m m' : Arena} {peers : List PeerAddress} (hm : Reached m)
    (h : m.retarget peers = .ok m') : Reached m'
  | connect {m : Arena} {a b : ℕ} (hm : Reached m) (ha : a < m.overlay.size)
    (hb : b < m.overlay.size) (cost : UInt32) : Reached (m.connect a b cost).2

theorem ordered_of_build_eq {settings : BuildSettings} {peers : List (PeerAddress × UInt32)}
    {d d' : Draws} (h : build settings peers band d = .ok (m, d')) :
    ∃ o : Overlay, o.Ordered ∧ m = indexed o := by
  rw [build_eq] at h
  obtain ⟨⟨o, d₁⟩, ho, hm⟩ := map_eq_ok h
  cases hm
  exact ⟨o, (Overlay.ordered_of_build ho).1, rfl⟩

/-- **An arena is that of an ordered overlay**, whatever happened to it. -/
theorem Reached.eq_indexed (h : Reached m) : ∃ o : Overlay, o.Ordered ∧ m = indexed o := by
  induction h with
  | empty band =>
    exact ⟨.empty band, Overlay.ordered_bare List.Pairwise.nil List.nodup_nil, rfl⟩
  | ofEdges h =>
    rw [ofEdges_eq] at h
    obtain ⟨o, ho, rfl⟩ := map_eq_ok h
    exact ⟨o, (Overlay.ordered_of_ofEdges ho).1, rfl⟩
  | ofFile h =>
    rw [ofFile_eq] at h
    obtain ⟨o, ho, rfl⟩ := map_eq_ok h
    exact ⟨o, (Overlay.ordered_of_ofFile ho).1, rfl⟩
  | build h => exact ordered_of_build_eq h
  | buildOver h => exact ordered_of_build_eq h
  | buildSynthetic h => exact ordered_of_build_eq h
  | retarget _ h ih =>
    obtain ⟨o, hordered, rfl⟩ := ih
    rw [retarget_eq] at h
    obtain ⟨o', ho', rfl⟩ := map_eq_ok h
    exact ⟨o', (Overlay.ordered_of_retarget hordered ho').1, rfl⟩
  | @connect m a b _ ha hb cost ih =>
    obtain ⟨o, hordered, rfl⟩ := ih
    rw [connect_eq, overlay_indexed]
    cases hok : o.connect a b cost with
    | error e => exact ⟨o, hordered, rfl⟩
    | ok o' =>
      exact ⟨o', (hordered.connect ha hb hok).1, (indexed_of_ends (Overlay.ends_of_connect hok)).symm⟩

/-- All parts of an arena agree: its overlay is ordered, the index finds every peer at its
    vertex and no other, and links are counted as often as edges are listed. -/
structure Sound (m : Arena) : Prop extends m.overlay.Ordered where
  find?_iff : ∀ p i, m.find? p = some i ↔ ∃ v, m.overlay.vertices[i]? = some v ∧ v.peer = p
  edgeCount_eq : m.overlay.edgeCount = m.overlay.edges.length
  degrees : 2 * m.overlay.edgeCount = ∑ a ∈ Finset.range m.overlay.size, m.overlay.degreeAt a

theorem sound_indexed (h : o.Ordered) : (indexed o).Sound := by
  have hcount : o.edgeCount = ∑ a ∈ Finset.range o.size, (o.upwardAt a).length := by
    rw [Overlay.edgeCount_eq, h.sum_degreeAt, Nat.mul_div_cancel_left _ two_pos]
  refine ⟨h, fun p i => ?_, ?_, ?_⟩
  · rw [find?_indexed h.peers]
    exact h.find?_eq_some_iff
  · rw [overlay_indexed, hcount, h.length_edges]
  · rw [overlay_indexed, hcount, h.sum_degreeAt]

/-- **Whatever happens to an arena, its parts stay in step**, and a link that is refused leaves
    it as it was. -/
theorem sound_of_reached (h : Reached m) : m.Sound ∧
    ∀ a b cost e, (m.connect a b cost).1 = .error e → (m.connect a b cost).2 = m := by
  obtain ⟨o, hordered, rfl⟩ := h.eq_indexed
  refine ⟨sound_indexed hordered, fun a b cost e he => ?_⟩
  rw [connect_eq] at he ⊢
  split at he
  · cases he
  · rfl

namespace Sample

open Overlay (bare attempts)
open Overlay.Sample (four)

/-- Four peers on a ring. -/
def ring : Overlay :=
  (bare ⟨2, 2⟩ (numbered four)).linkAll [(0, 1, 1), (1, 2, 10), (2, 3, 5), (3, 0, 3)]

/-- The ring with a chord. -/
def chord : Arena :=
  ((indexed ring).connect 0 2 4).2

/-- A construction that makes the ring. -/
theorem build_ring : ∃ d, build {} four ⟨2, 2⟩ (.ofSeed 7) = .ok (indexed ring, d) := by
  have hring : (attempts {} (bare ⟨2, 2⟩ (numbered four)) ({} : BuildSettings).maxAttempts
      (.ofSeed 7)).toOption.map Prod.fst = some ring := by decide +kernel
  obtain ⟨d, hbuilt⟩ := Overlay.exists_build_of_attempts rfl (by decide) (by decide) hring
  exact ⟨d, by rw [build_eq, hbuilt]; rfl⟩

/-- A chord of the ring is made once, and refused the second time. -/
theorem sound_of_reached_chord : Reached chord ∧ chord.Sound ∧
    (chord.connect 2 0 9).1 = .error (.alreadyConnected 2 0) ∧ (chord.connect 2 0 9).2 = chord := by
  obtain ⟨d, hbuild⟩ := build_ring
  have hreached : Reached chord := (Reached.build hbuild).connect (by decide) (by decide) 4
  have hrefused : (chord.connect 2 0 9).1 = .error (.alreadyConnected 2 0) := rfl
  obtain ⟨hsound, hkept⟩ := sound_of_reached hreached
  exact ⟨hreached, hsound, hrefused, hkept 2 0 9 _ hrefused⟩

end Sample

end Arena

end OverlayCensus
