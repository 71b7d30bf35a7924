/-
  OverlayCensus — constructions that end with the ring.

  On a ring every vertex has two neighbours, or one if there are two vertices only.  So where
  the minimum degree is one or two, the ring is already enough: an attempt finds no vertex to
  raise, succeeds, and has drawn nothing but the costs of the ring.

  * `degreeAt_of_ring`: the degrees on a ring;
  * `raiseAll_of_le`: vertices with enough links are left as they are, and no draw is used;
  * `perm_edges_of_ring`: the edges of a ring, each once;
  * `ring_built_at_once`: such a construction returns the ring after one attempt.
-/
import Mathlib
import OverlayCensus.Proofs.OverlayRelinking

namespace OverlayCensus.Overlay

variable {costs : DrawRange} {settings : BuildSettings} {band : DegreeBand} {es : List EdgeEnd}
  {o : Overlay} {d : Draws} {a b n : ℕ}

/-! ## Degrees on the ring -/

/-- The degree is at least the size of any set of linked positions. -/
theorem card_le_degreeAt {s : Finset ℕ} (hs : ∀ b ∈ s, o.Adj a b) : s.card ≤ o.degreeAt a := by
  calc s.card ≤ (o.targetsAt a).toFinset.card :=
        Finset.card_le_card fun b hb => List.mem_toFinset.2 (hs b hb)
    _ ≤ (o.targetsAt a).length := List.toFinset_card_le _
    _ = o.degreeAt a := length_targetsAt o a

/-- **The degrees on a ring**: two, or one on a ring of two vertices. -/
theorem degreeAt_of_ring (h : o.Simple)
    (hring : ∀ i j, o.Adj i j ↔ (i, j) ∈ ringPairs n ∨ (j, i) ∈ ringPairs n) (hn : 2 ≤ n)
    (ha : a < n) : o.degreeAt a = if n = 2 then 1 else 2 := by
  refine le_antisymm (degreeAt_le_of_ring h hring a) ?_
  split_ifs with hpair
  · refine card_le_degreeAt (s := {1 - a}) fun b hb => ?_
    rw [Finset.mem_singleton] at hb
    rw [hring, mem_ringPairs, mem_ringPairs]
    omega
  · -- the next position and the one before, around the ring
    set next := if a + 1 < n then a + 1 else 0 with hnext
    set previous := if a = 0 then n - 1 else a - 1 with hprevious
    have hne : next ≠ previous := by
      rw [hnext, hprevious]
      split_ifs <;> omega
    rw [← Finset.card_pair hne]
    refine card_le_degreeAt fun b hb => ?_
    rw [Finset.mem_insert, Finset.mem_singleton, hnext, hprevious] at hb
    rw [hring, mem_ringPairs, mem_ringPairs]
    split_ifs at hb <;> omega

/-! ## Nothing to raise -/

theorem raiseVertex_of_le (h : o.band.min ≤ o.degreeAt a) (tries : ℕ) :
    raiseVertex costs a tries o d = .ok (o, d) := by
  cases tries with
  | zero => rfl
  | succ tries => rw [raiseVertex_succ, if_neg (not_lt.2 h)]

/-- **Vertices that have enough links** are left as they are, and no draw is used. -/
theorem raiseAll_of_le {tries : ℕ} {sources : List ℕ}
    (h : ∀ a ∈ sources, o.band.min ≤ o.degreeAt a) :
    raiseAll costs tries sources o d = .ok (o, d) := by
  induction sources with
  | nil => rfl
  | cons a rest ih =>
    obtain ⟨ha, hrest⟩ := List.forall_mem_cons.1 h
    rw [raiseAll, raiseVertex_of_le ha]
    exact ih hrest

/-- **The attempt is the laying of the ring** where this is enough, and it succeeds. -/
theorem attempt_of_ring (hcosts : costs.lo ≤ costs.hi) (hvalid : validate es.length band = .ok ())
    (hmin : band.min ≤ 2) (d : Draws) :
    ∃ ring d', connectPairs costs (ringPairs es.length) (bare band es) d = .ok (ring, d') ∧
      attempt costs (bare band es) d = .ok (ring, d') ∧ ring.verify = .ok () ∧
      Laid costs (bare band es) ring ∧
      ∀ i j, ring.Adj i j ↔ (i, j) ∈ ringPairs es.length ∨ (j, i) ∈ ringPairs es.length := by
  obtain ⟨hpos, hband, hcount, -, -⟩ := validate_eq_ok_iff.1 hvalid
  obtain ⟨ring, d', hring, hlaid, hadj⟩ := ring_eq_ok hcosts hvalid d
  rw [size_bare] at hring hadj
  have hsize : ring.size = es.length := hlaid.size_eq.trans (size_bare band es)
  have hbandeq : ring.band = band := hlaid.band_eq
  have henough : ∀ a < es.length, band.min ≤ ring.degreeAt a := by
    intro a ha
    rw [degreeAt_of_ring hlaid.simple hadj (by omega) ha]
    split_ifs <;> omega
  refine ⟨ring, d', hring, ?_, verify_eq_ok_iff.2 fun a ha => ?_, hlaid, hadj⟩
  · rw [attempt, size_bare, hring]
    exact raiseAll_of_le fun a ha => hbandeq.symm ▸ henough a (List.mem_range.1 ha)
  · rw [hbandeq]
    exact ⟨henough a (hsize ▸ ha), hlaid.le_max a⟩

/-! ## The edges of the ring -/

/-- The ids at the two ends of an edge. -/
def edgeIds (e : Edge) : ℕ × Option ℕ :=
  (e.first.id, e.second.map EdgeEnd.id)

/-- The edges of a ring of `n`, the lower position first: each position and the next one, and if
    there are more than two the first one and the last. -/
def ringEdges (n : ℕ) : List (ℕ × ℕ) :=
  (List.range (n - 1)).map (fun i => (i, i + 1)) ++ if 2 < n then [(0, n - 1)] else []

theorem mem_ringEdges :
    (a, b) ∈ ringEdges n ↔ a < b ∧ ((a, b) ∈ ringPairs n ∨ (b, a) ∈ ringPairs n) := by
  rw [ringEdges, List.mem_append, List.mem_map, mem_ringPairs, mem_ringPairs]
  split_ifs with hn
  · simp [Prod.ext_iff]
    omega
  · simp
    omega

theorem nodup_ringEdges (n : ℕ) : (ringEdges n).Nodup := by
  rw [ringEdges, List.nodup_append']
  refine ⟨?_, ?_, fun p hp hq => ?_⟩
  · refine List.nodup_range.map fun i j hij => ?_
    exact (Prod.ext_iff.1 hij).1
  · split_ifs
    · exact List.nodup_singleton _
    · exact List.nodup_nil
  · obtain ⟨i, hi, rfl⟩ := List.mem_map.1 hp
    split_ifs at hq with hn
    · have heq := List.mem_singleton.1 hq
      simp only [Prod.mk.injEq] at heq
      omega
    · cases hq

/-- Where the ids are the positions, an overlay has an edge for every link that goes up. -/
theorem Ordered.map_edgeIds (h : o.Ordered)
    (hids : ∀ (i : ℕ) (x : EdgeEnd), o.ends[i]? = some x → x.id = i) :
    o.edges.map edgeIds = (o.linksUpward.map fun p => (p.1, p.2.1)).map (Prod.map id some) := by
  rw [h.edges_eq, List.map_filterMap, List.map_map, ← List.filterMap_eq_map]
  refine List.filterMap_congr fun p hp => ?_
  obtain ⟨x, y, hx, hy, hedge⟩ := h.exists_edgeBetween hp
  rw [hedge, Option.map_some, edgeIds, Option.map_some, hids _ x hx, hids _ y hy]
  rfl

/-- **The edges of a ring**, each of them once. -/
theorem Ordered.perm_edges_of_ring (h : o.Ordered)
    (hids : ∀ (i : ℕ) (x : EdgeEnd), o.ends[i]? = some x → x.id = i)
    (hring : ∀ i j, o.Adj i j ↔ (i, j) ∈ ringPairs n ∨ (j, i) ∈ ringPairs n) :
    (o.edges.map edgeIds).Perm ((ringEdges n).map (Prod.map id some)) := by
  have hnodup : (o.linksUpward.map fun p => (p.1, p.2.1)).Nodup := by
    refine List.pairwise_map.2 (h.pairwise_linksUpward.imp fun hne heq => ?_)
    exact hne (Prod.ext_iff.1 heq).1 (Prod.ext_iff.1 heq).2
  rw [h.map_edgeIds hids]
  refine List.Perm.map _ ((List.perm_ext_iff_of_nodup hnodup (nodup_ringEdges n)).2 ?_)
  rintro ⟨i, j⟩
  rw [mem_ringEdges, ← hring, adj_iff]
  simp only [List.mem_map, Prod.exists, Prod.mk.injEq, mem_linksUpward]
  constructor
  · rintro ⟨_, _, cost, hl, rfl, rfl⟩
    exact ⟨hl.1, cost, hl.2⟩
  · rintro ⟨hlt, cost, hl⟩
    exact ⟨i, j, cost, ⟨hlt, hl⟩, rfl, rfl⟩

/-! ## Constructions -/

/-- **A minimum degree of one or two is met at once.**  For every valid request of this kind, and
    whatever the draws and the maximum degree, the first attempt succeeds.  It lays the ring and
    adds nothing to it: the edges are those between each vertex and the next one, and between the
    last and the first if there are more than two, so that every degree is two, or one on a ring
    of two vertices. -/
theorem ring_built_at_once (settings : BuildSettings) (peers : List (PeerAddress × UInt32))
    (band : DegreeBand) (hvalid : validate peers.length band = .ok ()) (hmin : band.min ≤ 2)
    (hattempts : settings.maxAttempts ≠ 0) (hcosts : settings.costs.lo ≤ settings.costs.hi)
    (hpeers : (peers.map Prod.fst).Nodup) (d : Draws) :
    ∃ o d', connectPairs settings.costs (ringPairs peers.length) (bare band (numbered peers)) d =
        .ok (o, d') ∧
      attempt settings.costs (bare band (numbered peers)) d = .ok (o, d') ∧ o.verify = .ok () ∧
      build settings peers band d = .ok (o, d') ∧ Built settings.costs peers band o ∧
      (o.edges.map edgeIds).Perm ((ringEdges peers.length).map (Prod.map id some)) ∧
      ∀ i < peers.length, o.degreeAt i = if peers.length = 2 then 1 else 2 := by
  have hlength := length_numbered peers
  obtain ⟨hpos, hband, hcount, -, -⟩ := validate_eq_ok_iff.1 hvalid
  obtain ⟨o, d', hring, hattempt, hverify, hlaid, hadj⟩ :=
    attempt_of_ring hcosts (hlength.symm ▸ hvalid) hmin d
  rw [hlength] at hring hadj
  have hbuild : build settings peers band d = .ok (o, d') := by
    obtain ⟨left, hleft⟩ := Nat.exists_eq_succ_of_ne_zero hattempts
    rw [build_eq_attempts hvalid hattempts hpeers, hleft, attempts, hattempt]
    simp only [hverify]
  have hbuilt := built_of_laid hlaid hverify
  refine ⟨o, d', hring, hattempt, hverify, hbuild, hbuilt, ?_, fun i hi => ?_⟩
  · refine (ordered_of_build hbuild).1.perm_edges_of_ring (fun i x hx => ?_) hadj
    rw [getElem?_ends] at hx
    obtain ⟨v, hv, rfl⟩ := Option.map_eq_some_iff.1 hx
    exact (hbuilt.vertex i v hv).1
  · exact degreeAt_of_ring hlaid.simple hadj (by omega) hi

/-- Two peers, which can only be linked to each other. -/
def Sample.pair : List (PeerAddress × UInt32) :=
  [(⟨"a", 1⟩, 3), (⟨"b", 1⟩, 0)]

/-- Four peers that may have three links each get two, and two peers get their only link. -/
theorem ring_built_at_once_four :
    validate Sample.four.length ⟨1, 3⟩ = .ok () ∧ validate Sample.pair.length ⟨1, 1⟩ = .ok () ∧
      (∃ o d', build { maxAttempts := 1 } Sample.four ⟨1, 3⟩ (.ofSeed 7) = .ok (o, d') ∧
        (o.edges.map edgeIds).Perm [(0, some 1), (1, some 2), (2, some 3), (0, some 3)] ∧
        ∀ i < 4, o.degreeAt i = 2) ∧
      ∃ o d', build { maxAttempts := 1 } Sample.pair ⟨1, 1⟩ (.ofSeed 7) = .ok (o, d') ∧
        (o.edges.map edgeIds).Perm [(0, some 1)] ∧ ∀ i < 2, o.degreeAt i = 1 := by
  have hfour : validate Sample.four.length ⟨1, 3⟩ = .ok () := by decide
  have hpair : validate Sample.pair.length ⟨1, 1⟩ = .ok () := by decide
  obtain ⟨o, d, -, -, -, hbuild, -, hedges, hdegree⟩ :=
    ring_built_at_once { maxAttempts := 1 } Sample.four ⟨1, 3⟩ hfour (by decide) (by decide)
      (by decide) (by decide) (.ofSeed 7)
  obtain ⟨o', d', -, -, -, hbuild', -, hedges', hdegree'⟩ :=
    ring_built_at_once { maxAttempts := 1 } Sample.pair ⟨1, 1⟩ hpair (by decide) (by decide)
      (by decide) (by decide) (.ofSeed 7)
  exact ⟨hfour, hpair, ⟨o, d, hbuild, hedges, hdegree⟩, o', d', hbuild', hedges', hdegree'⟩

end OverlayCensus.Overlay
