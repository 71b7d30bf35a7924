/-
  OverlayCensus — what a construction returns.

  * `Draft`: what links added one by one at drawn costs keep;
  * `Draft.connectPairs`, `Draft.degreeAt_le_of_ring`: the ring is laid without refusal,
    within the maximum degree;
  * `Laid.raiseVertex`: random links on top of the ring;
  * `build_cases`: a construction is refused for its request, gives up, or returns an overlay
    that keeps all promises (`Built`).
-/
import Mathlib
import OverlayCensus.Overlay.Builder
import OverlayCensus.Proofs.OverlayReachable

namespace OverlayCensus.Overlay

open Relation (ReflTransGen)

variable {costs : DrawRange} {start o : Overlay} {a b i j n : ℕ} {cost : UInt32}

/-! ## Links at drawn costs -/

/-- An overlay that links at costs in a range make out of bare vertices. -/
structure Draft (costs : DrawRange) (start o : Overlay) : Prop where
  simple : o.Simple
  band_eq : o.band = start.band
  ends_eq : o.ends = start.ends
  cost_mem : ∀ a, ∀ l ∈ o.linksAt a, costs.lo ≤ l.cost ∧ l.cost ≤ costs.hi

namespace Draft

theorem size_eq (h : Draft costs start o) : o.size = start.size := by
  rw [← length_ends, h.ends_eq, length_ends]

theorem link (h : Draft costs start o) (ha : a < o.size) (hb : b < o.size) (hne : a ≠ b)
    (hnew : ¬ o.Adj a b) (hcost : costs.lo ≤ cost ∧ cost ≤ costs.hi) :
    Draft costs start (o.link a b cost) := by
  refine ⟨h.simple.link ha hb hne hnew cost, h.band_eq, (ends_link o a b cost).trans h.ends_eq,
    fun i l hl => ?_⟩
  rcases (mem_linksAt_link ha hb hne).1 hl with hl | ⟨-, rfl⟩ | ⟨-, rfl⟩
  · exact h.cost_mem i l hl
  · exact hcost
  · exact hcost

theorem connect_eq (h : Draft costs start o) (hne : a ≠ b) (hnew : ¬ o.Adj a b) (cost : UInt32) :
    o.connect a b cost = .ok (o.link a b cost) := by
  refine connect_eq_ok_iff.2 ⟨hne, ?_, rfl⟩
  exact Bool.eq_false_iff.2 fun hab => hnew (h.simple.isConnected_iff.1 hab)

/-- **Different pairs** of vertices that are not linked yet are linked without refusal. -/
theorem connectPairs (hcosts : costs.lo ≤ costs.hi) :
    ∀ (pairs : List (ℕ × ℕ)) (o : Overlay) (d : Draws), Draft costs start o →
      (∀ p ∈ pairs, p.1 < o.size ∧ p.2 < o.size ∧ p.1 ≠ p.2 ∧ ¬ o.Adj p.1 p.2) →
      pairs.Pairwise (fun p q => p ≠ q ∧ p ≠ q.swap) →
      ∃ o' d', Overlay.connectPairs costs pairs o d = .ok (o', d') ∧ Draft costs start o' ∧
        ∀ i j, o'.Adj i j ↔ o.Adj i j ∨ (i, j) ∈ pairs ∨ (j, i) ∈ pairs
  | [], o, d, h, _, _ => ⟨o, d, rfl, h, by simp⟩
  | (a, b) :: rest, o, d, h, hnew, hpairs => by
    obtain ⟨ha, hb, hne, hab⟩ := hnew (a, b) List.mem_cons_self
    obtain ⟨hfirst, hrest⟩ := List.pairwise_cons.1 hpairs
    have hcost := Draws.between_mem hcosts d
    have hlinked := h.link ha hb hne hab hcost
    have hnew' : ∀ p ∈ rest, p.1 < (o.link a b (d.between costs.lo costs.hi).1).size ∧
        p.2 < (o.link a b (d.between costs.lo costs.hi).1).size ∧ p.1 ≠ p.2 ∧
          ¬ (o.link a b (d.between costs.lo costs.hi).1).Adj p.1 p.2 := by
      intro p hp
      obtain ⟨hp₁, hp₂, hpne, hpadj⟩ := hnew p (List.mem_cons_of_mem _ hp)
      obtain ⟨hdiffer, hswap⟩ := hfirst p hp
      rw [size_link, adj_link ha hb hne]
      refine ⟨hp₁, hp₂, hpne, ?_⟩
      rintro (hadj | ⟨rfl, rfl⟩ | ⟨rfl, rfl⟩)
      · exact hpadj hadj
      · exact hdiffer rfl
      · exact hswap rfl
    obtain ⟨o', d', heq, hdraft, hadj⟩ := Draft.connectPairs hcosts rest _
      (d.between costs.lo costs.hi).2 hlinked hnew' hrest
    refine ⟨o', d', ?_, hdraft, fun i j => ?_⟩
    · rw [Overlay.connectPairs]
      simp only [h.connect_eq hne hab, heq]
    · rw [hadj, adj_link ha hb hne]
      simp only [List.mem_cons, Prod.mk.injEq]
      tauto

end Draft

/-! ## The ring -/

theorem mem_ringPairs : (a, b) ∈ ringPairs n ↔
    a + 1 < n ∧ b = a + 1 ∨ 2 < n ∧ a = n - 1 ∧ b = 0 := by
  rw [ringPairs, List.mem_append, List.mem_map]
  split_ifs with hn
  · simp [hn, Prod.ext_iff]
    omega
  · simp [hn]
    omega

theorem pairwise_ringPairs (n : ℕ) :
    (ringPairs n).Pairwise fun p q => p ≠ q ∧ p ≠ q.swap := by
  rw [ringPairs, List.pairwise_append]
  refine ⟨?_, ?_, ?_⟩
  · refine List.Pairwise.map _ (fun i j hij => ?_) List.pairwise_lt_range
    simp only [ne_eq, Prod.mk.injEq, Prod.swap_prod_mk]
    omega
  · split_ifs
    · exact List.pairwise_singleton _ _
    · exact List.Pairwise.nil
  · intro p hp q hq
    obtain ⟨i, hi, rfl⟩ := List.mem_map.1 hp
    rw [List.mem_range] at hi
    split_ifs at hq with hn
    · obtain rfl := List.mem_singleton.1 hq
      simp only [ne_eq, Prod.mk.injEq, Prod.swap_prod_mk]
      omega
    · cases hq

/-- On a ring every vertex has two neighbours, on a ring of two vertices one. -/
theorem degreeAt_le_of_ring (h : o.Simple)
    (hring : ∀ i j, o.Adj i j ↔ (i, j) ∈ ringPairs n ∨ (j, i) ∈ ringPairs n) (a : ℕ) :
    o.degreeAt a ≤ if n = 2 then 1 else 2 := by
  split_ifs with hn
  · refine h.degreeAt_le (s := {1 - a}) fun b hb => ?_
    rw [hring, mem_ringPairs, mem_ringPairs] at hb
    rw [Finset.mem_singleton]
    omega
  · refine (h.degreeAt_le (s := {if a + 1 < n then a + 1 else 0, if a = 0 then n - 1 else a - 1})
      fun b hb => ?_).trans Finset.card_le_two
    rw [hring, mem_ringPairs, mem_ringPairs] at hb
    rw [Finset.mem_insert, Finset.mem_singleton]
    split_ifs <;> omega

/-! ## Random links on top of the ring -/

/-- One try of raising a vertex.  The loop is taken apart with this statement: the equation
    that Lean derives for it is slow to check. -/
theorem raiseVertex_succ (costs : DrawRange) (source tries : ℕ) (o : Overlay) (d : Draws) :
    raiseVertex costs source (tries + 1) o d =
      if o.degreeAt source < o.band.min then
        let (target, d) := d.below o.size
        if target = source ∨ o.isConnected source target ∨ o.band.max ≤ o.degreeAt target then
          raiseVertex costs source tries o d
        else
          let (cost, d) := d.between costs.lo costs.hi
          match o.connect source target cost with
          | .ok o => raiseVertex costs source tries o d
          | .error e => .error e
      else .ok (o, d) :=
  rfl

/-- A draft with the ring in it and no degree above the maximum. -/
structure Laid (costs : DrawRange) (start o : Overlay) : Prop extends Draft costs start o where
  le_max : ∀ a, o.degreeAt a ≤ start.band.max
  ring : ∀ p ∈ ringPairs start.size, o.Adj p.1 p.2

namespace Laid

theorem link (h : Laid costs start o) (ha : a < o.size) (hb : b < o.size) (hne : a ≠ b)
    (hnew : ¬ o.Adj a b) (hcost : costs.lo ≤ cost ∧ cost ≤ costs.hi)
    (hroom : o.degreeAt a < start.band.max ∧ o.degreeAt b < start.band.max) :
    Laid costs start (o.link a b cost) := by
  refine ⟨h.toDraft.link ha hb hne hnew hcost, fun i => ?_, fun p hp => ?_⟩
  · rw [degreeAt_link ha hb hne]
    have := h.le_max i
    split_ifs with hi
    · rcases hi with rfl | rfl <;> omega
    · exact this
  · exact (adj_link ha hb hne cost).2 (Or.inl (h.ring p hp))

/-- **Raising a vertex** is never refused and pushes no vertex past the maximum. -/
theorem raiseVertex (hcosts : costs.lo ≤ costs.hi) (hband : start.band.min ≤ start.band.max)
    (ha : a < start.size) :
    ∀ (tries : ℕ) (o : Overlay) (d : Draws), Laid costs start o →
      ∃ o' d', Overlay.raiseVertex costs a tries o d = .ok (o', d') ∧ Laid costs start o'
  | 0, o, d, h => ⟨o, d, rfl, h⟩
  | tries + 1, o, d, h => by
    have ha' : a < o.size := h.size_eq.symm ▸ ha
    have htarget := Draws.below_lt (Nat.zero_lt_of_lt ha') d
    rw [raiseVertex_succ]
    generalize d.below o.size = drawn at htarget ⊢
    obtain ⟨b, d⟩ := drawn
    simp only
    split_ifs with hshort hwasted
    · exact Laid.raiseVertex hcosts hband ha tries o d h
    · rw [not_or, not_or, not_le] at hwasted
      obtain ⟨hne, hconn, hroom⟩ := hwasted
      have hnew : ¬ o.Adj a b := fun hab => hconn (h.simple.isConnected_iff.2 hab)
      have hlinked := h.link ha' htarget (Ne.symm hne) hnew (Draws.between_mem hcosts d)
        ⟨by rw [h.band_eq] at hshort; omega, h.band_eq ▸ hroom⟩
      simp only [h.connect_eq (Ne.symm hne) hnew]
      exact Laid.raiseVertex hcosts hband ha tries _ _ hlinked
    · exact ⟨o, _, rfl, h⟩

theorem raiseAll (hcosts : costs.lo ≤ costs.hi) (hband : start.band.min ≤ start.band.max)
    (tries : ℕ) :
    ∀ (sources : List ℕ) (o : Overlay) (d : Draws), (∀ a ∈ sources, a < start.size) →
      Laid costs start o →
      ∃ o' d', Overlay.raiseAll costs tries sources o d = .ok (o', d') ∧ Laid costs start o'
  | [], o, d, _, h => ⟨o, d, rfl, h⟩
  | a :: rest, o, d, hin, h => by
    obtain ⟨o₁, d₁, hraised, h₁⟩ := h.raiseVertex hcosts hband (hin a List.mem_cons_self) tries o d
    obtain ⟨o₂, d₂, hall, h₂⟩ := Laid.raiseAll hcosts hband tries rest o₁ d₁
      (fun b hb => hin b (List.mem_cons_of_mem _ hb)) h₁
    refine ⟨o₂, d₂, ?_, h₂⟩
    rw [Overlay.raiseAll, hraised]
    exact hall

end Laid

/-! ## Attempts -/

variable {settings : BuildSettings} {band : DegreeBand} {es : List EdgeEnd}

theorem validate_eq_ok_iff : validate n band = .ok () ↔
    1 ≤ band.min ∧ band.min ≤ band.max ∧ band.max < n ∧ (2 < n → 2 ≤ band.max) ∧
      band.min * n % 2 = 0 := by
  unfold validate
  split_ifs <;> simp <;> omega

theorem draft_bare (costs : DrawRange) (band : DegreeBand) (es : List EdgeEnd) :
    Draft costs (bare band es) (bare band es) := by
  refine ⟨simple_bare band es, rfl, rfl, fun a l hl => ?_⟩
  rw [linksAt_bare] at hl
  cases hl

/-- On a valid request the ring is laid, and is all that is laid at first. -/
theorem ring_eq_ok (hcosts : costs.lo ≤ costs.hi) (hvalid : validate es.length band = .ok ())
    (d : Draws) :
    ∃ ring d', connectPairs costs (ringPairs (bare band es).size) (bare band es) d =
        .ok (ring, d') ∧ Laid costs (bare band es) ring ∧
      ∀ i j, ring.Adj i j ↔ (i, j) ∈ ringPairs (bare band es).size ∨
        (j, i) ∈ ringPairs (bare band es).size := by
  obtain ⟨hmin, hband, hcount, htwo, -⟩ := validate_eq_ok_iff.1 hvalid
  have hpairs : ∀ p ∈ ringPairs (bare band es).size, p.1 < (bare band es).size ∧
      p.2 < (bare band es).size ∧ p.1 ≠ p.2 ∧ ¬ (bare band es).Adj p.1 p.2 := by
    rintro ⟨a, b⟩ hp
    rw [mem_ringPairs] at hp
    refine ⟨by omega, by omega, by dsimp only; omega, not_adj_bare band es a b⟩
  obtain ⟨ring, d', hring, hdraft, hadj⟩ :=
    Draft.connectPairs hcosts _ _ d (draft_bare costs band es) hpairs (pairwise_ringPairs _)
  have hadj' : ∀ i j, ring.Adj i j ↔ (i, j) ∈ ringPairs (bare band es).size ∨
      (j, i) ∈ ringPairs (bare band es).size := fun i j => by
    rw [hadj, or_iff_right (not_adj_bare band es i j)]
  refine ⟨ring, d', hring, ⟨hdraft, fun a => (degreeAt_le_of_ring hdraft.simple hadj' a).trans ?_,
    fun p hp => (hadj' p.1 p.2).2 (Or.inl hp)⟩, hadj'⟩
  rw [size_bare]
  change _ ≤ band.max
  split_ifs <;> omega

/-- **An attempt** on a valid request lays the ring and is not refused. -/
theorem attempt_eq_ok (hcosts : costs.lo ≤ costs.hi) (hvalid : validate es.length band = .ok ())
    (d : Draws) :
    ∃ o d', attempt costs (bare band es) d = .ok (o, d') ∧ Laid costs (bare band es) o := by
  obtain ⟨-, hband, -⟩ := validate_eq_ok_iff.1 hvalid
  obtain ⟨ring, d₁, hring, hlaid, -⟩ := ring_eq_ok hcosts hvalid d
  obtain ⟨o, d₂, hraised, hend⟩ := hlaid.raiseAll hcosts hband
    ((bare band es).band.min * (bare band es).size * 10) (List.range (bare band es).size) ring d₁
    fun a ha => List.mem_range.1 ha
  refine ⟨o, d₂, ?_, hend⟩
  rw [attempt, hring]
  exact hraised

/-- Every degree of a verified overlay lies in the band. -/
theorem admits_of_verify (h : o.verify = .ok ()) (ha : a < o.size) :
    o.band.min ≤ o.degreeAt a ∧ o.degreeAt a ≤ o.band.max := by
  have hv : o.vertices[a]? = some o.vertices[a] := Array.getElem?_eq_getElem ha
  have hdegree : o.degreeAt a = o.vertices[a].degree := by
    rw [degreeAt, linksAt, hv]
    rfl
  rw [verify] at h
  split at h
  · cases h
  · next hnone =>
    have hadmits := Array.find?_eq_none.1 hnone o.vertices[a] (Array.getElem_mem ha)
    simpa [DegreeBand.admits, hdegree] using hadmits

theorem attempts_cases (hcosts : settings.costs.lo ≤ settings.costs.hi)
    (hvalid : validate es.length band = .ok ()) (left : ℕ) (d : Draws) :
    attempts settings (bare band es) left d = .error (.constructionFailed settings.maxAttempts) ∨
      ∃ o d', attempts settings (bare band es) left d = .ok (o, d') ∧
        Laid settings.costs (bare band es) o ∧ o.verify = .ok () := by
  induction left generalizing d with
  | zero => exact Or.inl rfl
  | succ left ih =>
    obtain ⟨o, d', hattempt, hlaid⟩ := attempt_eq_ok hcosts hvalid d
    simp only [attempts, hattempt]
    cases hverify : o.verify with
    | ok => exact Or.inr ⟨o, d', rfl, hlaid, hverify⟩
    | error e => exact ih d'

/-! ## Constructions -/

/-- What a returned overlay promises for the peers, the band and the costs it was built
    with. -/
structure Built (costs : DrawRange) (peers : List (PeerAddress × UInt32)) (band : DegreeBand)
    (o : Overlay) : Prop where
  band_eq : o.band = band
  size_eq : o.size = peers.length
  vertex : ∀ (i : ℕ) (v : Vertex), o.vertices[i]? = some v →
    v.id = i ∧ peers[i]? = some (v.peer, v.devices)
  simple : o.Simple
  cost_mem : ∀ a, ∀ l ∈ o.linksAt a, costs.lo ≤ l.cost ∧ l.cost ≤ costs.hi
  degree_mem : ∀ a < o.size, band.min ≤ o.degreeAt a ∧ o.degreeAt a ≤ band.max
  ring : ∀ i, i + 1 < o.size → o.Adj i (i + 1)
  ring_closed : 2 < o.size → o.Adj (o.size - 1) 0
  reachable : o.isFullyReachable = true

theorem getElem?_numbered (peers : List (PeerAddress × UInt32)) (i : ℕ) :
    (numbered peers)[i]? = peers[i]?.map fun p => ⟨i, p.1, p.2⟩ := by
  simp [numbered, Function.comp_def]

theorem map_peer_numbered (peers : List (PeerAddress × UInt32)) :
    (numbered peers).map EdgeEnd.peer = peers.map Prod.fst := by
  refine List.ext_getElem? fun i => ?_
  rw [List.getElem?_map, getElem?_numbered, List.getElem?_map, Option.map_map]
  rfl

theorem length_numbered (peers : List (PeerAddress × UInt32)) :
    (numbered peers).length = peers.length := by
  simp [numbered]

theorem built_of_laid {peers : List (PeerAddress × UInt32)}
    (h : Laid costs (bare band (numbered peers)) o) (hverify : o.verify = .ok ()) :
    Built costs peers band o := by
  have hsize : o.size = peers.length := by
    rw [h.size_eq, size_bare, length_numbered]
  have hring : ∀ i, i + 1 < o.size → o.Adj i (i + 1) := fun i hi =>
    h.ring (i, i + 1) (mem_ringPairs.2 (Or.inl ⟨h.size_eq ▸ hi, rfl⟩))
  refine ⟨h.band_eq, hsize, fun i v hv => ?_, h.simple, h.cost_mem, fun a ha => ?_, hring,
    fun hn => ?_, ?_⟩
  · have hend : o.ends[i]? = some v.toEnd := by rw [getElem?_ends, hv, Option.map_some]
    rw [h.ends_eq, ends_bare, getElem?_numbered] at hend
    obtain ⟨⟨p, devices⟩, hp, hsame⟩ := Option.map_eq_some_iff.1 hend
    simp only [Vertex.toEnd, EdgeEnd.mk.injEq] at hsame
    obtain ⟨rfl, rfl, rfl⟩ := hsame
    exact ⟨rfl, hp⟩
  · have hadmits := admits_of_verify hverify ha
    rw [h.band_eq] at hadmits
    exact hadmits
  · rw [h.size_eq] at hn ⊢
    exact h.ring (_, 0) (mem_ringPairs.2 (Or.inr ⟨hn, rfl, rfl⟩))
  · refine (isFullyReachable_iff fun a b => h.simple.lt_size).2 fun i hi => ?_
    induction i with
    | zero => exact ReflTransGen.refl
    | succ i ih => exact (ih (by omega)).tail (hring i hi)

/-- A construction on a valid request for different peers is its attempts. -/
theorem build_eq_attempts {peers : List (PeerAddress × UInt32)}
    (hvalid : validate peers.length band = .ok ()) (hattempts : settings.maxAttempts ≠ 0)
    (hpeers : (peers.map Prod.fst).Nodup) (d : Draws) :
    build settings peers band d =
      attempts settings (bare band (numbered peers)) settings.maxAttempts d := by
  simp only [build, hvalid, hattempts, if_false]
  rw [ofVertices?_eq_ok band (map_peer_numbered peers ▸ hpeers)]

/-- What the attempts come to is built, whatever is left of the stream. -/
theorem exists_build_of_attempts {peers : List (PeerAddress × UInt32)} {d : Draws}
    (hvalid : validate peers.length band = .ok ()) (hattempts : settings.maxAttempts ≠ 0)
    (hpeers : (peers.map Prod.fst).Nodup)
    (h : (attempts settings (bare band (numbered peers)) settings.maxAttempts d).toOption.map
      Prod.fst = some o) : ∃ d', build settings peers band d = .ok (o, d') := by
  rw [build_eq_attempts hvalid hattempts hpeers]
  cases hbuilt : attempts settings (bare band (numbered peers)) settings.maxAttempts d with
  | error e =>
    rw [hbuilt] at h
    cases h
  | ok built =>
    rw [hbuilt] at h
    exact ⟨built.2, by rw [← Option.some.inj h]⟩

/-- **Every construction** is refused for its request — the band is bad or a peer is given
    twice —, gives up, or returns an overlay that keeps all promises, whatever the draws. -/
theorem build_cases (settings : BuildSettings) (hcosts : settings.costs.lo ≤ settings.costs.hi)
    (peers : List (PeerAddress × UInt32)) (band : DegreeBand) (d : Draws) :
    (∃ reason, build settings peers band d = .error (.invalidRequest reason) ∧
        (validate peers.length band = .error reason ∨
          ∃ p, reason = .repeatedPeer p ∧ List.Duplicate p (peers.map Prod.fst))) ∨
      build settings peers band d = .error (.constructionFailed settings.maxAttempts) ∨
      ∃ o d', build settings peers band d = .ok (o, d') ∧ Built settings.costs peers band o := by
  cases hvalid : validate peers.length band with
  | error reason =>
    exact Or.inl ⟨reason, by simp only [build, hvalid], Or.inl rfl⟩
  | ok =>
    by_cases hattempts : settings.maxAttempts = 0
    · exact Or.inr (Or.inl (by simp only [build, hvalid, hattempts, if_true]))
    · by_cases hpeers : (peers.map Prod.fst).Nodup
      · rw [build_eq_attempts hvalid hattempts hpeers]
        rcases attempts_cases hcosts (by rwa [length_numbered]) settings.maxAttempts d with
          hfailed | ⟨o, d', hbuilt, hlaid, hverify⟩
        · exact Or.inr (Or.inl hfailed)
        · exact Or.inr (Or.inr ⟨o, d', hbuilt, built_of_laid hlaid hverify⟩)
      · rw [← map_peer_numbered] at hpeers
        obtain ⟨p, herror, hp⟩ := ofVertices?_eq_error band hpeers
        simp only [build, hvalid, hattempts, if_false, herror]
        exact Or.inl ⟨_, rfl, Or.inr ⟨p, rfl, map_peer_numbered peers ▸ hp⟩⟩

/-- Four peers, all of which have to be linked to each other. -/
def Sample.four : List (PeerAddress × UInt32) :=
  [(⟨"a", 1⟩, 3), (⟨"b", 1⟩, 0), (⟨"c", 1⟩, 7), (⟨"d", 1⟩, 1)]

/-- Here the first attempt draws both links that the ring lacks. -/
theorem build_cases_four :
    ({} : BuildSettings).costs.lo ≤ ({} : BuildSettings).costs.hi ∧
      ∃ o d', build {} Sample.four ⟨3, 3⟩ (.ofSeed 7) = .ok (o, d') ∧
        Built ({} : BuildSettings).costs Sample.four ⟨3, 3⟩ o := by
  have hpeers : (Sample.four.map Prod.fst).Nodup := by decide
  have hbuilt : (attempts {} (bare ⟨3, 3⟩ (numbered Sample.four)) ({} : BuildSettings).maxAttempts
      (.ofSeed 7)).toOption.isSome = true := by decide +kernel
  refine ⟨by decide, ?_⟩
  rcases build_cases {} (by decide) Sample.four ⟨3, 3⟩ (.ofSeed 7) with
    ⟨reason, -, hbad | ⟨p, -, hp⟩⟩ | hfailed | hreturned
  · cases hbad
  · exact absurd hpeers hp.not_nodup
  · rw [build_eq_attempts rfl (by decide) hpeers] at hfailed
    rw [hfailed] at hbuilt
    cases hbuilt
  · exact hreturned

end OverlayCensus.Overlay
