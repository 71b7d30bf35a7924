/-
  OverlayCensus — every valid request can be met.

  A construction has no plan: it draws far ends until a vertex has enough links, and may come to
  a point at which no further link helps.  But there is a graph with the ring in it whose degrees
  lie in the band, and while all links drawn are links of that graph, a vertex that is still short
  has another one there, whose far end has room for it.

  * `Plan`: the links of such a graph, `exists_plan`: each position is linked to those at certain
    distances from it around the circle;
  * `Kept.exists_target`: a construction kept to a plan finds a target for every vertex in need;
  * `leads_raiseVertex`, `leads_raiseAll`: so it can be led to raise them all;
  * `exists_build`: some draws make the first attempt succeed.
-/
import Mathlib
import OverlayCensus.Proofs.DrawOutcomes
import OverlayCensus.Proofs.OverlayOrder

namespace OverlayCensus.Overlay

open Draws (Leads leads_below leads_between)

variable {costs : DrawRange} {band : DegreeBand} {start o : Overlay} {allowed : ℕ → Finset ℕ}
  {a b m n r tries : ℕ}

/-! ## Plans -/

/-- Links to which a construction can be kept: the ring is among them, and each position has
    enough of them, and not too many. -/
structure Plan (band : DegreeBand) (n : ℕ) (allowed : ℕ → Finset ℕ) : Prop where
  lt : ∀ a < n, ∀ b ∈ allowed a, b < n
  irrefl : ∀ a < n, a ∉ allowed a
  symm : ∀ a < n, ∀ b ∈ allowed a, a ∈ allowed b
  ring : ∀ p ∈ ringPairs n, p.2 ∈ allowed p.1
  enough : ∀ a < n, band.min ≤ (allowed a).card
  room : ∀ a < n, (allowed a).card ≤ band.max

theorem Plan.ne (h : Plan band n allowed) (ha : a < n) (hb : b ∈ allowed a) : a ≠ b := by
  rintro rfl
  exact h.irrefl a ha hb

/-- Distances around a circle of `n`: half of `m` of them are the least ones, half are the greatest
    ones, and if `m` is odd, the distance to the opposite side is one more. -/
def distances (n m : ℕ) : Finset ℕ :=
  (Finset.range n).filter fun r =>
    0 < r ∧ (r ≤ m / 2 ∨ n ≤ r + m / 2 ∨ m % 2 = 1 ∧ 2 * r = n)

theorem mem_distances : r ∈ distances n m ↔
    r < n ∧ 0 < r ∧ (r ≤ m / 2 ∨ n ≤ r + m / 2 ∨ m % 2 = 1 ∧ 2 * r = n) := by
  rw [distances, Finset.mem_filter, Finset.mem_range]

theorem card_distances (hm : m < n) (heven : m * n % 2 = 0) : (distances n m).card = m := by
  have hparity : m % 2 = 0 ∨ n % 2 = 0 := by
    simpa [Nat.even_iff] using Nat.even_mul.1 (Nat.even_iff.2 heven)
  have hsplit : distances n m = (Finset.Ico 1 (m / 2 + 1) ∪ Finset.Ico (n - m / 2) n) ∪
      if m % 2 = 1 then {n / 2} else ∅ := by
    ext r
    rw [mem_distances, Finset.mem_union, Finset.mem_union, Finset.mem_Ico, Finset.mem_Ico]
    split_ifs with hodd
    · rw [Finset.mem_singleton]
      omega
    · simp only [Finset.notMem_empty, or_false]
      omega
  have hsides : Disjoint (Finset.Ico 1 (m / 2 + 1)) (Finset.Ico (n - m / 2) n) := by
    refine Finset.disjoint_left.2 fun r hr hr' => ?_
    rw [Finset.mem_Ico] at hr hr'
    omega
  have hopposite : Disjoint (Finset.Ico 1 (m / 2 + 1) ∪ Finset.Ico (n - m / 2) n)
      (if m % 2 = 1 then {n / 2} else ∅) := by
    refine Finset.disjoint_left.2 fun r hr hr' => ?_
    rw [Finset.mem_union, Finset.mem_Ico, Finset.mem_Ico] at hr
    split_ifs at hr' with hodd
    · rw [Finset.mem_singleton] at hr'
      omega
    · exact absurd hr' (Finset.notMem_empty r)
  rw [hsplit, Finset.card_union_of_disjoint hopposite, Finset.card_union_of_disjoint hsides,
    Nat.card_Ico, Nat.card_Ico]
  split_ifs with hodd
  · rw [Finset.card_singleton]
    omega
  · rw [Finset.card_empty]
    omega

/-- The position at a distance around the circle. -/
def around (n a r : ℕ) : ℕ :=
  if a + r < n then a + r else a + r - n

/-- The positions at the given distances from a position. -/
def circle (n m a : ℕ) : Finset ℕ :=
  (distances n m).image (around n a)

theorem mem_circle : b ∈ circle n m a ↔ ∃ r ∈ distances n m, around n a r = b :=
  Finset.mem_image

theorem card_circle (hm : m < n) (heven : m * n % 2 = 0) (a : ℕ) :
    (circle n m a).card = m := by
  refine (Finset.card_image_of_injOn fun r hr s hs hrs => ?_).trans (card_distances hm heven)
  have hr' := (mem_distances.1 hr).1
  have hs' := (mem_distances.1 hs).1
  simp only [around] at hrs
  split_ifs at hrs <;> omega

example : circle 6 3 4 = {5, 1, 3} := by decide

/-- **A circle is a plan** if its degree lies in the band and leaves room for the ring. -/
theorem plan_circle (hm : m < n) (heven : m * n % 2 = 0) (hring : 0 < m ∧ (2 < n → 2 ≤ m))
    (hband : band.min ≤ m ∧ m ≤ band.max) : Plan band n (circle n m) := by
  have hcard := card_circle hm heven
  have hnext : 1 ∈ distances n m := mem_distances.2 (by omega)
  refine ⟨fun a ha b hb => ?_, fun a ha hself => ?_, fun a ha b hb => ?_, fun p hp => ?_,
    fun a _ => (hcard a).symm ▸ hband.1, fun a _ => (hcard a).symm ▸ hband.2⟩
  · obtain ⟨r, hr, rfl⟩ := mem_circle.1 hb
    have hlt := (mem_distances.1 hr).1
    rw [around]
    split_ifs <;> omega
  · obtain ⟨r, hr, heq⟩ := mem_circle.1 hself
    obtain ⟨hlt, hpos, -⟩ := mem_distances.1 hr
    rw [around] at heq
    split_ifs at heq <;> omega
  · obtain ⟨r, hr, rfl⟩ := mem_circle.1 hb
    obtain ⟨hlt, hpos, hdistance⟩ := mem_distances.1 hr
    -- the way back is the rest of the circle
    refine mem_circle.2 ⟨n - r, mem_distances.2 (by omega), ?_⟩
    simp only [around]
    split_ifs <;> omega
  · refine mem_circle.2 ⟨1, hnext, ?_⟩
    obtain ⟨a, b⟩ := p
    rw [mem_ringPairs] at hp
    simp only [around]
    split_ifs <;> omega

/-- **Every valid request has a plan.** -/
theorem exists_plan (hvalid : validate n band = .ok ()) : ∃ allowed, Plan band n allowed := by
  obtain ⟨hmin, hband, hcount, htwo, heven⟩ := validate_eq_ok_iff.1 hvalid
  by_cases hpair : n = 2
  · exact ⟨circle n 1, plan_circle (by omega) (by omega) (by omega) (by omega)⟩
  · refine ⟨circle n (max band.min 2), plan_circle (by omega) ?_ (by omega) (by omega)⟩
    rcases le_total 2 band.min with hle | hle
    · rwa [max_eq_left hle]
    · rw [max_eq_right hle, Nat.mul_mod_right]

/-! ## Constructions kept to a plan -/

/-- A draft with the ring in it, all of whose links are planned. -/
structure Kept (costs : DrawRange) (start : Overlay) (allowed : ℕ → Finset ℕ) (o : Overlay) :
    Prop extends Laid costs start o where
  within : ∀ a b, o.Adj a b → b ∈ allowed a

namespace Kept

/-- **A vertex in need has a target**: not all planned links are there, and the far end of one that
    is not has not yet got all of its own. -/
theorem exists_target (h : Kept costs start allowed o) (hplan : Plan start.band start.size allowed)
    (ha : a < start.size) (hshort : o.degreeAt a < start.band.min) :
    ∃ b < start.size, b ∈ allowed a ∧ ¬ o.Adj a b ∧ o.degreeAt b < start.band.max := by
  have hcard : (o.targetsAt a).toFinset.card < (allowed a).card := by
    rw [List.toFinset_card_of_nodup (h.simple.nodup a), length_targetsAt]
    exact hshort.trans_le (hplan.enough a ha)
  obtain ⟨b, hb, hnew⟩ := Finset.exists_mem_notMem_of_card_lt_card hcard
  rw [List.mem_toFinset] at hnew
  have hlt := hplan.lt a ha b hb
  refine ⟨b, hlt, hb, hnew, ?_⟩
  have hback := hplan.symm a ha b hb
  calc o.degreeAt b ≤ ((allowed b).erase a).card := h.simple.degreeAt_le fun c hc => by
        refine Finset.mem_erase.2 ⟨?_, h.within b c hc⟩
        rintro rfl
        exact hnew (h.simple.adj_symm hc)
    _ < (allowed b).card := Finset.card_erase_lt_of_mem hback
    _ ≤ start.band.max := hplan.room b hlt

theorem link (h : Kept costs start allowed o) (hplan : Plan start.band start.size allowed)
    (hcosts : costs.lo ≤ costs.hi) (ha : a < start.size) (hb : b < start.size)
    (hallowed : b ∈ allowed a) (hnew : ¬ o.Adj a b)
    (hroom : o.degreeAt a < start.band.max ∧ o.degreeAt b < start.band.max) :
    Kept costs start allowed (o.link a b costs.lo) := by
  have hne := hplan.ne ha hallowed
  have ha' : a < o.size := h.size_eq.symm ▸ ha
  have hb' : b < o.size := h.size_eq.symm ▸ hb
  refine ⟨h.toLaid.link ha' hb' hne hnew ⟨UInt32.le_refl _, hcosts⟩ hroom, fun i j hij => ?_⟩
  rcases (adj_link ha' hb' hne costs.lo).1 hij with hij | ⟨rfl, rfl⟩ | ⟨rfl, rfl⟩
  · exact h.within i j hij
  · exact hallowed
  · exact hplan.symm j ha i hallowed

end Kept

/-! ## Leading a construction -/

/-- A link at a cost, and what follows if it is not refused. -/
def connectThen (o : Overlay) (a b : ℕ)
    (next : Overlay → Draws → Except OverlayError (Overlay × Draws)) (cost : UInt32) (d : Draws) :
    Except OverlayError (Overlay × Draws) :=
  match o.connect a b cost with
  | .ok o => next o d
  | .error e => .error e

/-- A link can be added at any cost in the range. -/
theorem leads_connectThen {o' : Overlay} {cost : UInt32}
    (next : Overlay → Draws → Except OverlayError (Overlay × Draws))
    (hcost : costs.lo ≤ cost ∧ cost ≤ costs.hi) (h : o.connect a b cost = .ok o') :
    Leads (fun d => o.connectThen a b next (d.between costs.lo costs.hi).1
      (d.between costs.lo costs.hi).2) (next o') := by
  have hlinked : o.connectThen a b next cost = next o' := by
    funext d
    rw [connectThen, h]
  exact hlinked ▸ leads_between hcost.1 hcost.2 (o.connectThen a b next)

theorem connectPairs_cons (costs : DrawRange) (a b : ℕ) (rest : List (ℕ × ℕ)) (o : Overlay) :
    connectPairs costs ((a, b) :: rest) o = fun d =>
      o.connectThen a b (connectPairs costs rest) (d.between costs.lo costs.hi).1
        (d.between costs.lo costs.hi).2 :=
  rfl

/-- Pairs that were linked can be linked so again. -/
theorem leads_connectPairs (hcosts : costs.lo ≤ costs.hi) {pairs : List (ℕ × ℕ)} {o' : Overlay}
    {d d' : Draws} (h : connectPairs costs pairs o d = .ok (o', d')) :
    Leads (connectPairs costs pairs o) fun d => .ok (o', d) := by
  induction pairs generalizing o d with
  | nil =>
    cases h
    exact Leads.refl _
  | cons p rest ih =>
    obtain ⟨a, b⟩ := p
    rw [connectPairs_cons] at h ⊢
    cases hconnect : o.connect a b (d.between costs.lo costs.hi).1 with
    | error e => simp [connectThen, hconnect] at h
    | ok linked =>
      simp only [connectThen, hconnect] at h
      exact (leads_connectThen _ (Draws.between_mem hcosts d) hconnect).trans (ih h)

theorem raiseVertex_of_short (hshort : o.degreeAt a < o.band.min) (costs : DrawRange) (tries : ℕ) :
    raiseVertex costs a (tries + 1) o = fun d =>
      if (d.below o.size).1 = a ∨ o.isConnected a (d.below o.size).1 ∨
          o.band.max ≤ o.degreeAt (d.below o.size).1 then
        raiseVertex costs a tries o (d.below o.size).2
      else
        o.connectThen a (d.below o.size).1 (raiseVertex costs a tries)
          ((d.below o.size).2.between costs.lo costs.hi).1
          ((d.below o.size).2.between costs.lo costs.hi).2 := by
  funext d
  rw [raiseVertex_succ, if_pos hshort]
  -- the draws are taken apart first: to compare the loops as they stand is slow
  generalize d.below o.size = drawn
  obtain ⟨target, d⟩ := drawn
  dsimp only
  generalize d.between costs.lo costs.hi = drawn
  obtain ⟨cost, d⟩ := drawn
  rfl

/-- A try can draw any target that is not wasted, and link it. -/
theorem leads_try (hcosts : costs.lo ≤ costs.hi) (hn : o.size ≤ 2 ^ 64) (hb : b < o.size)
    (hshort : o.degreeAt a < o.band.min) (hne : a ≠ b) (hnew : o.isConnected a b = false)
    (hroom : o.degreeAt b < o.band.max) (tries : ℕ) :
    Leads (raiseVertex costs a (tries + 1) o) (raiseVertex costs a tries (o.link a b costs.lo)) := by
  have hgood : ¬ (b = a ∨ o.isConnected a b ∨ o.band.max ≤ o.degreeAt b) := by
    simp [hne.symm, hnew, hroom]
  have hdrawn := leads_below hn hb fun target d =>
    if target = a ∨ o.isConnected a target ∨ o.band.max ≤ o.degreeAt target then
      raiseVertex costs a tries o d
    else
      o.connectThen a target (raiseVertex costs a tries) (d.between costs.lo costs.hi).1
        (d.between costs.lo costs.hi).2
  rw [raiseVertex_of_short hshort]
  refine hdrawn.trans ?_
  simp only [if_neg hgood]
  exact leads_connectThen _ ⟨UInt32.le_refl _, hcosts⟩ (connect_eq_ok_iff.2 ⟨hne, hnew, rfl⟩)

/-- **A vertex can be raised** in as many tries as it lacks links. -/
theorem leads_raiseVertex (hplan : Plan start.band start.size allowed)
    (hcosts : costs.lo ≤ costs.hi) (hband : start.band.min ≤ start.band.max)
    (hn : start.size ≤ 2 ^ 64) (ha : a < start.size) (h : Kept costs start allowed o)
    (htries : start.band.min ≤ o.degreeAt a + tries) :
    ∃ o', Leads (raiseVertex costs a tries o) (fun d => .ok (o', d)) ∧
      Kept costs start allowed o' ∧ start.band.min ≤ o'.degreeAt a ∧
      ∀ i, o.degreeAt i ≤ o'.degreeAt i := by
  induction tries generalizing o with
  | zero => exact ⟨o, Leads.refl _, h, htries, fun _ => le_rfl⟩
  | succ tries ih =>
    by_cases hshort : o.degreeAt a < start.band.min
    · obtain ⟨b, hb, hallowed, hnew, hroom⟩ := h.exists_target hplan ha hshort
      have hne := hplan.ne ha hallowed
      have hlinked := h.link hplan hcosts ha hb hallowed hnew ⟨hshort.trans_le hband, hroom⟩
      have hdegree := degreeAt_link (h.size_eq.symm ▸ ha) (h.size_eq.symm ▸ hb) hne costs.lo
      have htries' : start.band.min ≤ (o.link a b costs.lo).degreeAt a + tries := by
        rw [hdegree, if_pos (Or.inl rfl)]
        omega
      obtain ⟨o', hleads, hkept, hraised, hmono⟩ := ih hlinked htries'
      refine ⟨o', Leads.trans ?_ hleads, hkept, hraised, fun i => ?_⟩
      · have hfree : o.isConnected a b = false :=
          Bool.eq_false_iff.2 fun hab => hnew (h.simple.isConnected_iff.1 hab)
        exact leads_try hcosts (h.size_eq.symm ▸ hn) (h.size_eq.symm ▸ hb)
          (h.band_eq.symm ▸ hshort) hne hfree (h.band_eq.symm ▸ hroom) tries
      · refine le_trans ?_ (hmono i)
        rw [hdegree]
        exact Nat.le_add_right _ _
    · refine ⟨o, ?_, h, not_lt.1 hshort, fun _ => le_rfl⟩
      have hdone : raiseVertex costs a (tries + 1) o = fun d => .ok (o, d) := by
        funext d
        rw [raiseVertex_succ, if_neg (h.band_eq.symm ▸ hshort)]
      rw [hdone]
      exact Leads.refl _

/-- A stage of a construction, and the next one if it is not refused. -/
def stageThen (next : Overlay → Draws → Except OverlayError (Overlay × Draws))
    (stage : Except OverlayError (Overlay × Draws)) : Except OverlayError (Overlay × Draws) :=
  stage.bind fun r => next r.1 r.2

theorem leads_stageThen {stage : Draws → Except OverlayError (Overlay × Draws)}
    (next : Overlay → Draws → Except OverlayError (Overlay × Draws))
    (h : Leads stage fun d => .ok (o, d)) :
    Leads (fun d => stageThen next (stage d)) (next o) :=
  h.map (stageThen next)

theorem raiseAll_cons (costs : DrawRange) (tries a : ℕ) (rest : List ℕ) (o : Overlay) :
    raiseAll costs tries (a :: rest) o = fun d =>
      stageThen (raiseAll costs tries rest) (raiseVertex costs a tries o d) := by
  funext d
  rw [raiseAll]
  rcases raiseVertex costs a tries o d with _ | ⟨_, _⟩ <;> rfl

theorem attempt_eq (costs : DrawRange) (start : Overlay) :
    attempt costs start = fun d =>
      stageThen (raiseAll costs (start.band.min * start.size * 10) (List.range start.size))
        (connectPairs costs (ringPairs start.size) start d) := by
  funext d
  rw [attempt]
  rcases connectPairs costs (ringPairs start.size) start d with _ | ⟨_, _⟩ <;> rfl

/-- **All vertices can be raised**, as links are only added. -/
theorem leads_raiseAll (hplan : Plan start.band start.size allowed)
    (hcosts : costs.lo ≤ costs.hi) (hband : start.band.min ≤ start.band.max)
    (hn : start.size ≤ 2 ^ 64) (htries : start.band.min ≤ tries) (sources : List ℕ)
    (hsources : ∀ a ∈ sources, a < start.size) (h : Kept costs start allowed o) :
    ∃ o', Leads (raiseAll costs tries sources o) (fun d => .ok (o', d)) ∧
      Kept costs start allowed o' ∧ (∀ a ∈ sources, start.band.min ≤ o'.degreeAt a) ∧
      ∀ i, o.degreeAt i ≤ o'.degreeAt i := by
  induction sources generalizing o with
  | nil => exact ⟨o, Leads.refl _, h, by simp, fun _ => le_rfl⟩
  | cons a rest ih =>
    obtain ⟨ha, hrest⟩ := List.forall_mem_cons.1 hsources
    obtain ⟨o₁, hfirst, hkept₁, hraised, hmono₁⟩ :=
      leads_raiseVertex hplan hcosts hband hn ha h (htries.trans (Nat.le_add_left _ _))
    obtain ⟨o₂, hothers, hkept₂, hall, hmono₂⟩ := ih hrest hkept₁
    refine ⟨o₂, Leads.trans ?_ hothers, hkept₂,
      List.forall_mem_cons.2 ⟨hraised.trans (hmono₂ a), hall⟩,
      fun i => (hmono₁ i).trans (hmono₂ i)⟩
    rw [raiseAll_cons]
    exact leads_stageThen _ hfirst

/-- **An attempt can succeed** on every valid request. -/
theorem leads_attempt {es : List EdgeEnd} (hcosts : costs.lo ≤ costs.hi)
    (hvalid : validate es.length band = .ok ()) (hn : es.length ≤ 2 ^ 64) :
    ∃ o, Leads (attempt costs (bare band es)) (fun d => .ok (o, d)) ∧
      Laid costs (bare band es) o ∧ o.verify = .ok () := by
  obtain ⟨hmin, hband, hcount, -⟩ := validate_eq_ok_iff.1 hvalid
  obtain ⟨allowed, hplan⟩ := exists_plan hvalid
  rw [← size_bare band es] at hplan hn hcount
  obtain ⟨ring, d, hring, hlaid, hadj⟩ := ring_eq_ok hcosts hvalid (.ofWords fun _ => 0)
  have hkept : Kept costs (bare band es) allowed ring := by
    refine ⟨hlaid, fun a b hab => ?_⟩
    rcases (hadj a b).1 hab with hp | hp
    · exact hplan.ring _ hp
    · exact hplan.symm b (hlaid.size_eq ▸ (hlaid.simple.lt_size hab)) a (hplan.ring _ hp)
  have htries : band.min ≤ band.min * (bare band es).size * 10 := by
    rw [Nat.mul_assoc]
    exact Nat.le_mul_of_pos_right _ (by omega)
  obtain ⟨o, hraised, hend, hall, -⟩ := leads_raiseAll hplan hcosts hband hn htries
    (List.range (bare band es).size) (fun a ha => List.mem_range.1 ha) hkept
  refine ⟨o, Leads.trans ?_ hraised, hend.toLaid, verify_eq_ok_iff.2 fun a ha => ?_⟩
  · rw [attempt_eq]
    exact leads_stageThen _ (leads_connectPairs hcosts hring)
  · rw [hend.size_eq] at ha
    rw [hend.band_eq]
    exact ⟨hall a (List.mem_range.2 ha), hend.le_max a⟩

/-! ## Every valid request -/

/-- **Every valid request can be met.**  For all peers that differ and every band that is valid for
    their number, some draws make the first attempt succeed; the overlay that is then returned keeps
    all promises, so that a graph of the kind asked for exists. -/
theorem exists_build (settings : BuildSettings) (peers : List (PeerAddress × UInt32))
    (band : DegreeBand) (hvalid : validate peers.length band = .ok ())
    (hattempts : settings.maxAttempts ≠ 0) (hcosts : settings.costs.lo ≤ settings.costs.hi)
    (hpeers : (peers.map Prod.fst).Nodup) (hlength : peers.length ≤ 2 ^ 64) :
    ∃ word o d', attempt settings.costs (bare band (numbered peers)) (.ofWords word) =
        .ok (o, d') ∧ o.verify = .ok () ∧
      build settings peers band (.ofWords word) = .ok (o, d') ∧
      Built settings.costs peers band o := by
  rw [← length_numbered peers] at hlength
  obtain ⟨o, hleads, hlaid, hverify⟩ :=
    leads_attempt hcosts (by rwa [length_numbered]) hlength
  obtain ⟨word, d', hattempt⟩ := hleads.exists_words
  refine ⟨word, o, d', hattempt, hverify, ?_, built_of_laid hlaid hverify⟩
  rw [build_eq_attempts hvalid hattempts hpeers]
  obtain ⟨left, hleft⟩ := Nat.exists_eq_succ_of_ne_zero hattempts
  rw [hleft, attempts, hattempt]
  simp only [hverify]

/-- Six peers, each of which has to be linked to three others. -/
def Sample.six : List (PeerAddress × UInt32) :=
  [(⟨"a", 1⟩, 3), (⟨"a", 2⟩, 0), (⟨"b", 1⟩, 7), (⟨"c", 1⟩, 1), (⟨"c", 2⟩, 9), (⟨"d", 1⟩, 1)]

theorem exists_build_six :
    validate Sample.six.length ⟨3, 3⟩ = .ok () ∧ (Sample.six.map Prod.fst).Nodup ∧
      ∃ word o d', attempt ({ maxAttempts := 1 } : BuildSettings).costs
          (bare ⟨3, 3⟩ (numbered Sample.six)) (.ofWords word) = .ok (o, d') ∧
        o.verify = .ok () ∧
        build { maxAttempts := 1 } Sample.six ⟨3, 3⟩ (.ofWords word) = .ok (o, d') ∧
        Built ({ maxAttempts := 1 } : BuildSettings).costs Sample.six ⟨3, 3⟩ o := by
  have hvalid : validate Sample.six.length ⟨3, 3⟩ = .ok () := by decide
  have hpeers : (Sample.six.map Prod.fst).Nodup := by decide
  exact ⟨hvalid, hpeers, exists_build { maxAttempts := 1 } Sample.six ⟨3, 3⟩ hvalid (by decide)
    (by decide) hpeers (by decide)⟩

end OverlayCensus.Overlay
