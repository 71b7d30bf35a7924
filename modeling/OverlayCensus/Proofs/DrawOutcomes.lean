/-
  OverlayCensus — which outcomes can be drawn.

  * `Leads f g`: on some words to begin with, `f` goes on as `g` does after them, so that one
    draw after the other can be chosen;
  * `leads_below`, `leads_between`: every outcome in the range of a draw can be chosen.
-/
import Mathlib
import OverlayCensus.Draws

namespace OverlayCensus.Draws

variable {γ δ : Type} {f g h : Draws → γ} {d : Draws} {w : UInt64} {ws vs : List UInt64}

/-! ## Words to begin with -/

/-- The stream behind so many further words. -/
def skip (d : Draws) (n : ℕ) : Draws :=
  { d with used := d.used + n }

theorem skip_skip (d : Draws) (m n : ℕ) : (d.skip m).skip n = d.skip (m + n) := by
  rw [skip, skip, skip, Nat.add_assoc]

/-- The words that a stream goes on with. -/
def Starts (d : Draws) (ws : List UInt64) : Prop :=
  ∀ (i : ℕ) (hi : i < ws.length), d.word (d.used + i) = ws[i]

theorem starts_append : d.Starts (ws ++ vs) ↔ d.Starts ws ∧ (d.skip ws.length).Starts vs := by
  constructor
  · intro h
    refine ⟨fun i hi => ?_, fun i hi => ?_⟩
    · have hword := h i (by rw [List.length_append]; omega)
      rwa [List.getElem_append_left hi] at hword
    · have hword := h (ws.length + i) (by rw [List.length_append]; omega)
      rw [List.getElem_append_right (Nat.le_add_right _ _)] at hword
      simpa [skip, Nat.add_assoc] using hword
  · rintro ⟨hfirst, hrest⟩ i hi
    rcases lt_or_ge i ws.length with hlt | hge
    · rw [List.getElem_append_left hlt]
      exact hfirst i hlt
    · rw [List.length_append] at hi
      have hword := hrest (i - ws.length) (by omega)
      rw [List.getElem_append_right hge]
      rwa [skip, Nat.add_assoc, Nat.add_sub_cancel' hge] at hword

theorem next_of_starts (h : d.Starts [w]) : d.next = (w, d.skip 1) := by
  rw [next, skip, ← Nat.add_zero d.used, h 0 Nat.one_pos]
  rfl

/-- Any words can come first. -/
theorem exists_starts (ws : List UInt64) : ∃ word, (ofWords word).Starts ws := by
  refine ⟨fun i => ws.getD i 0, fun i hi => ?_⟩
  simp only [ofWords, Nat.zero_add, List.getD_eq_getElem _ _ hi]

/-! ## Choosing draws one after the other -/

/-- On some words to begin with, `f` goes on as `g` does after them. -/
def Leads (f g : Draws → γ) : Prop :=
  ∃ ws : List UInt64, ∀ d, d.Starts ws → f d = g (d.skip ws.length)

namespace Leads

theorem refl (f : Draws → γ) : Leads f f :=
  ⟨[], fun _ _ => rfl⟩

theorem trans (hfg : Leads f g) (hgh : Leads g h) : Leads f h := by
  obtain ⟨ws, hws⟩ := hfg
  obtain ⟨vs, hvs⟩ := hgh
  refine ⟨ws ++ vs, fun d hd => ?_⟩
  obtain ⟨hfirst, hrest⟩ := starts_append.1 hd
  rw [hws d hfirst, hvs _ hrest, skip_skip, List.length_append]

/-- What is done with the outcome goes on likewise. -/
theorem map (hfg : Leads f g) (k : γ → δ) : Leads (fun d => k (f d)) (fun d => k (g d)) := by
  obtain ⟨ws, hws⟩ := hfg
  exact ⟨ws, fun d hd => congrArg k (hws d hd)⟩

/-- So there is a stream on which it does. -/
theorem exists_words (hfg : Leads f g) : ∃ word d, f (ofWords word) = g d := by
  obtain ⟨ws, hws⟩ := hfg
  obtain ⟨word, hword⟩ := exists_starts ws
  exact ⟨word, _, hws _ hword⟩

end Leads

/-! ## Single draws -/

/-- Every outcome has a number that is accepted for it. -/
theorem exists_accepted {w n t : ℕ} (hn : n ≤ 2 ^ w) (ht : t < n) :
    ∃ v < 2 ^ w, v * n % 2 ^ w ≤ zone w n ∧ v * n / 2 ^ w = t := by
  have hpos : 0 < n := Nat.zero_lt_of_lt ht
  -- the first number whose product with `n` is not below `t * 2 ^ w`
  obtain ⟨v, r, hr, hv⟩ : ∃ v r, r < n ∧ v * n = t * 2 ^ w + r := by
    refine ⟨(t * 2 ^ w + (n - 1)) / n, n - 1 - (t * 2 ^ w + (n - 1)) % n, by omega, ?_⟩
    have hdiv := Nat.div_add_mod' (t * 2 ^ w + (n - 1)) n
    have hmod := Nat.mod_lt (t * 2 ^ w + (n - 1)) hpos
    omega
  have hrest : v * n % 2 ^ w = r := by
    rw [hv, Nat.mul_add_mod', Nat.mod_eq_of_lt (hr.trans_le hn)]
  refine ⟨v, ?_, ?_, ?_⟩
  · have hlt : v * n < 2 ^ w * n := by
      calc v * n = t * 2 ^ w + r := hv
        _ < t * 2 ^ w + 2 ^ w := by omega
        _ = (t + 1) * 2 ^ w := by ring
        _ ≤ n * 2 ^ w := Nat.mul_le_mul_right _ ht
        _ = 2 ^ w * n := Nat.mul_comm _ _
    exact Nat.lt_of_mul_lt_mul_right hlt
  · have hzone : n ≤ n * 2 ^ (w - 1 - n.log2) := Nat.le_mul_of_pos_right n (by positivity)
    rw [hrest, zone]
    omega
  · rw [hv, Nat.mul_comm t, Nat.mul_add_div (by positivity), Nat.div_eq_of_lt (hr.trans_le hn),
      Nat.add_zero]

theorem accept_eq {read : Draws → ℕ × Draws} {w n fuel v : ℕ} {d d' : Draws}
    (hread : read d = (v, d')) (hv : v * n % 2 ^ w ≤ zone w n) :
    accept read w n (fuel + 1) d = (v * n / 2 ^ w, d') := by
  rw [accept, hread]
  exact if_pos hv

/-- A draw comes out so on one word, and whatever uses its outcome goes on from there. -/
theorem leads_of_word {α : Type} {draw : Draws → α × Draws} {a : α}
    (hdraw : ∀ d, d.Starts [w] → draw d = (a, d.skip 1)) (k : α → Draws → γ) :
    Leads (fun d => k (draw d).1 (draw d).2) (k a) := by
  refine ⟨[w], fun d hd => ?_⟩
  simp only [hdraw d hd, List.length_singleton]

/-- **Every index can be drawn.** -/
theorem leads_below {n t : ℕ} (hn : n ≤ 2 ^ 64) (ht : t < n) (k : ℕ → Draws → γ) :
    Leads (fun d => k (d.below n).1 (d.below n).2) (k t) := by
  obtain ⟨v, hlt, hzone, houtcome⟩ := exists_accepted hn ht
  refine leads_of_word (w := v.toUInt64) (fun d hd => ?_) k
  have hread : fullWord d = (v, d.skip 1) := by
    rw [fullWord, next_of_starts hd]
    exact congrArg (·, d.skip 1) (UInt64.toNat_ofNat_of_lt' hlt)
  rw [below, patience, accept_eq hread hzone, houtcome]

theorem halfWord_of_starts {v : ℕ} (hv : v < 2 ^ 32) (hd : d.Starts [(v * 2 ^ 32).toUInt64]) :
    halfWord d = (v, d.skip 1) := by
  have hword : (v * 2 ^ 32).toUInt64.toNat = v * 2 ^ 32 :=
    UInt64.toNat_ofNat_of_lt' (by rw [UInt64.size]; omega)
  rw [halfWord, next_of_starts hd]
  exact congrArg (·, d.skip 1) (by rw [hword]; exact Nat.mul_div_cancel v (by positivity))

theorem exists_half_between {lo hi c : UInt32} (hlo : lo ≤ c) (hhi : c ≤ hi) :
    ∃ v : ℕ, ∀ d : Draws, d.Starts [(v * 2 ^ 32).toUInt64] → d.between lo hi = (c, d.skip 1) := by
  rw [UInt32.le_iff_toNat_le] at hlo hhi
  have hbound := hi.toNat_lt
  by_cases hall : hi.toNat - lo.toNat + 1 = 2 ^ 32
  · refine ⟨c.toNat, fun d hd => ?_⟩
    rw [between]
    simp only [hall, if_true, halfWord_of_starts c.toNat_lt hd]
    exact congrArg (·, d.skip 1) (UInt32.ofNat_toNat ..)
  · -- the half word decides the distance from the lower end
    obtain ⟨v, hlt, hzone, houtcome⟩ := exists_accepted (w := 32)
      (n := hi.toNat - lo.toNat + 1) (t := c.toNat - lo.toNat) (by omega) (by omega)
    have hoffset : lo + (c.toNat - lo.toNat).toUInt32 = c := by
      have hback : (c.toNat - lo.toNat).toUInt32.toNat = c.toNat - lo.toNat :=
        UInt32.toNat_ofNat_of_lt' (show _ < 2 ^ 32 by omega)
      rw [← UInt32.toNat_inj, UInt32.toNat_add, hback]
      omega
    refine ⟨v, fun d hd => ?_⟩
    rw [between]
    simp only [hall, if_false, patience, accept_eq (halfWord_of_starts hlt hd) hzone, houtcome,
      hoffset]

/-- **Every number of a range can be drawn from it.** -/
theorem leads_between {lo hi c : UInt32} (hlo : lo ≤ c) (hhi : c ≤ hi)
    (k : UInt32 → Draws → γ) :
    Leads (fun d => k (d.between lo hi).1 (d.between lo hi).2) (k c) := by
  obtain ⟨v, hdrawn⟩ := exists_half_between hlo hhi
  exact leads_of_word hdrawn k

end OverlayCensus.Draws
