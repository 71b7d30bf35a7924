/-
  OverlayCensus — which texts are read as numbers.

  * `Numeral`: digits and the number that they stand for; `Unsigned` and `Signed` allow a sign
    in front;
  * `readNat_eq_some_iff`, `readInt_eq_some_iff`: numbers are read from these texts, and from no
    others;
  * `numeral_digits`, `signed_renderInt`: written numbers are such texts.
-/
import Mathlib
import OverlayCensus.Proofs.AddressText

namespace OverlayCensus.Decimal

/-- Digits that stand for a number, the most significant first. -/
structure Numeral (ds : List Char) (n : ℕ) : Prop where
  ne_nil : ds ≠ []
  isDigit : ∀ c ∈ ds, c.isDigit = true
  value : Nat.ofDigitChars 10 ds 0 = n

/-- A number in digits, perhaps behind a plus sign. -/
inductive Unsigned : List Char → ℕ → Prop
  | bare {ds : List Char} {n : ℕ} : Numeral ds n → Unsigned ds n
  | plus {ds : List Char} {n : ℕ} : Numeral ds n → Unsigned ('+' :: ds) n

/-- A number in digits, perhaps behind a sign. -/
inductive Signed : List Char → ℤ → Prop
  | unsigned {cs : List Char} {n : ℕ} : Unsigned cs n → Signed cs n
  | minus {ds : List Char} {n : ℕ} : Numeral ds n → Signed ('-' :: ds) (-n)

variable {c : Char} {cs ds : List Char} {acc d n bound : ℕ} {z lo hi : ℤ}

/-! ## Digits -/

theorem digitValue_eq_some_iff :
    digitValue c = some d ↔ c.isDigit = true ∧ c.toNat - '0'.toNat = d := by
  have hdigit : c.isDigit = true ↔ '0' ≤ c ∧ c ≤ '9' := by
    rw [Char.isDigit, Bool.and_eq_true, decide_eq_true_eq, decide_eq_true_eq]
    rfl
  rw [digitValue, hdigit]
  split_ifs with h <;> simp [h]

theorem isSome_digitValue : (digitValue c).isSome = c.isDigit := by
  rw [Bool.eq_iff_iff, Option.isSome_iff_exists]
  simp [digitValue_eq_some_iff]

theorem appendDigits_eq_some_iff : appendDigits acc cs = some n ↔
    (∀ c ∈ cs, c.isDigit = true) ∧ Nat.ofDigitChars 10 cs acc = n := by
  induction cs generalizing acc with
  | nil => simp [appendDigits]
  | cons c cs ih =>
    rw [appendDigits, List.forall_mem_cons, Nat.ofDigitChars_cons]
    split
    · next d hd =>
      obtain ⟨hc, rfl⟩ := digitValue_eq_some_iff.1 hd
      rw [ih, and_iff_right hc]
    · next hnone =>
      have hc : c.isDigit = false := by rw [← isSome_digitValue, hnone, Option.isSome_none]
      simp [hc]

theorem readDigits_eq_some_iff : readDigits cs = some n ↔ Numeral cs n := by
  cases cs with
  | nil => exact ⟨nofun, fun h => absurd rfl h.ne_nil⟩
  | cons c cs =>
    change appendDigits 0 (c :: cs) = some n ↔ _
    rw [appendDigits_eq_some_iff]
    exact ⟨fun h => ⟨List.cons_ne_nil _ _, h.1, h.2⟩, fun h => ⟨h.isDigit, h.value⟩⟩

/-! ## Signs -/

theorem Numeral.head_ne (h : Numeral cs n) {sign : Char} (hsign : sign.isDigit = false) :
    cs ≠ sign :: ds := by
  rintro rfl
  rw [h.isDigit sign List.mem_cons_self] at hsign
  cases hsign

theorem unsigned_plus_iff : Unsigned ('+' :: ds) n ↔ Numeral ds n := by
  constructor
  · rintro (h | h)
    · exact absurd rfl (h.head_ne rfl)
    · exact h
  · exact .plus

theorem unsigned_iff (hplus : ∀ ds, cs ≠ '+' :: ds) : Unsigned cs n ↔ Numeral cs n := by
  constructor
  · rintro (h | h)
    · exact h
    · exact absurd rfl (hplus _)
  · exact .bare

/-- **Natural numbers are read** from digits behind at most a plus sign, if they are below the
    bound. -/
theorem readNat_eq_some_iff : readNat bound cs = some n ↔ Unsigned cs n ∧ n < bound := by
  unfold readNat
  split <;> dsimp only
  · next ds =>
    rw [unsigned_plus_iff, ← readDigits_eq_some_iff]
    cases readDigits ds <;> grind
  · next hplus =>
    rw [unsigned_iff hplus, ← readDigits_eq_some_iff]
    cases readDigits cs <;> grind

theorem signed_minus_iff : Signed ('-' :: ds) z ↔ ∃ n, Numeral ds n ∧ -(n : ℤ) = z := by
  constructor
  · rintro ((h | h) | h)
    · exact absurd rfl (h.head_ne rfl)
    · exact ⟨_, h, rfl⟩
  · rintro ⟨n, h, rfl⟩
    exact .minus h

theorem signed_iff (hminus : ∀ ds, cs ≠ '-' :: ds) :
    Signed cs z ↔ ∃ n, Unsigned cs n ∧ (n : ℤ) = z := by
  constructor
  · rintro (h | h)
    · exact ⟨_, h, rfl⟩
    · exact absurd rfl (hminus _)
  · rintro ⟨n, h, rfl⟩
    exact .unsigned h

/-- **Integers are read** from digits behind at most one sign, if they lie in the range. -/
theorem readInt_eq_some_iff : readInt lo hi cs = some z ↔ Signed cs z ∧ lo ≤ z ∧ z ≤ hi := by
  unfold readInt
  split <;> dsimp only
  · next ds =>
    simp only [signed_minus_iff, ← readDigits_eq_some_iff]
    cases readDigits ds <;> grind
  · next ds =>
    rw [signed_iff (by simp)]
    simp only [unsigned_plus_iff, ← readDigits_eq_some_iff]
    cases readDigits ds <;> grind
  · next hminus hplus =>
    rw [signed_iff hminus]
    simp only [unsigned_iff hplus, ← readDigits_eq_some_iff]
    cases readDigits cs <;> grind

/-! ## Written numbers -/

theorem numeral_digits (n : ℕ) : Numeral (digits n) n :=
  readDigits_eq_some_iff.1 (readDigits_digits n)

theorem toList_render (n : ℕ) : (render n).toList = digits n :=
  String.toList_ofList

theorem signed_renderInt (z : ℤ) : Signed (renderInt z).toList z := by
  have hnumeral := numeral_digits z.natAbs
  rw [renderInt]
  split_ifs with hneg
  · have hz : -(z.natAbs : ℤ) = z := by omega
    have hminus := Signed.minus hnumeral
    rw [hz] at hminus
    rwa [String.toList_append, toList_render]
  · have hz : (z.natAbs : ℤ) = z := by omega
    have hplain := Signed.unsigned (.bare hnumeral)
    rw [hz] at hplain
    rwa [toList_render]

end OverlayCensus.Decimal
