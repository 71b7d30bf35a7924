/-
  OverlayCensus — integers in decimal notation.

  * `digits` writes a natural number, `render` and `renderInt` write numbers as
    texts;
  * `readDigits` reads a non-empty run of ASCII digits; `readNat` allows one
    leading `+`, `readInt` one leading `+` or `-`, and both refuse a number
    outside the range they are given;
  * `readDigits_digits`: what is written reads back as the same number.
-/

namespace OverlayCensus.Decimal

/-! ## Digits -/

/-- The character of a digit. -/
def digitChar (d : Nat) : Char :=
  Char.ofNat (48 + d)

/-- The value of an ASCII digit. -/
def digitValue (c : Char) : Option Nat :=
  if '0' ≤ c ∧ c ≤ '9' then some (c.toNat - 48) else none

theorem digitValue_digitChar {d : Nat} (h : d < 10) : digitValue (digitChar d) = some d := by
  match d, h with
  | 0, _ | 1, _ | 2, _ | 3, _ | 4, _ | 5, _ | 6, _ | 7, _ | 8, _ | 9, _ => rfl

theorem digitValue_lt {c : Char} {d : Nat} (h : digitValue c = some d) : d < 10 := by
  unfold digitValue at h
  split at h
  · next hc =>
    have h9 : c.toNat ≤ 57 := hc.2
    simp only [Option.some.injEq] at h
    omega
  · simp at h

/-! ## Writing -/

/-- The decimal digits of a number, without leading zeros. -/
def digits (n : Nat) : List Char :=
  if n < 10 then [digitChar n] else digits (n / 10) ++ [digitChar (n % 10)]

/-- A natural number in decimal. -/
def render (n : Nat) : String :=
  String.ofList (digits n)

/-- An integer in decimal: a minus sign stands before a negative one. -/
def renderInt (n : Int) : String :=
  if n < 0 then "-" ++ render n.natAbs else render n.natAbs

theorem digits_ne_nil (n : Nat) : digits n ≠ [] := by
  unfold digits
  split <;> simp

/-! ## Reading -/

/-- The number that `acc` becomes when digits are appended to it. -/
def appendDigits (acc : Nat) : List Char → Option Nat
  | [] => some acc
  | c :: cs =>
    match digitValue c with
    | some d => appendDigits (10 * acc + d) cs
    | none => none

/-- A non-empty run of digits as a number. -/
def readDigits : List Char → Option Nat
  | [] => none
  | cs => appendDigits 0 cs

/-- Digits behind at most one `+`, for a number below `bound`. -/
def readNat (bound : Nat) (cs : List Char) : Option Nat :=
  let unsigned := match cs with
    | '+' :: rest => rest
    | cs => cs
  match readDigits unsigned with
  | some n => if n < bound then some n else none
  | none => none

/-- Digits behind at most one sign, for an integer from `lo` to `hi`. -/
def readInt (lo hi : Int) (cs : List Char) : Option Int :=
  let value := match cs with
    | '-' :: rest => (readDigits rest).map fun n => -(n : Int)
    | '+' :: rest => (readDigits rest).map fun n => (n : Int)
    | cs => (readDigits cs).map fun n => (n : Int)
  match value with
  | some n => if lo ≤ n ∧ n ≤ hi then some n else none
  | none => none

theorem appendDigits_append (acc : Nat) (xs ys : List Char) :
    appendDigits acc (xs ++ ys) = (appendDigits acc xs).bind fun n => appendDigits n ys := by
  induction xs generalizing acc with
  | nil => rfl
  | cons c xs ih =>
    simp only [List.cons_append, appendDigits]
    cases digitValue c with
    | none => rfl
    | some d => exact ih _

theorem appendDigits_digits (n : Nat) : appendDigits 0 (digits n) = some n := by
  induction n using Nat.strongRecOn with
  | ind n ih =>
    unfold digits
    split
    · next h => simp [appendDigits, digitValue_digitChar h]
    · next h =>
      have hd : n % 10 < 10 := Nat.mod_lt _ (by omega)
      rw [appendDigits_append, ih (n / 10) (by omega)]
      simp only [Option.bind_some, appendDigits, digitValue_digitChar hd, Option.some.injEq]
      omega

/-- A written number reads back as itself. -/
theorem readDigits_digits (n : Nat) : readDigits (digits n) = some n := by
  have h := digits_ne_nil n
  unfold readDigits
  split
  · contradiction
  · exact appendDigits_digits n

/-- Every written character is a digit. -/
theorem digitValue_isSome_of_mem_digits {n : Nat} {c : Char} (h : c ∈ digits n) :
    (digitValue c).isSome := by
  induction n using Nat.strongRecOn with
  | ind n ih =>
    unfold digits at h
    split at h
    · next hn =>
      simp only [List.mem_singleton] at h
      simp [h, digitValue_digitChar hn]
    · next hn =>
      have hd : n % 10 < 10 := Nat.mod_lt _ (by omega)
      rcases List.mem_append.1 h with h | h
      · exact ih _ (by omega) h
      · simp only [List.mem_singleton] at h
        simp [h, digitValue_digitChar hd]

theorem not_mem_digits {c : Char} (h : digitValue c = none) (n : Nat) : c ∉ digits n := by
  intro hc
  have hdigit := digitValue_isSome_of_mem_digits hc
  rw [h] at hdigit
  cases hdigit

end OverlayCensus.Decimal
