/-
  OverlayCensus — hexadecimal digits.

  * `digit` writes a value below 16 in lower case, `value?` reads a digit of
    either case; `value?_digit`: written digits read back;
  * `render` writes the last `k` digits of a number, `take?` reads exactly `k`;
    `take?_render`: what is written reads back, whatever follows it;
  * `renderBytes` writes bytes with two digits each and `readBytes?` reads them.
-/
import OverlayCensus.CoreInstances

namespace OverlayCensus.Hex

attribute [local instance] corePow

/-- The lower-case digit of a value. -/
def digit (d : Nat) : Char :=
  if d < 10 then Char.ofNat (48 + d) else Char.ofNat (87 + d)

/-- The value of a digit. -/
def value? (c : Char) : Option Nat :=
  if '0' ≤ c ∧ c ≤ '9' then some (c.toNat - 48)
  else if 'a' ≤ c ∧ c ≤ 'f' then some (c.toNat - 87)
  else if 'A' ≤ c ∧ c ≤ 'F' then some (c.toNat - 55)
  else none

theorem value?_digit {d : Nat} (h : d < 16) : value? (digit d) = some d := by
  have hall : ∀ e ∈ List.range 16, value? (digit e) = some e := by decide
  exact hall d (List.mem_range.2 h)

/-- The last `k` digits of a number. -/
def render : Nat → Nat → List Char
  | 0, _ => []
  | k + 1, n => render k (n / 16) ++ [digit (n % 16)]

/-- Reads exactly `k` digits behind those already read as `acc`: the number, and
    the rest. -/
def take? : Nat → Nat → List Char → Option (Nat × List Char)
  | 0, acc, cs => some (acc, cs)
  | _ + 1, _, [] => none
  | k + 1, acc, c :: cs =>
    match value? c with
    | some d => take? k (16 * acc + d) cs
    | none => none

theorem take?_append (k m acc : Nat) (cs : List Char) :
    take? (k + m) acc cs = (take? k acc cs).bind fun r => take? m r.1 r.2 := by
  induction k generalizing acc cs with
  | zero => simp [take?]
  | succ k ih =>
    rw [Nat.add_right_comm]
    cases cs with
    | nil => rfl
    | cons c cs =>
      simp only [take?]
      cases value? c with
      | none => rfl
      | some d => exact ih _ _

/-- Written digits read back, whatever follows them. -/
theorem take?_render (k n : Nat) (acc : Nat) (rest : List Char) :
    take? k acc (render k n ++ rest) = some (acc * 16 ^ k + n % 16 ^ k, rest) := by
  induction k generalizing n rest with
  | zero => simp [take?, render, Nat.mod_one]
  | succ k ih =>
    have hd : n % 16 < 16 := Nat.mod_lt _ (by decide)
    have hm : n % (16 ^ k * 16) = 16 * (n / 16 % 16 ^ k) + n % 16 := by
      rw [Nat.mul_comm (16 ^ k), Nat.mod_mul, Nat.add_comm]
    have ha : 16 * (acc * 16 ^ k) = acc * (16 ^ k * 16) := by
      rw [Nat.mul_comm, Nat.mul_assoc]
    rw [render, List.append_assoc, take?_append, ih]
    simp only [Option.bind_some, List.singleton_append, take?, value?_digit hd, Nat.pow_succ,
      Option.some.injEq, Prod.mk.injEq, and_true]
    rw [hm, Nat.mul_add, ha, Nat.add_assoc]

/-! ## Bytes -/

/-- Bytes with two digits each. -/
def renderBytes (bytes : List UInt8) : List Char :=
  bytes.flatMap fun b => render 2 b.toNat

/-- Reads bytes with two digits each, and nothing else. -/
def readBytes? : List Char → Option (List UInt8)
  | [] => some []
  | [_] => none
  | a :: b :: rest =>
    match value? a, value? b, readBytes? rest with
    | some high, some low, some bytes => some ((16 * high + low).toUInt8 :: bytes)
    | _, _, _ => none

end OverlayCensus.Hex
