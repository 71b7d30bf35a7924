/-
  OverlayCensus — probabilities as 64-bit binary floating-point numbers.

  A number is its 64 bits: one sign bit, eleven exponent bits and 52 fraction
  bits.  Everything here is exact integer arithmetic on those bits.

  * `ofDecimal` rounds a decimal number to the nearest number, a half to the
    even neighbour; `ofText?` reads the notation of the configuration;
  * `shortest` finds the fewest decimal digits that round back to a number, and
    `render` writes them without an exponent;
  * `chance` is the number of 64-bit words below which a coin of this
    probability shows heads.
-/
import OverlayCensus.CoreInstances
import OverlayCensus.Decimal

namespace OverlayCensus

attribute [local instance] corePow

/-- A floating-point number, given by its bits. -/
structure Binary64 where
  bits : UInt64
deriving DecidableEq, Inhabited

namespace Binary64

/-! ## Parts of a number -/

/-- The eleven exponent bits. -/
def exponentBits (x : Binary64) : Nat :=
  x.bits.toNat / 2 ^ (52 : Nat) % 2 ^ (11 : Nat)

/-- The 52 fraction bits. -/
def fractionBits (x : Binary64) : Nat :=
  x.bits.toNat % 2 ^ (52 : Nat)

/-- Whether the sign bit is set. -/
def isNegative (x : Binary64) : Bool :=
  2 ^ (63 : Nat) ≤ x.bits.toNat

/-- Whether the bits stand for no number at all. -/
def isNaN (x : Binary64) : Bool :=
  x.exponentBits = 2047 && x.fractionBits ≠ 0

/-- Whether the bits stand for one of the two infinities. -/
def isInfinite (x : Binary64) : Bool :=
  x.exponentBits = 2047 && x.fractionBits = 0

/-- The integer `m` of the magnitude `m * 2 ^ e` of a finite number. -/
def significand (x : Binary64) : Nat :=
  if x.exponentBits = 0 then x.fractionBits else 2 ^ (52 : Nat) + x.fractionBits

/-- The exponent `e` of the magnitude `m * 2 ^ e` of a finite number, shifted up
    by 1074 so that it is natural. -/
def shiftedExponent (x : Binary64) : Nat :=
  x.exponentBits - 1

/-- The positive zero. -/
def zero : Binary64 := ⟨0⟩

/-- The number one: no fraction, and the exponent zero in the middle of its range. -/
def one : Binary64 := ⟨0x3FF0000000000000⟩

/-- The positive infinity: all bits of the exponent, and no fraction. -/
def infinity : Binary64 := ⟨0x7FF0000000000000⟩

/-- No number: all bits of the exponent, and a fraction. -/
def nan : Binary64 := ⟨0x7FF8000000000000⟩

/-- The same magnitude with the sign bit set. -/
def negated (x : Binary64) : Binary64 :=
  ⟨x.bits ||| 0x8000000000000000⟩

/-! ## Rounding to the nearest number -/

/-- The number nearest to `num / den`, a half going to the even neighbour. -/
def ofRatio (num den : Nat) : Binary64 :=
  if num = 0 ∨ den = 0 then zero
  else
    -- the binary logarithm of the ratio, rounded down, plus 1074
    let guess : Int := (num.log2 : Int) - den.log2
    let reached :=
      if 0 ≤ guess then den * 2 ^ guess.toNat ≤ num else den ≤ num * 2 ^ (-guess).toNat
    let log : Int := if reached then guess else guess - 1
    -- at least 2 ^ -1074 per unit, and 53 bits per significand
    let e : Int := max (log - 52) (-1074)
    let top := num * 2 ^ (-e).toNat
    let bottom := den * 2 ^ e.toNat
    let q := top / bottom
    let r := top % bottom
    let m := if bottom < 2 * r ∨ (bottom = 2 * r ∧ q % 2 = 1) then q + 1 else q
    -- a significand that rounds up to 2 ^ 53 carries into the exponent bits
    let packed := (e + 1074).toNat * 2 ^ (52 : Nat) + m
    if packed < infinity.bits.toNat then ⟨packed.toUInt64⟩ else infinity

/-- The number nearest to `m * 10 ^ e`.  Beyond `10 ^ 400` and below
    `10 ^ -400` the result no longer depends on `e`. -/
def ofDecimal (m : Nat) (e : Int) : Binary64 :=
  if m = 0 then zero
  else if 400 < e then infinity
  else if e + (Decimal.digits m).length < -400 then zero
  else if 0 ≤ e then ofRatio (m * 10 ^ e.toNat) 1
  else ofRatio m (10 ^ (-e).toNat)

/-! ## Order -/

/-- A key that is ordered like the finite numbers and the infinities; the two
    zeros share one. -/
def orderKey (x : Binary64) : Int :=
  let magnitude : Int := (x.bits.toNat % 2 ^ (63 : Nat) : Nat)
  if x.isNegative then -magnitude else magnitude

/-- `x ≤ y`; no comparison with a NaN holds. -/
def le (x y : Binary64) : Bool :=
  !x.isNaN && !y.isNaN && x.orderKey ≤ y.orderKey

/-- Whether a number is a probability. -/
def isProbability (x : Binary64) : Bool :=
  zero.le x && x.le one

/-- The number of 64-bit words that count as heads for a coin of probability
    `x`: none below zero, all `2 ^ 64` from one on, and `x * 2 ^ 64` rounded
    down between them. -/
def chance (x : Binary64) : Nat :=
  if one.le x then 2 ^ (64 : Nat)
  else if x.isNegative || x.isNaN then 0
  else x.significand * 2 ^ (x.shiftedExponent + 64) / 2 ^ (1074 : Nat)

/-! ## Reading -/

/-- The longest run of digits in front, and the rest. -/
def takeDigits (cs : List Char) : List Char × List Char :=
  cs.span fun c => (Decimal.digitValue c).isSome

/-- The exponent part of a number: nothing, or an `e` and a signed integer. -/
def readExponent : List Char → Option Int
  | [] => some 0
  | c :: cs =>
    if c = 'e' ∨ c = 'E' then
      match cs with
      | '-' :: ds => (Decimal.readDigits ds).map fun n => -(n : Int)
      | '+' :: ds => (Decimal.readDigits ds).map fun n => (n : Int)
      | ds => (Decimal.readDigits ds).map fun n => (n : Int)
    else none

/-- Digits with at most one point among them, at least one digit, and an
    exponent part. -/
def readMagnitude (cs : List Char) : Option Binary64 :=
  let (whole, rest) := takeDigits cs
  let (fraction, rest) := match rest with
    | '.' :: more => takeDigits more
    | rest => ([], rest)
  match Decimal.readDigits (whole ++ fraction), readExponent rest with
  | some m, some e => some (ofDecimal m (e - fraction.length))
  | _, _ => none

/-- The names of the values that are not finite, in lower case. -/
def named (word : String) : Option Binary64 :=
  if word = "inf" ∨ word = "infinity" then some infinity
  else if word = "nan" then some nan
  else none

/-- A number behind at most one sign: a decimal number or, in any case of
    letters, `inf`, `infinity` or `nan`. -/
def ofText? (s : String) : Option Binary64 :=
  let (negative, cs) := match s.toList with
    | '-' :: rest => (true, rest)
    | '+' :: rest => (false, rest)
    | cs => (false, cs)
  let magnitude := match named (String.ofList (cs.map Char.toLower)) with
    | some x => some x
    | none => readMagnitude cs
  if negative then magnitude.map negated else magnitude

/-! ## Writing -/

/-- The nearest of the two neighbours of `top / bottom` on the grid of integers
    that lies between `low / bottom` and `high / bottom`, the ends included iff
    `closed`; a tie goes up. -/
def nearestWithin (top bottom low high : Nat) (closed : Bool) : Option Nat :=
  let q := top / bottom
  let inside := fun n =>
    if closed then low ≤ n * bottom ∧ n * bottom ≤ high
    else low < n * bottom ∧ n * bottom < high
  if inside q ∧ (2 * (top % bottom) < bottom ∨ ¬ inside (q + 1)) then some q
  else if inside (q + 1) then some (q + 1)
  else none

/-- The first grid `10 ^ k`, from `k` downwards, on which a neighbour of the
    number reads back as it: the digits, and `k`.  All quantities are in units
    of `2 ^ -1076`. -/
def shortestFrom (value low high : Nat) (closed : Bool) : Nat → Int → Nat × Int
  | 0, k => (0, k)
  | fuel + 1, k =>
    let up := 10 ^ (-k).toNat
    let bottom := 2 ^ (1076 : Nat) * 10 ^ k.toNat
    match nearestWithin (value * up) bottom (low * up) (high * up) closed with
    | some digits => (digits, k)
    | none => shortestFrom value low high closed fuel (k - 1)

/-- The fewest digits `d`, and an exponent `k`, such that `d * 10 ^ k` rounds to
    the magnitude of a finite number other than zero: of two such decimals the
    nearer. -/
def shortest (x : Binary64) : Nat × Int :=
  let scale := 2 ^ x.shiftedExponent
  let value := 4 * x.significand * scale
  let high := (4 * x.significand + 2) * scale
  -- below a power of two the numbers lie twice as dense
  let low :=
    if x.fractionBits = 0 ∧ 1 < x.exponentBits then (4 * x.significand - 1) * scale
    else (4 * x.significand - 2) * scale
  -- from a grid too coarse for any finite number; 17 digits always suffice
  shortestFrom value low high (x.significand % 2 = 0) 700 309

/-- `d * 10 ^ k` without an exponent. -/
def renderPositional (d : Nat) (k : Int) : String :=
  let ds := Decimal.digits d
  if 0 ≤ k then String.ofList (ds ++ List.replicate k.toNat '0')
  else
    let places := (-k).toNat
    let padded := List.replicate (places + 1 - ds.length) '0' ++ ds
    let whole := padded.length - places
    String.ofList (padded.take whole ++ '.' :: padded.drop whole)

/-- A number in its fewest digits, without an exponent. -/
def render (x : Binary64) : String :=
  if x.isNaN then "NaN"
  else
    let sign := if x.isNegative then "-" else ""
    if x.isInfinite then sign ++ "inf"
    else if x.significand = 0 then sign ++ "0"
    else
      let (d, k) := x.shortest
      sign ++ renderPositional d k

end Binary64

end OverlayCensus
