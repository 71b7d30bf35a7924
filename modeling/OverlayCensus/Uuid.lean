/-
  OverlayCensus — 128-bit identifiers.

  * `render` writes the canonical form: lower-case digits in groups of 8, 4, 4, 4
    and 12;
  * `ofText?` reads that form in any case of letters, plain, in braces or behind
    `urn:uuid:`, and also 32 digits without hyphens;
  * `ofText?_render`: the canonical form reads back.
-/
import OverlayCensus.CoreInstances
import OverlayCensus.Text.Hex

namespace OverlayCensus

attribute [local instance] corePow

/-- An identifier, as a number of 128 bits. -/
structure Uuid where
  bits : BitVec 128
deriving DecidableEq, Hashable, Inhabited, Repr

namespace Uuid

/-- The identifier of a number, modulo `2 ^ 128`. -/
def ofNat (n : Nat) : Uuid := ⟨BitVec.ofNat 128 n⟩

/-- The number that an identifier is. -/
def toNat (u : Uuid) : Nat := u.bits.toNat

/-- The identifier whose bytes are given, the most significant first. -/
def ofBytes (bytes : List UInt8) : Uuid :=
  ofNat (bytes.foldl (fun acc b => 256 * acc + b.toNat) 0)

@[simp] theorem ofNat_toNat (u : Uuid) : ofNat u.toNat = u := by
  simp [ofNat, toNat]

instance : Ord Uuid where
  compare a b := compare a.toNat b.toNat

/-! ## Written forms -/

/-- The canonical form, in characters. -/
def renderChars (u : Uuid) : List Char :=
  Hex.render 8 (u.toNat / 16 ^ (24 : Nat)) ++
    '-' :: (Hex.render 4 (u.toNat / 16 ^ (20 : Nat)) ++
      '-' :: (Hex.render 4 (u.toNat / 16 ^ (16 : Nat)) ++
        '-' :: (Hex.render 4 (u.toNat / 16 ^ (12 : Nat)) ++ '-' :: Hex.render 12 u.toNat)))

/-- The canonical form. -/
def render (u : Uuid) : String :=
  String.ofList u.renderChars

/-- Reads a hyphen. -/
def hyphen? : List Char → Option (List Char)
  | '-' :: cs => some cs
  | _ => none

/-- Reads five groups of digits with hyphens between them, and nothing else. -/
def readHyphenated (cs : List Char) : Option Uuid := do
  let (a, cs) ← Hex.take? 8 0 cs
  let (b, cs) ← Hex.take? 4 a (← hyphen? cs)
  let (c, cs) ← Hex.take? 4 b (← hyphen? cs)
  let (d, cs) ← Hex.take? 4 c (← hyphen? cs)
  let (n, cs) ← Hex.take? 12 d (← hyphen? cs)
  if cs.isEmpty then some (ofNat n) else none

/-- Reads 32 digits, and nothing else. -/
def readPlain (cs : List Char) : Option Uuid := do
  let (n, cs) ← Hex.take? 32 0 cs
  if cs.isEmpty then some (ofNat n) else none

/-- Drops a prefix, whatever the case of its letters. -/
def dropPrefix? : List Char → List Char → Option (List Char)
  | [], cs => some cs
  | p :: ps, c :: cs => if c.toLower = p then dropPrefix? ps cs else none
  | _ :: _, [] => none

/-- Reads hyphenated digits behind a `urn:uuid:`. -/
def readUrn (cs : List Char) : Option Uuid :=
  (dropPrefix? ['u', 'r', 'n', ':', 'u', 'u', 'i', 'd', ':'] cs).bind readHyphenated

/-- Reads hyphenated digits in braces. -/
def readBraced : List Char → Option Uuid
  | '\x7b' :: cs =>
    if cs.getLast? = some '\x7d' then readHyphenated cs.dropLast else none
  | _ => none

/-- Reads any of the four written forms. -/
def readChars (cs : List Char) : Option Uuid :=
  readHyphenated cs <|> readPlain cs <|> readBraced cs <|> readUrn cs

/-- Reads an identifier. -/
def ofText? (s : String) : Option Uuid :=
  readChars s.toList

/-- The digits in front of position `m + k`, followed by `k` more, are those in
    front of position `m`. -/
theorem front_append (n m k : Nat) :
    n / 16 ^ (m + k) * 16 ^ k + n / 16 ^ m % 16 ^ k = n / 16 ^ m := by
  rw [Nat.pow_add, ← Nat.div_div_eq_div_mul]
  exact Nat.div_add_mod' _ _

theorem readHyphenated_renderChars (u : Uuid) : readHyphenated u.renderChars = some u := by
  have hfirst : u.toNat / 16 ^ (24 : Nat) % 16 ^ (8 : Nat) = u.toNat / 16 ^ (24 : Nat) := by
    refine Nat.mod_eq_of_lt (Nat.div_lt_of_lt_mul ?_)
    rw [← Nat.pow_add]
    exact Nat.lt_of_lt_of_eq u.bits.isLt (by decide)
  have hlast : Hex.take? 12 (u.toNat / 16 ^ (12 : Nat)) (Hex.render 12 u.toNat) =
      some (u.toNat, []) := by
    have h := Hex.take?_render 12 u.toNat (u.toNat / 16 ^ (12 : Nat)) []
    rwa [List.append_nil, Nat.div_add_mod'] at h
  simp only [readHyphenated, renderChars, Hex.take?_render, hyphen?, Option.bind_eq_bind,
    Option.bind_some, Nat.zero_mul, Nat.zero_add, hfirst, front_append u.toNat 20 4,
    front_append u.toNat 16 4, front_append u.toNat 12 4, hlast, List.isEmpty_nil, if_true,
    ofNat_toNat]

/-- The canonical form reads back. -/
theorem ofText?_render (u : Uuid) : ofText? u.render = some u := by
  simp [ofText?, render, readChars, readHyphenated_renderChars]

end Uuid

end OverlayCensus
