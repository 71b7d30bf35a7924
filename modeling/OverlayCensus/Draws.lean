/-
  OverlayCensus — streams of random words and the draws made from them.

  A stream is a sequence of 64-bit words of which some have been used up.  Every
  random decision takes its words from one, so a decision is a function of the
  stream, and a statement over all streams is one over all outcomes.

  * `below n` draws an index, `between lo hi` a 32-bit number from a closed range
    and `coin p` an event of probability `p`; each rejects words that would make
    some outcomes likelier than others;
  * `ofSeed` is the SplitMix64 sequence of a seed.
-/
import OverlayCensus.CoreInstances
import OverlayCensus.Binary64

namespace OverlayCensus

attribute [local instance] corePow

/-- An infinite sequence of words and the number of them already used. -/
structure Draws where
  word : Nat → UInt64
  used : Nat

namespace Draws

/-- The stream that holds the given words in order. -/
def ofWords (word : Nat → UInt64) : Draws := ⟨word, 0⟩

/-- The finalizer of SplitMix64. -/
def scramble (z : UInt64) : UInt64 :=
  let z := (z ^^^ (z >>> 30)) * 0xBF58476D1CE4E5B9
  let z := (z ^^^ (z >>> 27)) * 0x94D049BB133111EB
  z ^^^ (z >>> 31)

/-- The SplitMix64 stream of a seed. -/
def ofSeed (seed : UInt64) : Draws :=
  ofWords fun n => scramble (seed + (n + 1).toUInt64 * 0x9E3779B97F4A7C15)

/-- The next word. -/
def next (d : Draws) : UInt64 × Draws :=
  (d.word d.used, { d with used := d.used + 1 })

/-! ## Uniform draws

A word `v` of `w` bits is turned into `v * n / 2 ^ w`.  It is rejected if
`v * n % 2 ^ w` lies beyond the largest multiple of `n` of the form
`n * 2 ^ k ≤ 2 ^ w`. -/

/-- The largest remainder at which a word of `w` bits is accepted for a draw
    among `n`. -/
def zone (w n : Nat) : Nat :=
  n * 2 ^ (w - 1 - n.log2) - 1

/-- At most this many words are tried for one draw; each is accepted with
    probability at least one half. -/
def patience : Nat := 1024

/-- The first accepted outcome among `n`, of words of `w` bits that `read` takes
    from a stream. -/
def accept (read : Draws → Nat × Draws) (w n : Nat) : Nat → Draws → Nat × Draws
  | 0, d => (0, d)
  | fuel + 1, d =>
    let (v, d) := read d
    if v * n % 2 ^ w ≤ zone w n then (v * n / 2 ^ w, d) else accept read w n fuel d

/-- A full word as a number. -/
def fullWord (d : Draws) : Nat × Draws :=
  let (v, d) := d.next
  (v.toNat, d)

/-- The high half of a word as a number. -/
def halfWord (d : Draws) : Nat × Draws :=
  let (v, d) := d.next
  (v.toNat / 2 ^ (32 : Nat), d)

/-- An index below `n`, each equally likely. -/
def below (n : Nat) (d : Draws) : Nat × Draws :=
  accept fullWord 64 n patience d

/-- A number from `lo` to `hi`, each equally likely.  The range of all 32-bit
    numbers needs no rejection. -/
def between (lo hi : UInt32) (d : Draws) : UInt32 × Draws :=
  let n := hi.toNat - lo.toNat + 1
  if n = 2 ^ (32 : Nat) then
    let (v, d) := d.halfWord
    (v.toUInt32, d)
  else
    let (v, d) := accept halfWord 32 n patience d
    (lo + v.toUInt32, d)

/-- Whether an event of probability `p` occurs.  A certain event uses no word. -/
def coin (p : Binary64) (d : Draws) : Bool × Draws :=
  if p.chance = 2 ^ (64 : Nat) then (true, d)
  else
    let (v, d) := d.next
    (v.toNat < p.chance, d)

/-! ## Outcomes lie in range -/

theorem accept_lt {read : Draws → Nat × Draws} {w n : Nat} (hn : 0 < n)
    (hread : ∀ s, (read s).1 < 2 ^ w) (fuel : Nat) (d : Draws) :
    (accept read w n fuel d).1 < n := by
  induction fuel generalizing d with
  | zero => exact hn
  | succ fuel ih =>
    simp only [accept]
    split
    · have hv := hread d
      exact Nat.div_lt_of_lt_mul (Nat.mul_lt_mul_of_pos_right hv hn)
    · exact ih _

/-- A drawn index is one of the `n` asked for. -/
theorem below_lt {n : Nat} (hn : 0 < n) (d : Draws) : (d.below n).1 < n :=
  accept_lt hn (fun _ => UInt64.toNat_lt _) patience d

theorem halfWord_lt (d : Draws) : d.halfWord.1 < 2 ^ (32 : Nat) :=
  Nat.div_lt_of_lt_mul (UInt64.toNat_lt _)

/-- A drawn number lies in its range, if that is not empty. -/
theorem between_mem {lo hi : UInt32} (h : lo ≤ hi) (d : Draws) :
    lo ≤ (d.between lo hi).1 ∧ (d.between lo hi).1 ≤ hi := by
  rw [UInt32.le_iff_toNat_le] at h
  have hlt := hi.toNat_lt
  simp only [UInt32.le_iff_toNat_le, between]
  split
  · next hall =>
    have hword := (d.halfWord.1.toUInt32).toNat_lt
    dsimp only
    omega
  · have hdrawn := accept_lt (n := hi.toNat - lo.toNat + 1) (by omega) halfWord_lt patience d
    generalize (accept halfWord 32 (hi.toNat - lo.toNat + 1) patience d).1 = v at hdrawn ⊢
    have hv : v.toUInt32.toNat = v := UInt32.toNat_ofNat_of_lt' (show v < 2 ^ (32 : Nat) by omega)
    rw [UInt32.toNat_add, hv]
    omega

end Draws

end OverlayCensus
