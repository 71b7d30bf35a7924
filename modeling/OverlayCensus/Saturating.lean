/-
  OverlayCensus — signed 32-bit counts that stop at their bounds.

  `satAdd` adds and stays within the range instead of wrapping; `toInt_satAdd` is
  its value, and `toInt_satAdd_of_le` says that it is the sum wherever that fits.
-/
import OverlayCensus.CoreInstances

namespace OverlayCensus

attribute [local instance] corePow

/-- The integer in the range of signed 32-bit numbers nearest to `n`. -/
def clampInt (n : Int) : Int :=
  max (-2 ^ (31 : Nat)) (min n (2 ^ (31 : Nat) - 1))

/-- The signed 32-bit number nearest to an integer. -/
def Int32.nearest (n : Int) : Int32 :=
  Int32.ofInt (clampInt n)

/-- The sum, or the bound that it passes. -/
def Int32.satAdd (a b : Int32) : Int32 :=
  Int32.nearest (a.toInt + b.toInt)

theorem toInt_nearest (n : Int) : (Int32.nearest n).toInt = clampInt n := by
  unfold Int32.nearest
  refine Int32.toInt_ofInt_of_le ?_ ?_ <;> unfold clampInt <;> omega

theorem toInt_satAdd (a b : Int32) :
    (Int32.satAdd a b).toInt = clampInt (a.toInt + b.toInt) :=
  toInt_nearest _

/-- Where the sum fits, it is the sum. -/
theorem toInt_satAdd_of_le {a b : Int32} (hlo : -2 ^ (31 : Nat) ≤ a.toInt + b.toInt)
    (hhi : a.toInt + b.toInt < 2 ^ (31 : Nat)) : (Int32.satAdd a b).toInt = a.toInt + b.toInt := by
  rw [toInt_satAdd]
  unfold clampInt
  omega

end OverlayCensus
