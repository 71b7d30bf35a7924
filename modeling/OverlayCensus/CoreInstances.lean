/-
  OverlayCensus — the powers and the zero of the core library.

  The program needs the core library only, while its theory is read beside a larger one,
  where `n ^ k` and `List.sum` would find other instances.  A module that makes these local
  instances says the same thing in both places.
-/

namespace OverlayCensus

/-- Powers with natural exponents. -/
@[reducible] def corePow {α : Type} [NatPow α] : Pow α Nat :=
  instPowNat

/-- The zero that sums start from. -/
@[reducible] def coreZero {α : Type} [OfNat α (nat_lit 0)] : Zero α :=
  Zero.ofOfNat0

end OverlayCensus
