/-
  OverlayCensus — whether an overlay hangs together.

  A walk from the first vertex marks every vertex it meets and goes on from each
  newly marked one.  An overlay is reachable if the walk marks all of it.
-/
import OverlayCensus.Overlay.Basic

namespace OverlayCensus.Overlay

/-- Marks position `i`, and puts it on the stack if it was not marked. -/
def mark (state : Array Bool × List Nat) (i : Nat) : Array Bool × List Nat :=
  match state.1[i]? with
  | some false => (state.1.setIfInBounds i true, i :: state.2)
  | _ => state

/-- Goes on from the positions on the stack.  Every position is put there at most
    once, so as many steps as there are vertices empty it. -/
def walk (o : Overlay) : Nat → Array Bool × List Nat → Array Bool
  | steps + 1, (marked, i :: stack) =>
    walk o steps (((o.linksAt i).map Link.target).foldl mark (marked, stack))
  | _, (marked, _) => marked

/-- The marks of all positions that links join to the first one. -/
def reached (o : Overlay) : Array Bool :=
  o.walk o.size (mark (Array.replicate o.size false, []) 0)

/-- Whether every vertex can be reached from the first; so it is in an overlay
    without vertices. -/
def isFullyReachable (o : Overlay) : Bool :=
  o.reached.all id

end OverlayCensus.Overlay
