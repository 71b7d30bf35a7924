/-
  OverlayCensus — the table of which peer holds which metric.

  A location that would push another out of a full table is skipped now and then,
  so that a table too small for all locations still changes slowly instead of all
  the time.  The table carries the probability of a skip and the coins for it.
-/
import OverlayCensus.Cache
import OverlayCensus.Gossip.Key

namespace OverlayCensus

/-- A metric and a peer that has it. -/
structure Location where
  holder : PeerAddress
  name : String
deriving DecidableEq, Repr

/-- The key under which a location is filed. -/
def Location.key (l : Location) : Uuid :=
  Gossip.locationKey l.holder l.name

/-- The locations that a peer knows, each filed under its key. -/
structure LocationTable where
  cache : Cache Uuid Location
  skip : Binary64
  coins : Draws
  keyed : ∀ e ∈ cache.entries, e.1 = e.2.key

namespace LocationTable

/-- The table without entries. -/
def empty (capacity : Nat) (skip : Binary64) (coins : Draws) : LocationTable :=
  ⟨.empty capacity, skip, coins, by simp⟩

theorem keyed_putSkipping {c : Cache Uuid Location} (h : ∀ e ∈ c.entries, e.1 = e.2.key)
    (l : Location) (p : Binary64) (d : Draws) :
    ∀ e ∈ (c.putSkipping l.key l p d).2.1.entries, e.1 = e.2.key := by
  intro e he
  rcases Cache.mem_entries_putSkipping he with rfl | he
  · rfl
  · exact h e he

/-- Notes a location; tells whether it is new in the table. -/
def merge (t : LocationTable) (l : Location) : Bool × LocationTable :=
  let written := t.cache.putSkipping l.key l t.skip t.coins
  (written.1,
    ⟨written.2.1, t.skip, written.2.2, keyed_putSkipping t.keyed l t.skip t.coins⟩)

/-- Notes locations in order; tells whether any is new in the table. -/
def mergeAll (t : LocationTable) : List Location → Bool × LocationTable
  | [] => (false, t)
  | l :: rest =>
    let (new, t) := t.merge l
    let (later, t) := t.mergeAll rest
    (new || later, t)

/-- All locations, most recently used first. -/
def entries (t : LocationTable) : List Location :=
  t.cache.values

/-- The peers that have a metric, the most recently used location first. -/
def holdersOf (t : LocationTable) (name : String) : List PeerAddress :=
  (t.entries.filter fun l => l.name = name).map Location.holder

/-- Drops every location at a holder; tells how many those are. -/
def forgetHolder (t : LocationTable) (holder : PeerAddress) : Nat × LocationTable :=
  let kept := t.cache.retain fun l => l.holder ≠ holder
  (kept.1,
    ⟨kept.2, t.skip, t.coins, fun e he => t.keyed e (Cache.mem_entries_retain.1 he).1⟩)

/-- The number of locations. -/
def size (t : LocationTable) : Nat :=
  t.cache.size

end LocationTable

end OverlayCensus
