/-
  OverlayCensus — the table of distances to metrics.

  An entry says how many hops away the nearest known holder of a metric is, and
  which neighbours lead there.  Distances only shrink and holders only accumulate,
  so the order in which advertisements arrive does not matter.

  * `merge` folds in one triple, `mergeAdvertised` what a neighbour advertises, one
    hop further away;
  * `holdersWithin` are the neighbours to ask for a metric.
-/
import OverlayCensus.Cache
import OverlayCensus.Gossip.Key
import OverlayCensus.PeerSet

namespace OverlayCensus

/-- A metric, the least distance heard of, and who told about the metric. -/
structure DistanceEntry where
  name : String
  distance : UInt32
  holders : PeerSet
deriving DecidableEq

/-- Folds in one report; tells whether the distance shrank or the holder is new. -/
def DistanceEntry.merge (e : DistanceEntry) (distance : UInt32) (holder : PeerAddress) :
    Bool × DistanceEntry :=
  (holder ∉ e.holders || distance < e.distance,
    { e with distance := min e.distance distance, holders := e.holders.insert holder })

/-- Folds a report into the entry under a key, which is opened if there is none;
    tells whether anything changed. -/
def Cache.putDistance {κ : Type} [DecidableEq κ] (c : Cache κ DistanceEntry) (k : κ)
    (name : String) (distance : UInt32) (holder : PeerAddress) : Bool × Cache κ DistanceEntry :=
  c.upsert k ⟨name, distance, .single holder⟩ fun e => e.merge distance holder

/-- One more hop; the largest distance stays. -/
def nextHop (distance : UInt32) : UInt32 :=
  if distance = 0xFFFFFFFF then distance else distance + 1

/-- The distances that a peer knows, each filed under the key of its name. -/
@[ext] structure DistanceTable where
  cache : Cache Uuid DistanceEntry
  keyed : ∀ e ∈ cache.entries, e.1 = Gossip.nameKey e.2.name

namespace DistanceTable

/-- The table without entries. -/
def empty (capacity : Nat) : DistanceTable := ⟨.empty capacity, by simp⟩

theorem keyed_putDistance {c : Cache Uuid DistanceEntry}
    (h : ∀ e ∈ c.entries, e.1 = Gossip.nameKey e.2.name) (name : String) (distance : UInt32)
    (holder : PeerAddress) :
    ∀ e ∈ (c.putDistance (Gossip.nameKey name) name distance holder).2.entries,
      e.1 = Gossip.nameKey e.2.name := by
  intro e he
  rcases Cache.mem_entries_upsert he with he | rfl | ⟨v, hv, rfl⟩
  · exact h e he
  · rfl
  · exact h (Gossip.nameKey name, v) hv

/-- Folds in one report; tells whether the table changed. -/
def merge (t : DistanceTable) (name : String) (distance : UInt32) (holder : PeerAddress) :
    Bool × DistanceTable :=
  let written := t.cache.putDistance (Gossip.nameKey name) name distance holder
  (written.1, ⟨written.2, keyed_putDistance t.keyed name distance holder⟩)

/-- Folds in what a neighbour advertises: the neighbour holds every name, one hop
    further away.  Tells whether the table changed. -/
def mergeAdvertised (t : DistanceTable) (sender : PeerAddress) :
    List (String × UInt32) → Bool × DistanceTable
  | [] => (false, t)
  | (name, distance) :: rest =>
    let (changed, t) := t.merge name (nextHop distance) sender
    let (later, t) := t.mergeAdvertised sender rest
    (changed || later, t)

/-- The holders of a name that is less than `limit` hops away.  Asking marks the
    entry as used. -/
def holdersWithin (t : DistanceTable) (name : String) (limit : UInt32) :
    List PeerAddress × DistanceTable :=
  let read := t.cache.touch (Gossip.nameKey name)
  let holders := match read.1 with
    | some e => if e.distance < limit then e.holders.toList else []
    | none => []
  (holders, ⟨read.2, fun e he => t.keyed e (Cache.mem_entries_touch he)⟩)

/-- Drops every entry that lists a holder; tells how many those are. -/
def forgetHolder (t : DistanceTable) (holder : PeerAddress) : Nat × DistanceTable :=
  let kept := t.cache.retain fun e => holder ∉ e.holders
  (kept.1, ⟨kept.2, fun e he => t.keyed e (Cache.mem_entries_retain.1 he).1⟩)

/-- All entries, most recently used first. -/
def entries (t : DistanceTable) : List DistanceEntry :=
  t.cache.values

/-- The names and distances to tell the neighbours. -/
def advertisement (t : DistanceTable) : List (String × UInt32) :=
  t.entries.map fun e => (e.name, e.distance)

/-- The number of entries. -/
def size (t : DistanceTable) : Nat :=
  t.cache.size

end DistanceTable

end OverlayCensus
