/-
  OverlayCensus — bounded caches in linked slots.

  A cache that answers like a `Cache` without walking its entries.  They stand in the
  slots of an array; each slot is linked to that of the entry used just after it and
  to that of the entry used just before it, and an index finds the slot of a key.  A
  full cache reuses the slot of the entry that it pushes out, and a removal moves the
  last slot into the gap, so that the slots in use are always the first ones.

  * `unlink` and `pushFront` are the two steps of which every change of order is
    made, `vacate` closes a gap;
  * `entries` follows the links from the most to the least recently used entry.
-/
import Std.Data.HashMap
import OverlayCensus.Gossip.DistanceTable
import OverlayCensus.Gossip.QueryLog

namespace OverlayCensus

/-- An entry, and the slots of its neighbours in order of use. -/
structure Slot (κ ν : Type) where
  key : κ
  value : ν
  /-- The slot of the entry used just after this one. -/
  newer : Option Nat
  /-- The slot of the entry used just before this one. -/
  older : Option Nat

/-- A cache in linked slots. -/
structure SlotCache (κ ν : Type) [BEq κ] [Hashable κ] where
  slots : Array (Slot κ ν)
  /-- The slot of every key. -/
  index : Std.HashMap κ Nat
  /-- The slot of the most recently used entry. -/
  newest : Option Nat
  /-- The slot of the least recently used entry. -/
  oldest : Option Nat
  capacity : Nat

namespace SlotCache

variable {κ ν : Type} [BEq κ] [Hashable κ]

/-- The cache without entries.  It has room for at least one. -/
def empty (capacity : Nat) : SlotCache κ ν :=
  ⟨#[], ∅, none, none, max capacity 1⟩

/-! ## Looking -/

/-- The number of entries. -/
def size (c : SlotCache κ ν) : Nat :=
  c.index.size

/-- Whether a new key would push one out. -/
def isFull (c : SlotCache κ ν) : Bool :=
  c.capacity ≤ c.size

/-- Whether a key has a value. -/
def contains (c : SlotCache κ ν) (k : κ) : Bool :=
  c.index.contains k

/-- The value in a slot. -/
def valueAt (c : SlotCache κ ν) (i : Nat) : Option ν :=
  c.slots[i]?.map Slot.value

/-- The value under a key.  The order of use stays. -/
def get? (c : SlotCache κ ν) (k : κ) : Option ν :=
  c.index[k]?.bind c.valueAt

/-- The entries from a slot on, at most `fuel` of them. -/
def follow (slots : Array (Slot κ ν)) : Nat → Option Nat → List (κ × ν)
  | fuel + 1, some i =>
    match slots[i]? with
    | some s => (s.key, s.value) :: follow slots fuel s.older
    | none => []
  | _, _ => []

/-- All entries, most recently used first. -/
def entries (c : SlotCache κ ν) : List (κ × ν) :=
  follow c.slots c.slots.size c.newest

/-! ## Links -/

/-- Changes a slot. -/
def change (c : SlotCache κ ν) (i : Nat) (f : Slot κ ν → Slot κ ν) : SlotCache κ ν :=
  { c with slots := c.slots.modify i f }

/-- Writes what is older than a slot, or what is the newest if there is no slot. -/
def setOlder (c : SlotCache κ ν) (spot link : Option Nat) : SlotCache κ ν :=
  match spot with
  | some i => c.change i fun s => { s with older := link }
  | none => { c with newest := link }

/-- Writes what is newer than a slot, or what is the oldest if there is no slot. -/
def setNewer (c : SlotCache κ ν) (spot link : Option Nat) : SlotCache κ ν :=
  match spot with
  | some i => c.change i fun s => { s with newer := link }
  | none => { c with oldest := link }

/-- Takes a slot out of the order: its neighbours are linked to each other. -/
def unlink (c : SlotCache κ ν) (i : Nat) : SlotCache κ ν :=
  match c.slots[i]? with
  | none => c
  | some s =>
    ((c.setOlder s.newer s.older).setNewer s.older s.newer).change i fun s =>
      { s with newer := none, older := none }

/-- Puts a slot that is out of the order in front.  Without an oldest slot it becomes that
    too. -/
def pushFront (c : SlotCache κ ν) (i : Nat) : SlotCache κ ν :=
  let placed := c.change i fun s => { s with newer := none, older := c.newest }
  let linked :=
    match c.newest with
    | some first => placed.change first fun s => { s with newer := some i }
    | none => placed
  { linked with newest := some i, oldest := c.oldest.or (some i) }

/-- Moves a slot to the front. -/
def promote (c : SlotCache κ ν) (i : Nat) : SlotCache κ ν :=
  if c.newest = some i then c else (c.unlink i).pushFront i

/-- Fills the gap at a slot that is out of the order with the last slot. -/
def vacate (c : SlotCache κ ν) (i : Nat) : SlotCache κ ν :=
  match c.slots.back? with
  | none => c
  | some last =>
    let shrunk := { c with slots := (c.slots.setIfInBounds i last).pop }
    if i + 1 = c.slots.size then shrunk
    else
      { (shrunk.setOlder last.newer (some i)).setNewer last.older (some i) with
        index := c.index.insert last.key i }

/-- The slot for a new key, and the cache with room for it: a full cache gives up
    its oldest entry. -/
def makeRoom (c : SlotCache κ ν) : Option Nat × SlotCache κ ν :=
  match if c.isFull then c.oldest else none with
  | none => (none, c)
  | some i =>
    let c := c.unlink i
    match c.slots[i]? with
    | some s => (some i, { c with index := c.index.erase s.key })
    | none => (some i, c)

/-- Enters a key that has no value yet. -/
def insertNew (c : SlotCache κ ν) (k : κ) (v : ν) : SlotCache κ ν :=
  match c.makeRoom with
  | (some i, c) =>
    let written := c.change i fun s => { s with key := k, value := v }
    { written with index := written.index.insert k i }.pushFront i
  | (none, c) =>
    let i := c.slots.size
    { c with
      slots := c.slots.push ⟨k, v, none, none⟩
      index := c.index.insert k i }.pushFront i

/-! ## Operations -/

/-- Reads a value and marks it as used. -/
def touch (c : SlotCache κ ν) (k : κ) : Option ν × SlotCache κ ν :=
  match c.index[k]? with
  | some i => (c.valueAt i, c.promote i)
  | none => (none, c)

/-- Writes a value; tells whether the key is new. -/
def put (c : SlotCache κ ν) (k : κ) (v : ν) : Bool × SlotCache κ ν :=
  match c.index[k]? with
  | some i => (false, (c.change i fun s => { s with value := v }).promote i)
  | none => (true, c.insertNew k v)

/-- Writes a value, unless the key is new, the cache full and the coin of
    probability `p` shows heads.  The coin is drawn only if it can matter. -/
def putSkipping (c : SlotCache κ ν) (k : κ) (v : ν) (p : Binary64) (d : Draws) :
    Bool × SlotCache κ ν × Draws :=
  if !c.contains k && c.isFull then
    let (skipped, d) := d.coin p
    if skipped then (false, c, d)
    else
      let (new, c) := c.put k v
      (new, c, d)
  else
    let (new, c) := c.put k v
    (new, c, d)

/-- Creates or updates a value; tells whether the key is new or `update` reports a
    change. -/
def upsert (c : SlotCache κ ν) (k : κ) (create : ν) (update : ν → Bool × ν) :
    Bool × SlotCache κ ν :=
  match c.index[k]? with
  | some i =>
    let changed := ((c.valueAt i).map fun v => (update v).1).getD false
    (changed, (c.change i fun s => { s with value := (update s.value).2 }).promote i)
  | none => (true, c.insertNew k create)

/-- Removes a key; tells which value it had. -/
def remove (c : SlotCache κ ν) (k : κ) : Option ν × SlotCache κ ν :=
  match c.index[k]? with
  | some i => (c.valueAt i, ({ c with index := c.index.erase k }.unlink i).vacate i)
  | none => (none, c)

/-- Removes the values that fail `keep`; tells how many those are. -/
def retain (c : SlotCache κ ν) (keep : ν → Bool) : Nat × SlotCache κ ν :=
  let doomed := (c.entries.filter fun e => !keep e.2).map Prod.fst
  (doomed.length, doomed.foldl (fun c k => (c.remove k).2) c)

/-- Adds a member to the roster under a key, which is opened under the given name
    if there is none; tells whether anything changed. -/
def putMember (c : SlotCache κ Roster) (k : κ) (name : String) (p : PeerAddress) :
    Bool × SlotCache κ Roster :=
  c.upsert k ⟨name, .single p⟩ fun r => r.insert p

/-- Folds a report into the entry under a key, which is opened if there is none;
    tells whether anything changed. -/
def putDistance (c : SlotCache κ DistanceEntry) (k : κ) (name : String) (distance : UInt32)
    (holder : PeerAddress) : Bool × SlotCache κ DistanceEntry :=
  c.upsert k ⟨name, distance, .single holder⟩ fun e => e.merge distance holder

end SlotCache

end OverlayCensus
