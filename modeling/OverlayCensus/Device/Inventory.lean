/-
  OverlayCensus — the devices behind a peer.

  An inventory counts the devices of every kind in the catalog, at most nine of
  each, so that it can be written with one digit per kind.

  * `ofText?` reads a device string and `render` writes one;
  * `deviceCount`, `metricCount` and `metricNames` answer what a query asks;
  * `withTotal` draws an inventory of a given size.
-/
import OverlayCensus.CoreInstances
import OverlayCensus.Decimal
import OverlayCensus.Device.Kind
import OverlayCensus.Draws
import OverlayCensus.Text.Blank

namespace OverlayCensus

attribute [local instance] corePow coreZero

/-- The number of devices of each kind, in the order of the catalog. -/
structure Inventory where
  counts : Vector (Fin 10) 19
deriving DecidableEq, Repr

namespace Inventory

/-- The inventory without devices. -/
def empty : Inventory := ⟨Vector.replicate 19 0⟩

instance : Inhabited Inventory := ⟨empty⟩

/-! ## What an inventory holds -/

/-- All kinds with their counts. -/
def byKind (i : Inventory) : List (DeviceKind × Nat) :=
  DeviceKind.all.toList.zip (i.counts.toList.map Fin.val)

/-- The kinds that are present, with their counts. -/
def present (i : Inventory) : List (DeviceKind × Nat) :=
  i.byKind.filter fun e => 0 < e.2

/-- The number of devices. -/
def deviceCount (i : Inventory) : Nat :=
  (i.counts.toList.map Fin.val).sum

/-- The number of devices that report a metric. -/
def metricCount (i : Inventory) (metric : String) : Nat :=
  ((i.present.filter fun e => e.1.supports metric).map Prod.snd).sum

/-- The metrics that some device reports, in order, each once. -/
def metricNames (i : Inventory) : List String :=
  (i.present.flatMap fun e => e.1.metrics).eraseDups.mergeSort fun a b => a ≤ b

/-- The most devices that an inventory can hold. -/
def capacity : Nat := 19 * 9

/-! ## Device strings -/

/-- The device string: a digit per kind. -/
def render (i : Inventory) : String :=
  String.ofList (i.counts.toList.map fun n => Decimal.digitChar n.val)

/-- The values of characters that are all digits. -/
def readDigits : List Char → Option (List (Fin 10))
  | [] => some []
  | c :: cs =>
    match h : Decimal.digitValue c with
    | some d => (readDigits cs).map (⟨d, Decimal.digitValue_lt h⟩ :: ·)
    | none => none

/-- The inventory with the given counts; missing ones are 0, and those beyond the
    catalog do not count. -/
def ofCounts (ns : List (Fin 10)) : Inventory :=
  ⟨Vector.ofFn fun k : Fin 19 => ns.getD k.val 0⟩

/-- Reads a device string: digits, blanks allowed at the ends. -/
def ofText? (s : String) : Option Inventory :=
  (readDigits (Text.trimChars s.toList)).map ofCounts

/-! ## Random inventories -/

/-- Adds a device of the kind at a slot, if there is room for it. -/
def add (i : Inventory) (slot : Fin 19) : Inventory :=
  let n := i.counts[slot]
  if h : n.val < 9 then ⟨i.counts.set slot ⟨n.val + 1, by omega⟩⟩ else i

/-- The first slot with room for another device. -/
def freeSlot? (i : Inventory) : Option (Fin 19) :=
  (List.finRange 19).find? fun k => i.counts[k].val < 9

/-- Adds up to `n` devices at the first slots with room. -/
def addFirst : Nat → Inventory → Inventory
  | 0, i => i
  | n + 1, i =>
    match i.freeSlot? with
    | some slot => addFirst n (i.add slot)
    | none => i

/-- Draws slots until the inventory has `total` devices.  A draw of a full slot is
    wasted.  After so many draws the devices that are still missing go where there
    is room. -/
def fill (total : Nat) : Nat → Inventory → Draws → Inventory × Draws
  | 0, i, d => (addFirst (total - i.deviceCount) i, d)
  | tries + 1, i, d =>
    if i.deviceCount < total then
      let (slot, d) := d.below 19
      fill total tries (i.add (Fin.ofNat 19 slot)) d
    else (i, d)

/-- The draws after which an inventory is completed without them. -/
def patience : Nat := 2 ^ (16 : Nat)

/-- An inventory of `total` devices of drawn kinds, or as many as it can hold. -/
def withTotal (total : Nat) (d : Draws) : Inventory × Draws :=
  fill (min total capacity) patience empty d

/-- An inventory of 3 to 30 devices of drawn kinds. -/
def random (d : Draws) : Inventory × Draws :=
  let (n, d) := d.below 28
  withTotal (3 + n) d

end Inventory

end OverlayCensus
