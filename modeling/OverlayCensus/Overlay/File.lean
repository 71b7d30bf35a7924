/-
  OverlayCensus — overlay files.

  The first record of a file is the degree band, and every further one is a link:
  id, peer and device count of its end with the lower id, the same of its other
  end, and its cost.  Peers stand as `host:port`.

  * `ofFile` reads a file and checks the overlay it describes;
  * `toFile` writes one.
-/
import OverlayCensus.CoreInstances
import OverlayCensus.Csv
import OverlayCensus.Overlay.OfEdges

namespace OverlayCensus.Overlay

attribute [local instance] corePow

/-! ## Reading -/

/-- A field at a column, read by `read`. -/
def readColumn {α : Type} (record : Csv.Record) (column : Nat) (read : String → Option α) :
    Except OverlayError α :=
  match record.fields[column]?.bind read with
  | some a => .ok a
  | none => .error (.malformed record.place.line (.badColumn (column + 1)))

/-- A 64-bit number. -/
def readWord (s : String) : Option Nat :=
  Decimal.readNat (2 ^ (64 : Nat)) s.toList

/-- A 32-bit number. -/
def readCount (s : String) : Option UInt32 :=
  (Decimal.readNat (2 ^ (32 : Nat)) s.toList).map Nat.toUInt32

/-- The end that three columns from `column` on describe. -/
def readEnd (record : Csv.Record) (column : Nat) : Except OverlayError EdgeEnd := do
  let id ← readColumn record column readWord
  let peer ← readColumn record (column + 1) PeerAddress.ofText?
  let devices ← readColumn record (column + 2) readCount
  return ⟨id, peer, devices⟩

/-- The link of a record. -/
def readEdge (record : Csv.Record) : Except OverlayError Edge :=
  if record.fields.length = 7 then do
    let first ← readEnd record 0
    let second ← readEnd record 3
    let cost ← readColumn record 6 readCount
    return ⟨first, some second, cost⟩
  else .error (.malformed record.place.line .rowFields)

/-- The degree band of a record. -/
def readBand (record : Csv.Record) : Except OverlayError DegreeBand :=
  if record.fields.length = 2 then do
    let min ← readColumn record 0 readWord
    let max ← readColumn record 1 readWord
    return ⟨min, max⟩
  else .error (.malformed record.place.line .headerFields)

/-- The texts of the record with number `n`. -/
def readRecord (n : Nat) (raw : Csv.RawRecord) : Except OverlayError Csv.Record :=
  match raw.read with
  | .ok record => .ok record
  | .error u => .error (.notText ⟨n, raw.place.line, u.field, raw.place.byte, u.index⟩)

/-- The links of records, the first of which has number `n`, up to the first
    fault. -/
def readEdges (n : Nat) : List Csv.RawRecord → Except OverlayError (List Edge)
  | [] => .ok []
  | raw :: rest => do
    let record ← readRecord n raw
    let edge ← readEdge record
    let edges ← readEdges (n + 1) rest
    return edge :: edges

/-- The overlay of a file's bytes. -/
def ofFile (bytes : List UInt8) : Except OverlayError Overlay :=
  match Csv.rawRecords bytes with
  | [] => .error (.malformed 1 .noHeader)
  | header :: rows => do
    let record ← readRecord 0 header
    let band ← readBand record
    let edges ← readEdges 1 rows
    ofEdges band edges

/-- The overlay of a file's text. -/
def ofFileText (s : String) : Except OverlayError Overlay :=
  ofFile (Utf8.encode s)

/-! ## Writing -/

/-- The three columns of an end. -/
def endColumns (e : EdgeEnd) : List String :=
  [Decimal.render e.id, e.peer.key, Decimal.render e.devices.toNat]

/-- The record of a link with two ends. -/
def edgeRow (e : Edge) : Option (List String) :=
  e.second.map fun s => endColumns e.first ++ endColumns s ++ [Decimal.render e.cost.toNat]

/-- The file of an overlay. -/
def toFile (o : Overlay) : String :=
  Csv.render ([Decimal.render o.band.min, Decimal.render o.band.max] :: o.edges.filterMap edgeRow)

end OverlayCensus.Overlay
