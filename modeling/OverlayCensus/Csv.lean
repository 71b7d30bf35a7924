/-
  OverlayCensus — records of comma-separated fields.

  Fields may stand in double quotes, inside which a quote is written twice.
  Records end at a line feed or a carriage return, empty lines are skipped, and a
  quote left open runs to the end.

  * `records` cuts bytes into records: one pass of the machine `step`, which holds
    the unfinished field and record and the place where the record began;
  * `renderRow` writes one record, quoting the fields that need it.
-/
import OverlayCensus.Text.Blank
import OverlayCensus.Text.Utf8

namespace OverlayCensus.Csv

/-! ## Reading -/

/-- A place in a file: bytes in front of it, and its line. -/
structure Place where
  byte : Nat
  line : Nat
deriving DecidableEq, Repr

/-- The byte that ends a line. -/
def lineFeed : UInt8 := 10

/-- The other byte that ends a line; in front of a line feed it ends the same one. -/
def carriageReturn : UInt8 := 13

/-- The byte around a quoted field. -/
def quote : UInt8 := 34

/-- The byte between two fields of a line. -/
def comma : UInt8 := 44

/-- The place behind a byte. -/
def Place.past (p : Place) (b : UInt8) : Place :=
  ⟨p.byte + 1, if b = lineFeed then p.line + 1 else p.line⟩

/-- A record as it stands in the file: where the one in front of it ended, and the
    bytes of its fields without their quotes. -/
structure RawRecord where
  place : Place
  fields : List (List UInt8)
deriving DecidableEq, Repr

/-- What the next byte belongs to. -/
inductive Mode where
  /-- A new record, or an end of line to skip. -/
  | betweenRecords
  | fieldStart
  | plain
  | quoted
  /-- A quote inside a quoted field: it closes the field or is doubled. -/
  | quotedQuote
deriving DecidableEq, Repr

/-- The state of reading: finished records, fields of the unfinished record and
    bytes of the unfinished field, each list with its last item first. -/
structure Machine where
  mode : Mode
  place : Place
  began : Place
  field : List UInt8
  fields : List (List UInt8)
  records : List RawRecord

namespace Machine

/-- The state in front of a file's first record. -/
def start (place : Place) : Machine := ⟨.betweenRecords, place, ⟨0, 1⟩, [], [], []⟩

/-- Adds a byte to the field. -/
def keep (m : Machine) (b : UInt8) (mode : Mode) : Machine :=
  { m with mode := mode, field := b :: m.field }

/-- Ends the field. -/
def endField (m : Machine) : Machine :=
  { m with mode := .fieldStart, field := [], fields := m.field.reverse :: m.fields }

/-- Ends the field and the record with it. -/
def endRecord (m : Machine) : Machine :=
  { mode := .betweenRecords, place := m.place, began := m.place, field := [], fields := [],
    records := ⟨m.began, (m.field.reverse :: m.fields).reverse⟩ :: m.records }

/-- A byte in a field without quotes, or behind a closing quote. -/
def bare (m : Machine) (b : UInt8) : Machine :=
  if b = comma then m.endField
  else if b = lineFeed ∨ b = carriageReturn then m.endRecord
  else m.keep b .plain

/-- Reads one byte. -/
def step (m : Machine) (b : UInt8) : Machine :=
  let m := { m with place := m.place.past b }
  match m.mode with
  | .betweenRecords =>
    if b = lineFeed ∨ b = carriageReturn then m
    else if b = quote then { m with mode := .quoted }
    else m.bare b
  | .fieldStart => if b = quote then { m with mode := .quoted } else m.bare b
  | .plain => m.bare b
  | .quoted => if b = quote then { m with mode := .quotedQuote } else m.keep b .quoted
  | .quotedQuote => if b = quote then m.keep b .quoted else m.bare b

/-- The records read when the input ends. -/
def finish (m : Machine) : List RawRecord :=
  if m.mode = .betweenRecords then m.records.reverse else m.endRecord.records.reverse

end Machine

/-- The records of a file.  A byte-order mark in front is no part of them. -/
def rawRecords : List UInt8 → List RawRecord
  | 0xEF :: 0xBB :: 0xBF :: bytes => (bytes.foldl Machine.step (.start ⟨3, 1⟩)).finish
  | bytes => (bytes.foldl Machine.step (.start ⟨0, 1⟩)).finish

/-! ## Fields as text -/

/-- The ASCII characters that are blank. -/
def isAsciiBlank (b : UInt8) : Bool :=
  b = 32 || b = 9 || b = 10 || b = 12 || b = 13

/-- Bytes without the ASCII blanks at their ends. -/
def trimBytes (bytes : List UInt8) : List UInt8 :=
  ((bytes.dropWhile isAsciiBlank).reverse.dropWhile isAsciiBlank).reverse

/-- A record of texts without blanks at their ends. -/
structure Record where
  place : Place
  fields : List String
deriving DecidableEq, Repr

/-- A field that is no text: its number, and the length of its readable part. -/
structure Unreadable where
  field : Nat
  index : Nat
deriving DecidableEq, Repr

/-- The texts of fields, the first of which has number `n`.  The blanks at the ends of
    a field do not count for the place of a fault. -/
def readFields (n : Nat) : List (List UInt8) → Except Unreadable (List String)
  | [] => .ok []
  | f :: fs =>
    let bytes := trimBytes f
    match Utf8.decode? bytes with
    | none => .error ⟨n, Utf8.readableLength bytes⟩
    | some text =>
      match readFields (n + 1) fs with
      | .ok texts => .ok (Text.trim text :: texts)
      | .error e => .error e

/-- The texts of a record's fields. -/
def RawRecord.read (raw : RawRecord) : Except Unreadable Record :=
  match readFields 0 raw.fields with
  | .ok texts => .ok ⟨raw.place, texts⟩
  | .error u => .error u

/-! ## Writing -/

/-- Whether a field has to stand in quotes. -/
def needsQuotes (cs : List Char) : Bool :=
  cs.any fun c => c = ',' || c = '"' || c = '\n' || c = '\r'

/-- The characters of a field with every quote doubled. -/
def doubleQuotes (cs : List Char) : List Char :=
  cs.flatMap fun c => if c = '"' then ['"', '"'] else [c]

/-- A field as it is written. -/
def renderField (s : String) : List Char :=
  if needsQuotes s.toList then '"' :: doubleQuotes s.toList ++ ['"'] else s.toList

/-- Fields with commas between them. -/
def renderFields : List String → List Char
  | [] => []
  | [f] => renderField f
  | f :: fs => renderField f ++ ',' :: renderFields fs

/-- A record as a line.  A lone empty field stands in quotes, since an empty line
    is no record. -/
def renderRow (fields : List String) : List Char :=
  (if fields = [""] then ['"', '"'] else renderFields fields) ++ ['\n']

/-- Records as lines. -/
def render (rows : List (List String)) : String :=
  String.ofList (rows.flatMap renderRow)

end OverlayCensus.Csv
