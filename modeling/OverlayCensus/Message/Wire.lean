/-
  OverlayCensus — messages as bytes.

  A message is a byte for its kind and then its fields in a fixed order: texts as
  their length and their UTF-8 bytes, numbers as four bytes with the most
  significant first, lists as their length and their items.

  * `Message.encode` writes a message, `Message.decode` reads one and wants nothing
    behind it;
  * `WireError` are the causes of refusal: the first faulty field in the order of
    the bytes counts.
-/
import OverlayCensus.Message.Basic
import OverlayCensus.Text.Utf8

namespace OverlayCensus

/-- Why bytes are no message. -/
inductive WireError where
  | empty
  | unknownTag (code : UInt8)
  | truncated (needed remaining : Nat)
  | trailingBytes (count : Nat)
  | invalidUtf8
  | invalidUuid (text : String)
  | invalidAddress (text : String)
  | invalidGossipType (code : Int32)
deriving DecidableEq, Repr

/-- The wording of refused bytes. -/
def WireError.message : WireError → String
  | empty => "empty message"
  | unknownTag n => "unknown message tag " ++ Decimal.render n.toNat
  | truncated needed remaining =>
    "truncated message: needed " ++ Decimal.render needed ++ " bytes, " ++
      Decimal.render remaining ++ " left"
  | trailingBytes n => Decimal.render n ++ " trailing bytes after message"
  | invalidUtf8 => "field is not UTF-8"
  | invalidUuid s => "invalid query id: " ++ s
  | invalidAddress s => "invalid peer address: " ++ s
  | invalidGossipType n => "invalid gossip type " ++ Decimal.renderInt n.toInt

namespace Wire

/-! ## Writing -/

/-- A 32-bit number as four bytes. -/
def word (n : UInt32) : List UInt8 :=
  [(n >>> 24).toUInt8, (n >>> 16).toUInt8, (n >>> 8).toUInt8, n.toUInt8]

/-- A signed 32-bit number as four bytes. -/
def int (n : Int32) : List UInt8 :=
  word n.toUInt32

/-- A length, modulo `2 ^ 32`. -/
def length (n : Nat) : List UInt8 :=
  word n.toUInt32

/-- A text behind its length in bytes. -/
def text (s : String) : List UInt8 :=
  let bytes := Utf8.encode s
  length bytes.length ++ bytes

/-- An address by its key. -/
def address (a : PeerAddress) : List UInt8 :=
  text a.key

/-- A list behind its length. -/
def list {α : Type} (item : α → List UInt8) (items : List α) : List UInt8 :=
  length items.length ++ items.flatMap item

/-- The fields of a query. -/
def query (q : Query) : List UInt8 :=
  text q.id.render ++ address q.sender ++ address q.originator ++ text q.metric ++
    int q.hop ++ int q.limit ++ int q.checked ++ int q.matched

/-- The number that tells gossip queries apart. -/
def gossipCode : QueryKind → Option Int32
  | .gossipDistance => some 0
  | .gossipLocation => some 1
  | _ => none

/-- The kind of gossip query with a number. -/
def gossipKind? (code : Int32) : Option QueryKind :=
  if code = 0 then some .gossipDistance
  else if code = 1 then some .gossipLocation
  else none

/-- The fields of a message. -/
def fields : Message → List UInt8
  | .query kind q =>
    match gossipCode kind with
    | some code => query q ++ int code
    | none => query q
  | .distances sender entries =>
    address sender ++ list (fun e => text e.1 ++ word e.2) entries
  | .locations sender entries =>
    address sender ++ list (fun e => address e.1 ++ text e.2) entries
  | .introduction identity => address identity
  | .register identity devices => address identity ++ text devices
  | .initiateConnections neighbors devices => list address neighbors ++ text devices
  | .shutdown | .listPeersRequest => []
  | .listPeersResponse peer neighbors => address peer ++ list address neighbors

/-! ## Reading -/

/-- Reads some of the bytes in front and leaves the rest. -/
abbrev Reader (α : Type) := StateT (List UInt8) (Except WireError) α

/-- The next `n` bytes. -/
def readBytes (n : Nat) : Reader (List UInt8) := fun bytes =>
  let front := bytes.take n
  if front.length < n then .error (.truncated n bytes.length) else .ok (front, bytes.drop n)

/-- A 32-bit number. -/
def readWord : Reader UInt32 := do
  let front ← readBytes 4
  return front.foldl (fun acc b => acc * 256 + b.toUInt32) 0

/-- A signed 32-bit number. -/
def readInt : Reader Int32 := do
  return (← readWord).toInt32

/-- A text. -/
def readText : Reader String := do
  let n ← readWord
  let front ← readBytes n.toNat
  match Utf8.decode? front with
  | some s => return s
  | none => throw .invalidUtf8

/-- An address.  A refused one is reported as it stands, blanks included. -/
def readAddress : Reader PeerAddress := do
  let s ← readText
  match PeerAddress.ofText? s with
  | some a => return a
  | none => throw (.invalidAddress s)

/-- An identifier. -/
def readUuid : Reader Uuid := do
  let s ← readText
  match Uuid.ofText? s with
  | some id => return id
  | none => throw (.invalidUuid s)

/-- The given number of items. -/
def readItems {α : Type} (item : Reader α) : Nat → Reader (List α)
  | 0 => return []
  | n + 1 => do
    let first ← item
    let rest ← readItems item n
    return first :: rest

/-- A list. -/
def readList {α : Type} (item : Reader α) : Reader (List α) := do
  let n ← readWord
  readItems item n.toNat

/-- The fields of a query. -/
def readQuery : Reader Query := do
  let id ← readUuid
  let sender ← readAddress
  let originator ← readAddress
  let metric ← readText
  let hop ← readInt
  let limit ← readInt
  let checked ← readInt
  let matched ← readInt
  return ⟨id, sender, originator, metric, hop, limit, checked, matched⟩

/-- A query and the number of its table. -/
def readGossipQuery : Reader Message := do
  let q ← readQuery
  let code ← readInt
  match gossipKind? code with
  | some kind => return .query kind q
  | none => throw (.invalidGossipType code)

/-- A name and its distance. -/
def readDistance : Reader (String × UInt32) := do
  let name ← readText
  let distance ← readWord
  return (name, distance)

/-- A holder and a name. -/
def readLocation : Reader (PeerAddress × String) := do
  let holder ← readAddress
  let name ← readText
  return (holder, name)

/-- The fields of a message of a kind. -/
def readFields : MessageTag → Reader Message
  | .flood => do return .query .flood (← readQuery)
  | .randomWalk => do return .query .randomWalk (← readQuery)
  | .gossipQuery => readGossipQuery
  | .gossipData => do
    let sender ← readAddress
    let entries ← readList readDistance
    return .distances sender entries
  | .gossipEntries => do
    let sender ← readAddress
    let entries ← readList readLocation
    return .locations sender entries
  | .introduction => do return .introduction (← readAddress)
  | .register => do
    let identity ← readAddress
    let devices ← readText
    return .register identity devices
  | .initiateConnections => do
    let neighbors ← readList readAddress
    let devices ← readText
    return .initiateConnections neighbors devices
  | .shutdown => return .shutdown
  | .listPeersRequest => return .listPeersRequest
  | .listPeersResponse => do
    let peer ← readAddress
    let neighbors ← readList readAddress
    return .listPeersResponse peer neighbors

end Wire

namespace Message

/-- A message as bytes. -/
def encode (m : Message) : List UInt8 :=
  m.tag.code :: Wire.fields m

/-- The message that some bytes are. -/
def decode : List UInt8 → Except WireError Message
  | [] => .error .empty
  | code :: bytes =>
    match MessageTag.ofCode? code with
    | none => .error (.unknownTag code)
    | some tag =>
      match Wire.readFields tag bytes with
      | .error e => .error e
      | .ok (m, []) => .ok m
      | .ok (_, rest) => .error (.trailingBytes rest.length)

end Message

end OverlayCensus
