/-
  OverlayCensus — why an overlay is refused.

  * `DegreeBand` is the range in which every degree of an overlay has to lie;
  * `InvalidRequest`, `FileFault` and `OverlayError` are the causes of refusal of
    a request, of an overlay file and of an overlay, each with its `message`.
-/
import OverlayCensus.PeerAddress

namespace OverlayCensus

/-- The closed range of admitted degrees. -/
structure DegreeBand where
  min : Nat
  max : Nat
deriving DecidableEq, Repr

/-- Whether a degree lies in the band. -/
def DegreeBand.admits (b : DegreeBand) (degree : Nat) : Bool :=
  b.min ≤ degree && degree ≤ b.max

/-! ## Requests -/

/-- Why a request for an overlay, or an edge list, contradicts itself. -/
inductive InvalidRequest where
  | minimumZero
  | emptyBand (band : DegreeBand)
  /-- No vertex can reach the maximum without a link to itself. -/
  | tooFewVertices (maximum count : Nat)
  /-- More than two vertices do not hang together with one link each. -/
  | disconnected (count maximum : Nat)
  | oddDegreeSum (minimum count : Nat)
  | repeatedPeer (peer : PeerAddress)
  /-- Two descriptions of the vertex with this id. -/
  | conflict (id : Nat) (peer : PeerAddress) (devices : UInt32)
      (otherPeer : PeerAddress) (otherDevices : UInt32)
deriving DecidableEq, Repr

/-- The wording of a refused request. -/
def InvalidRequest.message : InvalidRequest → String
  | minimumZero => "minimum degree must be at least 1"
  | emptyBand b =>
    "minimum degree " ++ Decimal.render b.min ++ " exceeds maximum degree " ++
      Decimal.render b.max
  | tooFewVertices maximum count =>
    "maximum degree " ++ Decimal.render maximum ++ " needs more than " ++
      Decimal.render count ++ " vertices"
  | disconnected count maximum =>
    Decimal.render count ++ " vertices cannot be connected with maximum degree " ++
      Decimal.render maximum
  | oddDegreeSum minimum count =>
    "minimum degree " ++ Decimal.render minimum ++ " times " ++ Decimal.render count ++
      " vertices is odd"
  | repeatedPeer p => "peer " ++ p.key ++ " appears more than once"
  | conflict id p n q m =>
    "vertex " ++ Decimal.render id ++ " described as " ++ p.key ++ " with " ++
      Decimal.render n.toNat ++ " devices and as " ++ q.key ++ " with " ++
      Decimal.render m.toNat ++ " devices"

/-! ## Overlay files -/

/-- Why a row of an overlay file is malformed. -/
inductive FileFault where
  | noHeader
  | headerFields
  | rowFields
  /-- A field that is not of its column's kind; columns count from 1. -/
  | badColumn (column : Nat)
deriving DecidableEq, Repr

/-- The wording of a malformed row. -/
def FileFault.message : FileFault → String
  | noHeader => "missing degree header"
  | headerFields => "expected minDegree,maxDegree"
  | rowFields => "expected 7 fields"
  | badColumn n => "bad value in column " ++ Decimal.render n

/-- Where a record of a file holds bytes that are no text: all counts from 0, but
    lines from 1. -/
structure TextFault where
  record : Nat
  line : Nat
  field : Nat
  byte : Nat
  /-- The length of the field's readable part. -/
  index : Nat
deriving DecidableEq, Repr

/-- The wording of a field that is no text. -/
def TextFault.message (f : TextFault) : String :=
  "CSV parse error: record " ++ Decimal.render f.record ++ " (line " ++ Decimal.render f.line ++
    ", field: " ++ Decimal.render f.field ++ ", byte: " ++ Decimal.render f.byte ++
    "): invalid utf-8: invalid UTF-8 in field " ++ Decimal.render f.field ++ " near byte index " ++
    Decimal.render f.index

/-! ## Overlays -/

/-- Why an overlay is refused. -/
inductive OverlayError where
  | invalidRequest (reason : InvalidRequest)
  | constructionFailed (attempts : Nat)
  | degreeViolation (id degree : Nat) (band : DegreeBand)
  | alreadyConnected (id otherId : Nat)
  | selfLoop (id : Nat)
  | unknownPeer (peer : PeerAddress)
  | sizeMismatch (expected actual : Nat)
  | malformed (line : Nat) (fault : FileFault)
  | notText (fault : TextFault)
deriving DecidableEq, Repr

/-- The wording of a refused overlay. -/
def OverlayError.message : OverlayError → String
  | invalidRequest r => "invalid topology request: " ++ r.message
  | constructionFailed n =>
    "overlay construction failed after " ++ Decimal.render n ++ " attempts"
  | degreeViolation id d b =>
    "vertex " ++ Decimal.render id ++ " has degree " ++ Decimal.render d ++ ", expected " ++
      Decimal.render b.min ++ "..=" ++ Decimal.render b.max
  | alreadyConnected a b =>
    "vertices " ++ Decimal.render a ++ " and " ++ Decimal.render b ++ " are already connected"
  | selfLoop a => "vertex " ++ Decimal.render a ++ " cannot connect to itself"
  | unknownPeer p => "unknown peer: " ++ p.key
  | sizeMismatch expected actual =>
    "overlay requires " ++ Decimal.render expected ++ " peers, got " ++ Decimal.render actual
  | malformed line f =>
    "malformed overlay file at line " ++ Decimal.render line ++ ": " ++ f.message
  | notText f => "csv error: " ++ f.message

end OverlayCensus
