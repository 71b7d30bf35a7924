/-
  OverlayCensus — frames: how messages follow one another on a stream.

  A frame is the length of its payload in four bytes and the payload.  Both sides
  refuse payloads above `maxLength`; the reader does so before it reads any of them.

  * `write` makes a frame, `read` takes one off a stream, `readAll` all of them;
  * `send` puts a frame at the end of a stream, `sent` is the stream that sending
    payloads one after another makes;
  * a stream that ends where a frame would begin, or inside a length, has ended;
    one that ends inside a payload is broken off.
-/
import OverlayCensus.Message.Wire

namespace OverlayCensus.Frame

/-- The longest payload. -/
def maxLength : Nat := 16 * 1024 * 1024

/-- Why a frame is refused. -/
inductive Error where
  | tooLarge (length : Nat)
  /-- The stream ends inside the payload. -/
  | brokenOff
deriving DecidableEq, Repr

/-- The wording of a refused frame. -/
def Error.message : Error → String
  | tooLarge n => "Frame of " ++ Decimal.render n ++ " bytes exceeds the limit"
  | brokenOff => "IO error: early eof"

/-- The frame of a payload. -/
def write (payload : List UInt8) : Except Error (List UInt8) :=
  if maxLength < payload.length then .error (.tooLarge payload.length)
  else .ok (Wire.length payload.length ++ payload)

/-- What writes at the end of a stream.  A refusal does not take back what has been
    written before it. -/
abbrev Writer (α : Type) := ExceptT Error (StateM (List UInt8)) α

/-- Writes bytes. -/
def put (bytes : List UInt8) : Writer Unit :=
  modify fun stream => stream ++ bytes

/-- Writes a payload as a frame: its length first, then the payload. -/
def send (payload : List UInt8) : Writer Unit := do
  if maxLength < payload.length then throw (.tooLarge payload.length)
  put (Wire.length payload.length)
  put payload

/-- Sends payloads one after another, also behind refused ones; tells what becomes of
    each. -/
def sendEach (payloads : List (List UInt8)) : StateM (List UInt8) (List (Except Error Unit)) :=
  payloads.mapM fun payload => (send payload).run

/-- The stream that payloads make. -/
def sent (payloads : List (List UInt8)) : List UInt8 :=
  ((sendEach payloads).run []).2

/-- What stands in front of a stream. -/
inductive Item where
  | frame (payload rest : List UInt8)
  | done
  | refused (error : Error)
deriving DecidableEq, Repr

/-- Reads one frame. -/
def read (stream : List UInt8) : Item :=
  match Wire.readWord stream with
  | .error _ => .done
  | .ok (n, stream) =>
    if maxLength < n.toNat then .refused (.tooLarge n.toNat)
    else
      match Wire.readBytes n.toNat stream with
      | .error _ => .refused .brokenOff
      | .ok (payload, rest) => .frame payload rest

/-- Reads frames until the stream ends or one is refused, at most `fuel` of them. -/
def readUpTo : Nat → List UInt8 → List (List UInt8) × Option Error
  | 0, _ => ([], none)
  | fuel + 1, stream =>
    match read stream with
    | .frame payload rest =>
      let (frames, ending) := readUpTo fuel rest
      (payload :: frames, ending)
    | .done => ([], none)
    | .refused e => ([], some e)

/-- The payloads of a stream, and the refusal that ends them if one does.  Every
    frame takes at least four bytes, so there are fewer frames than bytes. -/
def readAll (stream : List UInt8) : List (List UInt8) × Option Error :=
  readUpTo (stream.length + 1) stream

end OverlayCensus.Frame
