/-
  OverlayCensus — text as UTF-8 bytes.

  * `encode` lists the bytes of a text and `decode?` reads them back;
    `decode?_encode`: every text reads back;
  * `readableLength` is the length of the longest prefix that ends where a
    character ends and holds text only: where reading has to stop.
-/

namespace OverlayCensus.Utf8

/-- The bytes of a text. -/
def encode (s : String) : List UInt8 :=
  s.toByteArray.data.toList

/-- The text that a list of bytes encodes. -/
def decode? (bytes : List UInt8) : Option String :=
  String.fromUTF8? ⟨bytes.toArray⟩

/-- A text reads back from its bytes. -/
@[simp] theorem decode?_encode (s : String) : decode? (encode s) = some s := by
  have hb : (⟨(encode s).toArray⟩ : ByteArray) = s.toByteArray := by
    simp [encode]
  unfold decode? String.fromUTF8?
  simp only [hb]
  split
  · next h => exact congrArg some (String.toByteArray_inj.1 rfl)
  · next h => exact absurd s.isValidUTF8 h

theorem encode_injective {s t : String} (h : encode s = encode t) : s = t := by
  have := decode?_encode s
  rw [h, decode?_encode] at this
  exact (Option.some.inj this).symm

/-- The end of the characters that follow one another from position `i`, at most
    `fuel` of them. -/
def readableFrom (bytes : ByteArray) : Nat → Nat → Nat
  | 0, i => i
  | fuel + 1, i =>
    match bytes.utf8DecodeChar? i with
    | some c => readableFrom bytes fuel (i + c.utf8Size)
    | none => i

/-- The number of bytes in front of the first that belongs to no character. -/
def readableLength (bytes : List UInt8) : Nat :=
  readableFrom ⟨bytes.toArray⟩ bytes.length 0

end OverlayCensus.Utf8
