/-
  OverlayCensus — messages that are passed on.

  Bytes may write an identifier, an address or a port in more than one way, and a peer that
  passes a message on writes each of them in one way.  An address is written no longer than it
  was read, so whatever fits into a message still fits when it is written again.

  * `length_digits_le`: a number has no more digits than any text that it is read from;
  * `length_key_le`: the key of an address is no longer than any text that it is read from;
  * `fits_of_decode`: four bytes hold every length in a message that was decoded;
  * `decode_encode_of_decode`: so it is decoded from the bytes as which it is passed on, and
    these are one for each message.
-/
import Mathlib
import OverlayCensus.Proofs.WireRoundTrip

namespace OverlayCensus

/-! ## Numbers -/

namespace Decimal

variable {cs : List Char} {n : ℕ}

theorem appendDigits_lt {acc : ℕ} (h : appendDigits acc cs = some n) :
    n < (acc + 1) * 10 ^ cs.length := by
  induction cs generalizing acc with
  | nil =>
    cases h
    simp
  | cons c cs ih =>
    rw [appendDigits] at h
    cases hc : digitValue c with
    | none => simp [hc] at h
    | some d =>
      rw [hc] at h
      have hd := digitValue_lt hc
      calc n < (10 * acc + d + 1) * 10 ^ cs.length := ih h
        _ ≤ (acc + 1) * 10 * 10 ^ cs.length := Nat.mul_le_mul_right _ (by omega)
        _ = (acc + 1) * 10 ^ (c :: cs).length := by rw [List.length_cons, pow_succ', mul_assoc]

theorem length_digits_le_of_lt {k : ℕ} (hk : k ≠ 0) (h : n < 10 ^ k) : (digits n).length ≤ k := by
  induction n using Nat.strongRecOn generalizing k with
  | ind n ih =>
    unfold digits
    split
    · exact Nat.one_le_iff_ne_zero.2 hk
    · next hn =>
      obtain ⟨k, rfl⟩ := Nat.exists_eq_succ_of_ne_zero hk
      have hk : k ≠ 0 := by
        rintro rfl
        omega
      have hle := ih (n / 10) (by omega) hk (by rw [pow_succ] at h; omega)
      simpa using hle

/-- **A number is written in no more digits than it was read from.** -/
theorem length_digits_le {bound : ℕ} (h : readNat bound cs = some n) :
    (digits n).length ≤ cs.length := by
  have hdigits : ∀ {cs : List Char}, readDigits cs = some n → (digits n).length ≤ cs.length := by
    intro cs h
    cases cs with
    | nil => cases h
    | cons c cs =>
      have hlt : n < (0 + 1) * 10 ^ (c :: cs).length := appendDigits_lt h
      rw [zero_add, one_mul] at hlt
      exact length_digits_le_of_lt (Nat.succ_ne_zero _) hlt
  simp only [readNat] at h
  split at h
  · next m hm =>
    split_ifs at h
    cases h
    split at hm
    · exact (hdigits hm).trans (Nat.le_succ _)
    · exact hdigits hm
  · cases h

end Decimal

/-! ## Addresses -/

namespace Utf8

variable {s : String} {bytes : List UInt8} {cs : List Char}

/-- The bytes of a text are those that it was read from. -/
theorem encode_of_decode? (h : decode? bytes = some s) : encode s = bytes := by
  unfold decode? String.fromUTF8? at h
  split at h
  · cases h
    simp [encode, String.fromUTF8]
  · cases h

theorem length_le_flatMap (cs : List Char) :
    cs.length ≤ (cs.flatMap String.utf8EncodeChar).length := by
  induction cs with
  | nil => exact le_rfl
  | cons c cs ih =>
    have hpos := c.utf8Size_pos
    simp only [List.flatMap_cons, List.length_append, List.length_cons,
      String.length_utf8EncodeChar]
    omega

theorem length_flatMap_ascii (h : ∀ c ∈ cs, c.toNat < 128) :
    (cs.flatMap String.utf8EncodeChar).length = cs.length := by
  induction cs with
  | nil => rfl
  | cons c cs ih =>
    obtain ⟨hc, hcs⟩ := List.forall_mem_cons.1 h
    rw [List.flatMap_cons, List.length_append, utf8EncodeChar_ascii hc, ih hcs,
      List.length_singleton, Nat.add_comm, List.length_cons]

end Utf8

namespace PeerAddress

variable {a : PeerAddress} {s : String}

theorem length_digits_le_of_readPort {cs : List Char} {port : UInt16}
    (h : readPort cs = some port) : (Decimal.digits port.toNat).length ≤ cs.length := by
  unfold readPort at h
  split at h
  · next n hn =>
    split_ifs at h
    cases h
    have hlt := Decimal.readNat_lt hn
    have hport : n.toUInt16.toNat = n := by simpa using hlt
    rw [hport]
    exact Decimal.length_digits_le hn
  · cases h

/-- **An address is written no longer than it was read.** -/
theorem length_key_le (h : ofText? s = some a) :
    (Utf8.encode a.key).length ≤ (Utf8.encode s).length := by
  obtain ⟨-, port, htrimmed, hport⟩ := eq_of_readTrimmed h
  have hsub : List.Sublist (Text.trimChars s.toList) s.toList :=
    (Text.trimEnd_prefix _).sublist.trans (List.dropWhile_sublist _)
  have hascii : ∀ c ∈ Decimal.digits a.port.toNat, c.toNat < 128 := by
    intro c hc
    have hrange := Decimal.toNat_of_digitValue (Decimal.digitValue_isSome_of_mem_digits hc)
    omega
  calc (Utf8.encode a.key).length
      = (a.host.toList.flatMap String.utf8EncodeChar).length + 1 +
          (Decimal.digits a.port.toNat).length := by
        rw [key, Utf8.encode_ofList, keyChars, List.flatMap_append, List.flatMap_cons,
          List.length_append, List.length_append, Utf8.length_flatMap_ascii hascii,
          Nat.add_assoc]
        rfl
    _ ≤ (a.host.toList.flatMap String.utf8EncodeChar).length + 1 +
          (port.flatMap String.utf8EncodeChar).length := by
        have hdigits := length_digits_le_of_readPort hport
        have hbytes := Utf8.length_le_flatMap port
        omega
    _ = ((Text.trimChars s.toList).flatMap String.utf8EncodeChar).length := by
        rw [htrimmed, List.flatMap_append, List.flatMap_cons, List.length_append,
          List.length_append, Nat.add_assoc]
        rfl
    _ ≤ (Utf8.encode s).length := by
        rw [Utf8.encode_eq_flatMap]
        exact (hsub.flatMap _).length_le

end PeerAddress

/-! ## Messages -/

namespace Wire

theorem yields_readText : Yields readText Utf8.Fits := by
  refine .skip fun n => ?_
  have hbytes : Yields (readBytes n.toNat) fun bytes => bytes.length < 2 ^ 32 := by
    intro bytes front rest hread
    simp only [readBytes] at hread
    split_ifs at hread
    cases hread
    exact (List.length_take_le _ _).trans_lt n.toNat_lt
  refine hbytes.bind fun bytes hlength => ?_
  cases hs : Utf8.decode? bytes with
  | none => exact .throw
  | some s => exact .pure (show _ < _ by rwa [Utf8.encode_of_decode? hs])

theorem yields_readAddress_fits : Yields readAddress fun a => Utf8.Fits a.key := by
  refine yields_readText.bind fun s hs => ?_
  cases h : PeerAddress.ofText? s with
  | none => exact .throw
  | some a => exact .pure ((PeerAddress.length_key_le h).trans_lt hs)

end Wire

namespace Message

variable {bytes : List UInt8} {m : Message}

/-- Four bytes hold every length in a message that was decoded. -/
theorem fits_of_decode (h : decode bytes = .ok m) : m.Fits := by
  obtain ⟨code, tag, fields, -, -, hread⟩ := readFields_of_decode h
  obtain ⟨hkeys, htexts, hitems⟩ :=
    Wire.yields_readFields Wire.yields_readAddress_fits Wire.yields_readText tag _ _ _ hread
  exact ⟨htexts, hkeys, hitems⟩

/-- **Whatever was decoded can be passed on**: it is decoded from the bytes as which it is
    written, however it was written before.  These bytes are one for each message. -/
theorem decode_encode_of_decode (h : decode bytes = .ok m) :
    decode m.encode = .ok m ∧
      ∀ bytes' m', decode bytes' = .ok m' → (m'.encode = m.encode ↔ m' = m) := by
  have hback : ∀ {bytes m}, decode bytes = .ok m → decode m.encode = .ok m := fun h =>
    decode_encode (fits_of_decode h) (readable_of_decode h)
  refine ⟨hback h, fun bytes' m' h' => ⟨fun he => ?_, fun he => congrArg encode he⟩⟩
  have hsame := hback h'
  rw [he, hback h] at hsame
  exact (Except.ok.inj hsame).symm

open Sample in
/-- A walk that is passed on as other bytes than those it was decoded from. -/
theorem decode_encode_of_decode_loose : decode looseBytes = .ok looseWalk ∧
    looseWalk.encode ≠ looseBytes ∧ decode looseWalk.encode = .ok looseWalk :=
  ⟨decode_looseBytes, by decide +kernel, (decode_encode_of_decode decode_looseBytes).1⟩

end Message

end OverlayCensus
