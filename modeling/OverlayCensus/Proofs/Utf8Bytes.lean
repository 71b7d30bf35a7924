/-
  OverlayCensus — the bytes of a text, one character after another.

  * `encode_eq_flatMap`: every character has its own bytes, at most four;
  * `ascii_mem_utf8EncodeChar_iff`: the byte of an ASCII character stands for that character
    only.
-/
import Mathlib
import OverlayCensus.Text.Utf8

namespace OverlayCensus.Utf8

variable {s : String} {c : Char}

theorem encode_eq_flatMap (s : String) : encode s = s.toList.flatMap String.utf8EncodeChar := by
  have h : s.toByteArray = s.toList.utf8Encode := by
    rw [← String.toByteArray_ofList, String.ofList_toList]
  rw [encode, h, List.utf8Encode, List.data_toByteArray]

@[simp] theorem encode_ofList (cs : List Char) :
    encode (String.ofList cs) = cs.flatMap String.utf8EncodeChar := by
  rw [encode_eq_flatMap, String.toList_ofList]

@[simp] theorem encode_eq_nil_iff : encode s = [] ↔ s = "" :=
  ⟨fun h => encode_injective (h.trans (encode_eq_flatMap "").symm), fun h => h ▸ encode_eq_flatMap ""⟩

theorem length_encode_le (s : String) : (encode s).length ≤ s.toList.length * 4 := by
  have hle : ∀ n ∈ s.toList.map fun c => (String.utf8EncodeChar c).length, n ≤ 4 := by
    simp [Char.utf8Size_le_four]
  rw [encode_eq_flatMap, List.length_flatMap]
  simpa using List.sum_le_card_nsmul _ _ hle

theorem utf8EncodeChar_ascii (h : c.toNat < 128) : String.utf8EncodeChar c = [c.toNat.toUInt8] := by
  have hle : c.val.toNat ≤ 127 := Nat.le_of_lt_succ h
  simp only [String.utf8EncodeChar, hle, if_true]
  rfl

/-- No byte of a character outside ASCII is the byte of an ASCII character. -/
theorem le_of_mem_utf8EncodeChar (h : 128 ≤ c.toNat) :
    ∀ b ∈ String.utf8EncodeChar c, 128 ≤ b.toNat := by
  have hgt : ¬ c.val.toNat ≤ 127 := Nat.not_le.2 h
  intro b hb
  simp only [String.utf8EncodeChar, hgt, if_false] at hb
  split_ifs at hb <;>
  · simp only [List.mem_cons, List.not_mem_nil, or_false] at hb
    rcases hb with rfl | rfl | rfl | rfl <;> simp <;> omega

theorem ascii_mem_utf8EncodeChar_iff {d : Char} (hd : d.toNat < 128) :
    d.toNat.toUInt8 ∈ String.utf8EncodeChar c ↔ c = d := by
  constructor
  · intro hmem
    have htoNat : d.toNat.toUInt8.toNat = d.toNat :=
      (UInt8.toNat_ofNat' ..).trans (Nat.mod_eq_of_lt (by omega))
    rcases Nat.lt_or_ge c.toNat 128 with hc | hc
    · rw [utf8EncodeChar_ascii hc, List.mem_singleton] at hmem
      have heq := congrArg UInt8.toNat hmem
      rw [htoNat, Nat.toUInt8, UInt8.toNat_ofNat', Nat.mod_eq_of_lt (by omega)] at heq
      exact Char.toNat_inj.1 heq.symm
    · have hle := le_of_mem_utf8EncodeChar hc _ hmem
      omega
  · rintro rfl
    rw [utf8EncodeChar_ascii hd]
    exact List.mem_singleton_self _

/-! ## The ends of a text -/

/-- The first byte of a text is one of its first character. -/
theorem mem_head?_encode {b : UInt8} (h : b ∈ (encode s).head?) :
    ∃ c ∈ s.toList.head?, b ∈ String.utf8EncodeChar c := by
  rw [encode_eq_flatMap] at h
  cases hs : s.toList with
  | nil => simp [hs] at h
  | cons c cs =>
    rw [hs, List.flatMap_cons, List.head?_append_of_ne_nil _ String.utf8EncodeChar_ne_nil] at h
    exact ⟨c, rfl, List.mem_of_head? h⟩

/-- The last byte of a text is one of its last character. -/
theorem mem_getLast?_encode {b : UInt8} (h : b ∈ (encode s).getLast?) :
    ∃ c ∈ s.toList.getLast?, b ∈ String.utf8EncodeChar c := by
  rw [encode_eq_flatMap] at h
  rcases List.eq_nil_or_concat s.toList with hs | ⟨cs, c, hs⟩
  · simp [hs] at h
  · rw [List.concat_eq_append] at hs
    rw [hs, List.flatMap_append, List.flatMap_singleton,
      List.getLast?_append_of_ne_nil _ String.utf8EncodeChar_ne_nil] at h
    exact ⟨c, by rw [hs, List.getLast?_concat]; rfl, List.mem_of_getLast? h⟩

end OverlayCensus.Utf8
