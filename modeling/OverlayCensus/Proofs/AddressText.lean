/-
  OverlayCensus — which addresses their written form gives back.

  An address is read from trimmed text that is cut at the last colon, so a host may hold
  colons and blanks, but must not be empty or start with a blank, and the port is not 0
  (`Readable`).

  * `trimChars_eq_self`, `head?_trimChars`: what trimming keeps, and what it leaves in front;
  * `ofText?_key`: a readable address is read from its key;
  * `readable_of_ofText?`: every address that is read from a text is readable.
-/
import Mathlib
import OverlayCensus.PeerAddress

namespace OverlayCensus

/-! ## Trimming -/

namespace Text

variable {α : Type} {p : α → Bool} {l : List α} {cs : List Char}

theorem dropWhile_eq_self (h : ∀ a ∈ l.head?, p a = false) : l.dropWhile p = l := by
  rw [List.dropWhile_eq_self_iff]
  intro hpos
  rw [h _ (List.head?_eq_getElem? ▸ List.getElem?_eq_getElem hpos)]
  exact Bool.false_ne_true

theorem dropWhile_ends_eq_self (hfirst : ∀ a ∈ l.head?, p a = false)
    (hlast : ∀ a ∈ l.getLast?, p a = false) : ((l.dropWhile p).reverse.dropWhile p).reverse = l := by
  rw [dropWhile_eq_self hfirst, dropWhile_eq_self (List.head?_reverse ▸ hlast), List.reverse_reverse]

/-- Characters with no blank at either end stay as they are. -/
theorem trimChars_eq_self (hfirst : ∀ c ∈ cs.head?, isBlank c = false)
    (hlast : ∀ c ∈ cs.getLast?, isBlank c = false) : trimChars cs = cs :=
  dropWhile_ends_eq_self hfirst hlast

theorem trimEnd_prefix (cs : List Char) : trimEnd cs <+: cs := by
  rw [trimEnd, ← List.reverse_suffix, List.reverse_reverse]
  exact List.dropWhile_suffix _

/-- No blank stands in front of what trimming leaves. -/
theorem head?_trimChars (cs : List Char) : ∀ c ∈ (trimChars cs).head?, isBlank c = false := by
  intro c hc
  obtain ⟨rest, hrest⟩ := trimEnd_prefix (trimStart cs)
  have hfirst : (trimStart cs).head? = some c := by
    rw [← hrest, List.head?_append, trimChars] at *
    rw [hc]
    rfl
  have hne := List.head?_dropWhile_not isBlank cs
  rw [trimStart] at hfirst
  rw [hfirst] at hne
  simpa using hne

end Text

namespace Decimal

/-- The code points of the digits. -/
theorem toNat_of_digitValue {c : Char} (h : (digitValue c).isSome) :
    48 ≤ c.toNat ∧ c.toNat ≤ 57 := by
  rw [digitValue, Option.isSome_ite] at h
  exact h

theorem isBlank_of_digitValue {c : Char} (h : (digitValue c).isSome) : Text.isBlank c = false := by
  have hrange := toNat_of_digitValue h
  simp only [Text.isBlank, Text.blankRanges, List.any_cons, List.any_nil, Bool.or_false,
    Bool.or_eq_false_iff, Bool.and_eq_false_iff, decide_eq_false_iff_not]
  omega

theorem isBlank_of_mem_digits {n : ℕ} {c : Char} (h : c ∈ digits n) : Text.isBlank c = false :=
  isBlank_of_digitValue (digitValue_isSome_of_mem_digits h)

/-- The digits of a number below the bound are read as the number. -/
theorem readNat_digits {n bound : ℕ} (h : n < bound) : readNat bound (digits n) = some n := by
  unfold readNat
  split
  · next rest hplus =>
    have hdigit := digitValue_isSome_of_mem_digits (n := n) (c := '+') (by simp [hplus])
    cases hdigit
  · simp [readDigits_digits, h]

theorem readNat_lt {n bound : ℕ} {cs : List Char} (h : readNat bound cs = some n) : n < bound := by
  simp only [readNat] at h
  generalize readDigits _ = value at h
  cases value with
  | none => cases h
  | some m =>
    dsimp only at h
    split_ifs at h with hlt
    exact Option.some.inj h ▸ hlt

end Decimal

/-! ## Addresses -/

namespace PeerAddress

/-- An address whose key is read as the address. -/
structure Readable (a : PeerAddress) : Prop where
  host_ne : a.host ≠ ""
  host_start : ∀ c ∈ a.host.toList.head?, Text.isBlank c = false
  port_ne : a.port ≠ 0

variable {a : PeerAddress}

instance : Decidable a.Readable :=
  decidable_of_iff
    (a.host ≠ "" ∧ (a.host.toList.head?.all fun c => !Text.isBlank c) ∧ a.port ≠ 0)
    ⟨fun ⟨hhost, hstart, hport⟩ => ⟨hhost, by simpa [Option.all_eq_true] using hstart, hport⟩,
      fun h => ⟨h.1, by simpa [Option.all_eq_true] using h.2, h.3⟩⟩

theorem readPort_digits (h : a.port ≠ 0) : readPort (Decimal.digits a.port.toNat) = some a.port := by
  have hne : a.port.toNat ≠ 0 := fun hzero => h (UInt16.toNat_inj.1 hzero)
  simp [readPort, Decimal.readNat_digits a.port.toNat_lt, hne]

theorem isBlank_head?_keyChars (h : a.Readable) :
    ∀ c ∈ a.keyChars.head?, Text.isBlank c = false := by
  have hhost : a.host.toList ≠ [] := fun hnil => h.host_ne (String.toList_eq_nil_iff.1 hnil)
  rw [keyChars, List.head?_append_of_ne_nil _ hhost]
  exact h.host_start

theorem isBlank_getLast?_keyChars : ∀ c ∈ a.keyChars.getLast?, Text.isBlank c = false := by
  intro c hc
  rw [keyChars, List.getLast?_append_of_ne_nil _ (List.cons_ne_nil _ _),
    List.getLast?_cons_of_ne_nil (Decimal.digits_ne_nil _)] at hc
  exact Decimal.isBlank_of_mem_digits (List.mem_of_getLast? hc)

/-- **A readable address is read from its key.** -/
theorem ofText?_key (h : a.Readable) : ofText? a.key = some a := by
  have hhost : a.host.toList ≠ [] := fun hnil => h.host_ne (String.toList_eq_nil_iff.1 hnil)
  rw [ofText?, key, String.toList_ofList,
    Text.trimChars_eq_self (isBlank_head?_keyChars h) isBlank_getLast?_keyChars, readTrimmed,
    splitLast_keyChars]
  cases hcs : a.host.toList with
  | nil => exact absurd hcs hhost
  | cons c cs => simp [readPort_digits h.port_ne, ← hcs]

theorem readPort_ne {cs : List Char} {p : UInt16} (h : readPort cs = some p) : p ≠ 0 := by
  unfold readPort at h
  split at h
  · next n hn =>
    split_ifs at h with hzero
    have hlt := Decimal.readNat_lt hn
    intro hp
    have hval : n.toUInt16.toNat = n := by simpa using hlt
    rw [Option.some.inj h, hp] at hval
    exact hzero hval.symm
  · cases h

/-- What is read as an address is its host, a colon and a port. -/
theorem eq_of_readTrimmed {cs : List Char} (h : readTrimmed cs = some a) :
    a.host ≠ "" ∧ ∃ port, cs = a.host.toList ++ ':' :: port ∧ readPort port = some a.port := by
  unfold readTrimmed at h
  split at h
  · cases h
  · cases h
  · next host port hne hcut =>
    obtain ⟨p, hp, rfl⟩ := Option.map_eq_some_iff.1 h
    obtain ⟨rfl, -⟩ := Text.splitLast_eq_some_iff.1 hcut
    have hnil : host ≠ [] := hne
    exact ⟨fun hempty => hnil (String.ofList_eq_empty_iff.1 hempty), port,
      by rw [String.toList_ofList], hp⟩

/-- **Every address that is read is readable.** -/
theorem readable_of_ofText? {s : String} (h : ofText? s = some a) : a.Readable := by
  obtain ⟨hhost, port, htrimmed, hport⟩ := eq_of_readTrimmed h
  have hnil : a.host.toList ≠ [] := fun hnil => hhost (String.toList_eq_nil_iff.1 hnil)
  have hstart := Text.head?_trimChars s.toList
  rw [htrimmed, List.head?_append_of_ne_nil _ hnil] at hstart
  exact ⟨hhost, hstart, readPort_ne hport⟩

end PeerAddress

end OverlayCensus
