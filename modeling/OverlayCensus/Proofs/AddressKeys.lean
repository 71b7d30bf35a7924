/-
  OverlayCensus — which texts are read as an address, and which address a key names.

  An address has one key, but many texts are read as it: blanks may stand around them, and the
  number of the port may have zeros or a plus sign in front of it.

  * `Trims`: what is left of a text without the blanks at its ends, `trimChars_eq_iff`: trimming
    leaves this;
  * `readTrimmed_eq_some_iff`: a host, a colon and the number of a port are read as an address;
  * `key_faithful`: an address is told by its key, and by every text that is read as it.
-/
import Mathlib
import OverlayCensus.Proofs.Numerals

namespace OverlayCensus

/-! ## Trimming -/

namespace Text

variable {cs inner front back : List Char}

/-- `inner` is what is left of `cs` without the blanks at its ends. -/
structure Trims (cs inner : List Char) : Prop where
  around : ∃ front back, cs = front ++ inner ++ back ∧
    (∀ c ∈ front, isBlank c = true) ∧ ∀ c ∈ back, isBlank c = true
  first : ∀ c ∈ inner.head?, isBlank c = false
  last : ∀ c ∈ inner.getLast?, isBlank c = false

theorem trimStart_append (hfront : ∀ c ∈ front, isBlank c = true)
    (hfirst : ∀ c ∈ cs.head?, isBlank c = false) : trimStart (front ++ cs) = cs := by
  rw [trimStart, List.dropWhile_append_of_pos hfront, dropWhile_eq_self hfirst]

theorem trimEnd_append (hback : ∀ c ∈ back, isBlank c = true)
    (hlast : ∀ c ∈ cs.getLast?, isBlank c = false) : trimEnd (cs ++ back) = cs := by
  have hreverse : trimStart (back.reverse ++ cs.reverse) = cs.reverse :=
    trimStart_append (fun c hc => hback c (List.mem_reverse.1 hc)) (by rwa [List.head?_reverse])
  rw [trimEnd, List.reverse_append, ← trimStart, hreverse, List.reverse_reverse]

theorem getLast?_trimEnd (cs : List Char) : ∀ c ∈ (trimEnd cs).getLast?, isBlank c = false := by
  intro c hc
  have hne := List.head?_dropWhile_not isBlank cs.reverse
  rw [trimEnd, List.getLast?_reverse] at hc
  rw [hc] at hne
  simpa using hne

theorem trims_trimChars (cs : List Char) : Trims cs (trimChars cs) where
  around := by
    refine ⟨cs.takeWhile isBlank, ((trimStart cs).reverse.takeWhile isBlank).reverse, ?_,
      fun c hc => List.mem_takeWhile_imp hc,
      fun c hc => List.mem_takeWhile_imp (List.mem_reverse.1 hc)⟩
    rw [List.append_assoc, trimChars, trimEnd, ← List.reverse_append,
      List.takeWhile_append_dropWhile, List.reverse_reverse, trimStart,
      List.takeWhile_append_dropWhile]
  first := head?_trimChars cs
  last := getLast?_trimEnd _

theorem Trims.trimChars_eq (h : Trims cs inner) : trimChars cs = inner := by
  obtain ⟨⟨front, back, rfl, hfront, hback⟩, hfirst, hlast⟩ := h
  cases inner with
  | nil =>
    -- nothing but blanks, all of which are dropped in front
    have hblank : ∀ c ∈ front ++ [] ++ back, isBlank c = true := by
      simpa [or_imp, forall_and] using ⟨hfront, hback⟩
    rw [trimChars, trimStart, List.dropWhile_eq_nil_iff.2 hblank]
    rfl
  | cons c inner =>
    have hinner : ∀ d ∈ (c :: inner ++ back).head?, isBlank d = false := hfirst
    rw [trimChars, List.append_assoc, trimStart_append hfront hinner, trimEnd_append hback hlast]

/-- **Trimming** takes off the blanks at both ends, and nothing else. -/
theorem trimChars_eq_iff : trimChars cs = inner ↔ Trims cs inner :=
  ⟨fun h => h ▸ trims_trimChars cs, Trims.trimChars_eq⟩

end Text

/-! ## Ports -/

namespace Decimal

theorem Numeral.not_mem {c : Char} {ds : List Char} {n : ℕ} (h : Numeral ds n)
    (hc : c.isDigit = false) : c ∉ ds := by
  intro hmem
  rw [h.isDigit c hmem] at hc
  cases hc

theorem Unsigned.colon_not_mem {cs : List Char} {n : ℕ} (h : Unsigned cs n) : ':' ∉ cs := by
  cases h with
  | bare h => exact h.not_mem rfl
  | plus h => simpa using h.not_mem (c := ':') rfl

end Decimal

namespace PeerAddress

variable {a b : PeerAddress} {cs port : List Char} {p : UInt16} {s : String}

/-- Ports are read from their numbers. -/
theorem readPort_eq_some_iff : readPort cs = some p ↔ Decimal.Unsigned cs p.toNat ∧ p ≠ 0 := by
  unfold readPort
  constructor
  · intro h
    have hne := readPort_ne h
    split at h
    · next n hn =>
      obtain ⟨hunsigned, hlt⟩ := Decimal.readNat_eq_some_iff.1 hn
      split_ifs at h
      have hvalue : n.toUInt16.toNat = n := by simpa using hlt
      rw [← Option.some.inj h, hvalue]
      exact ⟨hunsigned, Option.some.inj h ▸ hne⟩
    · cases h
  · rintro ⟨hunsigned, hne⟩
    have hzero : p.toNat ≠ 0 := fun hzero => hne (UInt16.toNat_inj.1 hzero)
    simp [Decimal.readNat_eq_some_iff.2 ⟨hunsigned, p.toNat_lt⟩, hzero]

/-! ## Addresses -/

/-- **Trimmed text is read as an address** if it is its host, a colon and a number for its port,
    and neither is missing. -/
theorem readTrimmed_eq_some_iff : readTrimmed cs = some a ↔
    a.host ≠ "" ∧ a.port ≠ 0 ∧
      ∃ port, cs = a.host.toList ++ ':' :: port ∧ Decimal.Unsigned port a.port.toNat := by
  constructor
  · intro h
    obtain ⟨hhost, port, hcs, hport⟩ := eq_of_readTrimmed h
    obtain ⟨hunsigned, hne⟩ := readPort_eq_some_iff.1 hport
    exact ⟨hhost, hne, port, hcs, hunsigned⟩
  · rintro ⟨hhost, hne, port, rfl, hunsigned⟩
    rw [readTrimmed, Text.splitLast_append hunsigned.colon_not_mem]
    cases hcs : a.host.toList with
    | nil => exact absurd (String.toList_eq_nil_iff.1 hcs) hhost
    | cons c host => simp [readPort_eq_some_iff.2 ⟨hunsigned, hne⟩, ← hcs]

theorem parse_eq_ok_iff : parse s = .ok a ↔ ofText? s = some a := by
  unfold parse
  cases ofText? s <;> simp

theorem parse_key_iff : parse a.key = .ok a ↔ a.Readable :=
  parse_eq_ok_iff.trans ⟨readable_of_ofText?, ofText?_key⟩

/-- **Keys are faithful.**  Different addresses have different keys.  A key is read as its address
    exactly if the host is not empty and does not start with a blank, and the port is not 0.  The
    texts that are read as such an address are, without the blanks at their ends, its host, a colon
    and a number for its port, in which there is no other colon; no other address is ever read. -/
theorem key_faithful (a b : PeerAddress) (s : String) :
    (a.key = b.key ↔ a = b) ∧
      (parse a.key = .ok a ↔
        a.host ≠ "" ∧ (∀ c ∈ a.host.toList.head?, Text.isBlank c = false) ∧ a.port ≠ 0) ∧
      (parse s = .ok a ↔ parse a.key = .ok a ∧ ∃ port,
        Text.Trims s.toList (a.host.toList ++ ':' :: port) ∧ ':' ∉ port ∧
          Decimal.Unsigned port a.port.toNat) := by
  refine ⟨⟨key_injective, congrArg key⟩, ?_, ?_⟩
  · rw [parse_key_iff]
    exact ⟨fun h => ⟨h.host_ne, h.host_start, h.port_ne⟩, fun ⟨hhost, hstart, hport⟩ =>
      ⟨hhost, hstart, hport⟩⟩
  · rw [parse_key_iff, parse_eq_ok_iff]
    constructor
    · intro h
      obtain ⟨-, -, port, htrimmed, hunsigned⟩ := readTrimmed_eq_some_iff.1 h
      exact ⟨readable_of_ofText? h, port, Text.trimChars_eq_iff.1 htrimmed,
        hunsigned.colon_not_mem, hunsigned⟩
    · rintro ⟨hreadable, port, htrims, -, hunsigned⟩
      exact readTrimmed_eq_some_iff.2 ⟨hreadable.host_ne, hreadable.port_ne, port,
        Text.trimChars_eq_iff.2 htrims, hunsigned⟩

/-- The key of a host with colons and a blank, and another text that is read as its address. -/
theorem key_faithful_bracketed :
    (⟨"[fe80::1] a:2", 80⟩ : PeerAddress).key ≠ (⟨"[fe80::1] a", 280⟩ : PeerAddress).key ∧
      parse (⟨"[fe80::1] a:2", 80⟩ : PeerAddress).key = .ok ⟨"[fe80::1] a:2", 80⟩ ∧
      parse "\u00a0[fe80::1] a:2:+0080\n" = .ok ⟨"[fe80::1] a:2", 80⟩ := by
  obtain ⟨hkey, hread, hspelled⟩ := key_faithful ⟨"[fe80::1] a:2", 80⟩ ⟨"[fe80::1] a", 280⟩
    "\u00a0[fe80::1] a:2:+0080\n"
  obtain ⟨hhost, hstart, hport⟩ : Readable ⟨"[fe80::1] a:2", 80⟩ := by decide
  have hok := hread.2 ⟨hhost, hstart, hport⟩
  have hnumber : Decimal.Unsigned "+0080".toList 80 :=
    .plus (Decimal.readDigits_eq_some_iff.1 (by decide))
  exact ⟨fun h => absurd (hkey.1 h) (by decide), hok, hspelled.2 ⟨hok, "+0080".toList,
    Text.trimChars_eq_iff.1 (by decide), hnumber.colon_not_mem, hnumber⟩⟩

end PeerAddress

end OverlayCensus
