/-
  OverlayCensus — which rows their comma-separated form gives back.

  * `Machine.Holds`: what the reading machine holds, places aside, with a lemma for every
    kind of byte;
  * `Holds.renderField`, `Holds.renderRow`: what it holds behind a written field and a written
    row;
  * `fields_rawRecords_render`: rows of any texts are cut into their fields again;
  * `readFields_encode`: fields without blanks at their ends are read as they are.
-/
import Mathlib
import OverlayCensus.Csv
import OverlayCensus.Proofs.AddressText
import OverlayCensus.Proofs.Utf8Bytes

namespace OverlayCensus.Csv

/-! ## One byte -/

/-- What a machine holds, places aside. -/
structure Machine.Holds (m : Machine) (mode : Mode) (field : List UInt8)
    (fields : List (List UInt8)) (done : List (List (List UInt8))) : Prop where
  mode_eq : m.mode = mode
  field_eq : m.field = field
  fields_eq : m.fields = fields
  done_eq : m.records.map RawRecord.fields = done

/-- A byte that stands for itself outside quotes. -/
structure Ordinary (b : UInt8) : Prop where
  ne_comma : b ≠ comma
  ne_quote : b ≠ quote
  ne_lineFeed : b ≠ lineFeed
  ne_carriageReturn : b ≠ carriageReturn

namespace Machine.Holds

variable {m : Machine} {mode : Mode} {field bytes : List UInt8} {fields : List (List UInt8)}
  {done : List (List (List UInt8))} {b : UInt8}

theorem kept (h : m.Holds mode field fields done)
    (hmode : mode = .betweenRecords ∨ mode = .fieldStart ∨ mode = .plain) (hb : Ordinary b) :
    (m.step b).Holds .plain (b :: field) fields done := by
  obtain ⟨rfl, rfl, rfl, rfl⟩ := h
  rcases hmode with hmode | hmode | hmode <;>
    simp only [step, hmode, bare, hb.ne_comma, hb.ne_quote, hb.ne_lineFeed, hb.ne_carriageReturn,
      or_self, if_false] <;>
    exact ⟨rfl, rfl, rfl, rfl⟩

theorem opened (h : m.Holds mode field fields done)
    (hmode : mode = .betweenRecords ∨ mode = .fieldStart) :
    (m.step quote).Holds .quoted field fields done := by
  obtain ⟨rfl, rfl, rfl, rfl⟩ := h
  have hend : ¬ (quote = lineFeed ∨ quote = carriageReturn) := by decide
  rcases hmode with hmode | hmode <;>
    simp only [step, hmode, hend, if_true, if_false] <;>
    exact ⟨rfl, rfl, rfl, rfl⟩

theorem inQuotes (h : m.Holds .quoted field fields done) (hb : b ≠ quote) :
    (m.step b).Holds .quoted (b :: field) fields done := by
  obtain ⟨hmode, rfl, rfl, rfl⟩ := h
  simp only [step, hmode, hb, if_false]
  exact ⟨rfl, rfl, rfl, rfl⟩

theorem closed (h : m.Holds .quoted field fields done) :
    (m.step quote).Holds .quotedQuote field fields done := by
  obtain ⟨hmode, rfl, rfl, rfl⟩ := h
  simp only [step, hmode, if_true]
  exact ⟨rfl, rfl, rfl, rfl⟩

theorem doubled (h : m.Holds .quotedQuote field fields done) :
    (m.step quote).Holds .quoted (quote :: field) fields done := by
  obtain ⟨hmode, rfl, rfl, rfl⟩ := h
  simp only [step, hmode, if_true]
  exact ⟨rfl, rfl, rfl, rfl⟩

theorem comma (h : m.Holds mode field fields done) (hmode : mode ≠ .quoted) :
    (m.step comma).Holds .fieldStart [] (field.reverse :: fields) done := by
  obtain ⟨rfl, rfl, rfl, rfl⟩ := h
  have hend : ¬ (Csv.comma = lineFeed ∨ Csv.comma = carriageReturn) := by decide
  have hquote : Csv.comma ≠ quote := by decide
  cases hm : m.mode with
  | quoted => exact absurd hm hmode
  | _ =>
    simp only [step, hm, bare, hend, hquote, if_true, if_false]
    exact ⟨rfl, rfl, rfl, rfl⟩

theorem lineFeed (h : m.Holds mode field fields done)
    (hmode : mode ≠ .quoted ∧ mode ≠ .betweenRecords) :
    (m.step lineFeed).Holds .betweenRecords [] [] ((fields.reverse ++ [field.reverse]) :: done) := by
  obtain ⟨rfl, rfl, rfl, rfl⟩ := h
  have hcomma : Csv.lineFeed ≠ Csv.comma := by decide
  have hquote : Csv.lineFeed ≠ quote := by decide
  cases hm : m.mode with
  | quoted => exact absurd hm hmode.1
  | betweenRecords => exact absurd hm hmode.2
  | _ =>
    simp only [step, hm, bare, hcomma, hquote, true_or, if_true, if_false]
    exact ⟨rfl, rfl, rfl, by simp [endRecord]⟩

/-! ## Fields -/

theorem kept_all (h : m.Holds mode field fields done)
    (hmode : mode = .betweenRecords ∨ mode = .fieldStart ∨ mode = .plain)
    (hbytes : ∀ b ∈ bytes, Ordinary b) (hne : bytes ≠ []) :
    (bytes.foldl step m).Holds .plain (bytes.reverse ++ field) fields done := by
  induction bytes generalizing m mode field with
  | nil => exact absurd rfl hne
  | cons b bytes ih =>
    rw [List.forall_mem_cons] at hbytes
    have hfirst := h.kept hmode hbytes.1
    rw [List.foldl_cons, List.reverse_cons, List.append_assoc]
    cases bytes with
    | nil => exact hfirst
    | cons c bytes => exact ih hfirst (Or.inr (Or.inr rfl)) hbytes.2 (List.cons_ne_nil c bytes)

theorem inQuotes_all (h : m.Holds .quoted field fields done) (hbytes : ∀ b ∈ bytes, b ≠ quote) :
    (bytes.foldl step m).Holds .quoted (bytes.reverse ++ field) fields done := by
  induction bytes generalizing m field with
  | nil => exact h
  | cons b bytes ih =>
    rw [List.forall_mem_cons] at hbytes
    rw [List.foldl_cons, List.reverse_cons, List.append_assoc]
    exact ih (h.inQuotes hbytes.1) hbytes.2

end Machine.Holds

theorem ordinary_of_mem {c : Char} (hc : needsQuotes [c] = false) {b : UInt8}
    (hb : b ∈ String.utf8EncodeChar c) : Ordinary b := by
  have hne : ∀ d : Char, d.toNat < 128 → c ≠ d → b ≠ d.toNat.toUInt8 := fun d hd hcd hbd =>
    hcd ((Utf8.ascii_mem_utf8EncodeChar_iff hd).1 (hbd ▸ hb))
  simp only [needsQuotes, List.any_cons, List.any_nil, Bool.or_false, Bool.or_eq_false_iff,
    decide_eq_false_iff_not] at hc
  exact ⟨hne ',' (by decide) hc.1.1.1, hne '"' (by decide) hc.1.1.2, hne '\n' (by decide) hc.1.2,
    hne '\r' (by decide) hc.2⟩

theorem ordinary_of_needsQuotes {cs : List Char} (h : needsQuotes cs = false) :
    ∀ b ∈ cs.flatMap String.utf8EncodeChar, Ordinary b := by
  intro b hb
  obtain ⟨c, hc, hb⟩ := List.mem_flatMap.1 hb
  refine ordinary_of_mem ?_ hb
  rw [needsQuotes, List.any_eq_false] at h
  simpa [needsQuotes] using h c hc

namespace Machine.Holds

variable {m : Machine} {mode : Mode} {field : List UInt8} {fields : List (List UInt8)}
  {done : List (List (List UInt8))}

/-- Inside quotes every text is read, quotes back from pairs. -/
theorem doubleQuotes (h : m.Holds .quoted field fields done) (cs : List Char) :
    (((doubleQuotes cs).flatMap String.utf8EncodeChar).foldl step m).Holds .quoted
      ((cs.flatMap String.utf8EncodeChar).reverse ++ field) fields done := by
  induction cs generalizing m field with
  | nil => exact h
  | cons c cs ih =>
    rw [Csv.doubleQuotes, List.flatMap_cons, List.flatMap_append, List.foldl_append,
      List.flatMap_cons, List.reverse_append, List.append_assoc]
    by_cases hc : c = '"'
    · subst hc
      exact ih h.closed.doubled
    · rw [if_neg hc, List.flatMap_singleton]
      refine ih (h.inQuotes_all fun b hb hquote => hc ?_)
      have hmem : quote ∈ String.utf8EncodeChar c := hquote ▸ hb
      exact (Utf8.ascii_mem_utf8EncodeChar_iff (by decide)).1 hmem

/-- **Behind a written field** the machine holds its bytes, and is outside quotes. -/
theorem renderField (h : m.Holds mode [] fields done)
    (hmode : mode = .betweenRecords ∨ mode = .fieldStart) (s : String) :
    ∃ mode', (((renderField s).flatMap String.utf8EncodeChar).foldl step m).Holds mode'
        (Utf8.encode s).reverse fields done ∧ mode' ≠ .quoted ∧
      (mode' = .betweenRecords → mode = .betweenRecords ∧ s = "") := by
  rw [Csv.renderField, Utf8.encode_eq_flatMap]
  split_ifs with hquotes
  · have hread := (h.opened hmode).doubleQuotes s.toList
    rw [List.append_nil] at hread
    refine ⟨.quotedQuote, ?_, nofun, nofun⟩
    rw [List.cons_append, List.flatMap_cons, List.foldl_append, List.flatMap_append,
      List.foldl_append]
    exact hread.closed
  · by_cases hs : s.toList = []
    · rw [hs]
      refine ⟨mode, h, ?_, fun hbetween => ⟨hbetween, String.toList_eq_nil_iff.1 hs⟩⟩
      rcases hmode with rfl | rfl <;> nofun
    · have hne : s.toList.flatMap String.utf8EncodeChar ≠ [] := by
        rw [← Utf8.encode_eq_flatMap, Ne, Utf8.encode_eq_nil_iff]
        exact fun hempty => hs (String.toList_eq_nil_iff.2 hempty)
      have hread := h.kept_all (hmode.imp_right Or.inl)
        (ordinary_of_needsQuotes (Bool.eq_false_iff.2 hquotes)) hne
      rw [List.append_nil] at hread
      exact ⟨.plain, hread, nofun, nofun⟩

/-! ## Rows -/

/-- Behind the line of a row the machine holds the row. -/
theorem renderFields {fs : List String} (h : m.Holds mode [] fields done)
    (hmode : mode = .betweenRecords ∨ mode = .fieldStart) (hne : fs ≠ [])
    (hlone : mode = .betweenRecords → fs ≠ [""]) :
    ((((renderFields fs) ++ ['\n']).flatMap String.utf8EncodeChar).foldl step m).Holds
      .betweenRecords [] [] ((fields.reverse ++ fs.map Utf8.encode) :: done) := by
  induction fs generalizing m mode fields with
  | nil => exact absurd rfl hne
  | cons f fs ih =>
    obtain ⟨mode', hread, hquoted, hbetween⟩ := h.renderField hmode f
    cases fs with
    | nil =>
      have hend := hread.lineFeed ⟨hquoted, fun heq => ?_⟩
      · rw [List.reverse_reverse] at hend
        rw [Csv.renderFields, List.flatMap_append, List.foldl_append]
        exact hend
      · obtain ⟨hfirst, rfl⟩ := hbetween heq
        exact hlone hfirst rfl
    | cons g fs =>
      have hnext := ih (hread.comma hquoted) (Or.inr rfl) (List.cons_ne_nil g fs) nofun
      rw [List.reverse_reverse, List.reverse_cons, List.append_assoc] at hnext
      rw [Csv.renderFields, List.append_assoc, List.flatMap_append, List.foldl_append]
      · exact hnext
      · nofun

theorem renderRow {fs : List String} (h : m.Holds .betweenRecords [] [] done) (hne : fs ≠ []) :
    (((renderRow fs).flatMap String.utf8EncodeChar).foldl step m).Holds
      .betweenRecords [] [] (fs.map Utf8.encode :: done) := by
  rw [Csv.renderRow]
  split_ifs with hlone
  · subst hlone
    exact ((h.opened (Or.inl rfl)).closed).lineFeed ⟨nofun, nofun⟩
  · exact h.renderFields (Or.inl rfl) hne fun _ => hlone

theorem rows {rows : List (List String)} (h : m.Holds .betweenRecords [] [] done)
    (hne : ∀ fs ∈ rows, fs ≠ []) :
    (((rows.flatMap Csv.renderRow).flatMap String.utf8EncodeChar).foldl step m).Holds
      .betweenRecords [] [] ((rows.map fun fs => fs.map Utf8.encode).reverse ++ done) := by
  induction rows generalizing m done with
  | nil => exact h
  | cons fs rows ih =>
    rw [List.forall_mem_cons] at hne
    rw [List.flatMap_cons, List.flatMap_append, List.foldl_append, List.map_cons,
      List.reverse_cons, List.append_assoc]
    exact ih (h.renderRow hne.1) hne.2

end Machine.Holds

/-- **Rows of any texts** are cut into their fields again. -/
theorem fields_rawRecords_render {rows : List (List String)} (hne : ∀ fs ∈ rows, fs ≠ [])
    (hmark : (Utf8.encode (render rows)).head? ≠ some 0xEF) :
    (rawRecords (Utf8.encode (render rows))).map RawRecord.fields =
      rows.map fun fs => fs.map Utf8.encode := by
  have hstart : (Machine.start ⟨0, 1⟩).Holds .betweenRecords [] [] [] := ⟨rfl, rfl, rfl, rfl⟩
  have hend := hstart.rows hne
  rw [← Utf8.encode_ofList, ← render, List.append_nil] at hend
  unfold rawRecords
  split
  · next hbytes => exact absurd (by rw [hbytes]; rfl) hmark
  · rw [Machine.finish, if_pos hend.mode_eq, List.map_reverse, hend.done_eq, List.reverse_reverse]

/-! ## Fields as text -/

/-- A text with no blank at either end. -/
structure Trimmed (s : String) : Prop where
  first : ∀ c ∈ s.toList.head?, Text.isBlank c = false
  last : ∀ c ∈ s.toList.getLast?, Text.isBlank c = false

namespace Trimmed

variable {s : String}

theorem trim_eq (h : Trimmed s) : Text.trim s = s := by
  rw [Text.trim, Text.trimChars_eq_self h.first h.last, String.ofList_toList]

theorem isAsciiBlank_eq_false {c : Char} (hc : Text.isBlank c = false) {b : UInt8}
    (hb : b ∈ String.utf8EncodeChar c) : isAsciiBlank b = false := by
  have hne : ∀ d : Char, d.toNat < 128 → Text.isBlank d = true → b ≠ d.toNat.toUInt8 := by
    rintro d hd hblank rfl
    rw [(Utf8.ascii_mem_utf8EncodeChar_iff hd).1 hb, hblank] at hc
    cases hc
  simp only [isAsciiBlank, Bool.or_eq_false_iff, decide_eq_false_iff_not]
  exact ⟨⟨⟨⟨hne ' ' (by decide) rfl, hne '\t' (by decide) rfl⟩, hne '\n' (by decide) rfl⟩,
    hne '\x0c' (by decide) rfl⟩, hne '\r' (by decide) rfl⟩

theorem trimBytes_encode (h : Trimmed s) : trimBytes (Utf8.encode s) = Utf8.encode s := by
  refine Text.dropWhile_ends_eq_self (fun b hb => ?_) fun b hb => ?_
  · obtain ⟨c, hc, hmem⟩ := Utf8.mem_head?_encode hb
    exact isAsciiBlank_eq_false (h.first c hc) hmem
  · obtain ⟨c, hc, hmem⟩ := Utf8.mem_getLast?_encode hb
    exact isAsciiBlank_eq_false (h.last c hc) hmem

end Trimmed

/-- Fields without blanks at their ends are read as they are. -/
theorem readFields_encode {fs : List String} (h : ∀ s ∈ fs, Trimmed s) (n : ℕ) :
    readFields n (fs.map Utf8.encode) = .ok fs := by
  induction fs generalizing n with
  | nil => rfl
  | cons s fs ih =>
    rw [List.forall_mem_cons] at h
    simp only [List.map_cons, readFields, h.1.trimBytes_encode, Utf8.decode?_encode, h.1.trim_eq,
      ih h.2]

/-- A record of fields without blanks at their ends. -/
theorem read_eq_ok {raw : RawRecord} {fs : List String} (hraw : raw.fields = fs.map Utf8.encode)
    (h : ∀ s ∈ fs, Trimmed s) : raw.read = .ok ⟨raw.place, fs⟩ := by
  rw [RawRecord.read, hraw, readFields_encode h]

end OverlayCensus.Csv
