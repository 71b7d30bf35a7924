/-
  OverlayCensus — overlays back from their files.

  * `readEdges_rows`: rows of edges are read as the edges;
  * `exists_ofFileText_eq`: reading a file is reading its rows;
  * `ofFileText_toFile`: a file gives back its overlay, whatever the hosts of its peers hold,
    and writing that one again gives the same file.
-/
import Mathlib
import OverlayCensus.Proofs.CsvRoundTrip
import OverlayCensus.Proofs.OverlayRelinking

namespace OverlayCensus.Overlay

variable {o : Overlay}

/-! ## Rows are read back -/

/-- An end whose columns give it back. -/
structure Written (x : EdgeEnd) : Prop where
  id_lt : x.id < 2 ^ 64
  readable : x.peer.Readable

theorem trimmed_render (n : ℕ) : Csv.Trimmed (Decimal.render n) := by
  refine ⟨?_, ?_⟩ <;> rw [Decimal.render, String.toList_ofList]
  · exact fun c hc => Decimal.isBlank_of_mem_digits (List.mem_of_head? hc)
  · exact fun c hc => Decimal.isBlank_of_mem_digits (List.mem_of_getLast? hc)

theorem trimmed_key {p : PeerAddress} (h : p.Readable) : Csv.Trimmed p.key := by
  refine ⟨?_, ?_⟩ <;> rw [PeerAddress.key, String.toList_ofList]
  · exact PeerAddress.isBlank_head?_keyChars h
  · exact PeerAddress.isBlank_getLast?_keyChars

theorem readWord_render {n : ℕ} (h : n < 2 ^ 64) : readWord (Decimal.render n) = some n := by
  rw [readWord, Decimal.render, String.toList_ofList]
  exact Decimal.readNat_digits h

theorem readCount_render (n : UInt32) : readCount (Decimal.render n.toNat) = some n := by
  rw [readCount, Decimal.render, String.toList_ofList, Decimal.readNat_digits n.toNat_lt]
  simp

theorem readColumn_eq_ok {α : Type} {record : Csv.Record} {column : ℕ} {read : String → Option α}
    {s : String} {x : α} (hfield : record.fields[column]? = some s) (hread : read s = some x) :
    readColumn record column read = .ok x := by
  rw [readColumn, hfield, Option.bind_some, hread]

theorem readEnd_eq_ok {record : Csv.Record} {column : ℕ} {x : EdgeEnd} (hx : Written x)
    (hid : record.fields[column]? = some (Decimal.render x.id))
    (hpeer : record.fields[column + 1]? = some x.peer.key)
    (hdevices : record.fields[column + 2]? = some (Decimal.render x.devices.toNat)) :
    readEnd record column = .ok x := by
  rw [readEnd, readColumn_eq_ok hid (readWord_render hx.id_lt),
    readColumn_eq_ok hpeer (PeerAddress.ofText?_key hx.readable),
    readColumn_eq_ok hdevices (readCount_render _)]
  rfl

/-- An edge whose row gives it back. -/
def WrittenEdge (e : Edge) : Prop :=
  Written e.first ∧ ∃ y, e.second = some y ∧ Written y

theorem readEdge_row {e : Edge} (he : WrittenEdge e) {row : List String} (hrow : edgeRow e = some row)
    (place : Csv.Place) : readEdge ⟨place, row⟩ = .ok e := by
  obtain ⟨x, second, cost⟩ := e
  obtain ⟨hx, y, rfl, hy⟩ := he
  obtain rfl := Option.some.inj hrow
  refine (if_pos rfl).trans (bind_eq_ok.2 ⟨x, readEnd_eq_ok hx rfl rfl rfl, ?_⟩)
  refine bind_eq_ok.2 ⟨y, readEnd_eq_ok hy rfl rfl rfl, ?_⟩
  exact bind_eq_ok.2 ⟨cost, readColumn_eq_ok rfl (readCount_render cost), rfl⟩

theorem trimmed_of_mem_row {e : Edge} (hkeys : ∀ x ∈ edgeEnds e, Csv.Trimmed x.peer.key)
    {row : List String} (hrow : edgeRow e = some row) : ∀ s ∈ row, Csv.Trimmed s := by
  obtain ⟨x, second, cost⟩ := e
  obtain ⟨y, rfl, rfl⟩ := Option.map_eq_some_iff.1 hrow
  have hx : Csv.Trimmed x.peer.key := hkeys x (by simp [edgeEnds])
  have hy : Csv.Trimmed y.peer.key := hkeys y (by simp [edgeEnds])
  simp [endColumns, trimmed_render, hx, hy]

/-- **Rows of edges** are read as the edges. -/
theorem readEdges_rows {edges : List Edge} (h : ∀ e ∈ edges, WrittenEdge e)
    {raws : List Csv.RawRecord} (n : ℕ)
    (hraws : raws.map Csv.RawRecord.fields =
      (edges.filterMap edgeRow).map fun row => row.map Utf8.encode) :
    readEdges n raws = .ok edges := by
  induction edges generalizing raws n with
  | nil =>
    obtain rfl := List.map_eq_nil_iff.1 hraws
    rfl
  | cons e edges ih =>
    rw [List.forall_mem_cons] at h
    obtain ⟨hx, y, hsecond, hy⟩ := h.1
    have hkeys : ∀ x ∈ edgeEnds e, Csv.Trimmed x.peer.key := by
      simp [edgeEnds, hsecond, trimmed_key hx.readable, trimmed_key hy.readable]
    obtain ⟨row, hrow⟩ : ∃ row, edgeRow e = some row := by simp [edgeRow, hsecond]
    rw [List.filterMap_cons_some hrow, List.map_cons] at hraws
    obtain ⟨raw, raws, rfl, hraw, hraws⟩ := List.map_eq_cons_iff.1 hraws
    have hread := Csv.read_eq_ok hraw (trimmed_of_mem_row hkeys hrow)
    rw [readEdges, readRecord, hread]
    refine bind_eq_ok.2 ⟨_, rfl, bind_eq_ok.2 ⟨e, readEdge_row h.1 hrow _, ?_⟩⟩
    exact bind_eq_ok.2 ⟨edges, ih h.2 (n + 1) hraws, rfl⟩

/-! ## Files -/

/-- Numbers of an overlay that fit their columns. -/
structure InWords (o : Overlay) : Prop where
  min_lt : o.band.min < 2 ^ 64
  max_lt : o.band.max < 2 ^ 64
  id_lt : ∀ x ∈ o.ends, x.id < 2 ^ 64

/-- The row of a degree band. -/
def bandRow (band : DegreeBand) : List String :=
  [Decimal.render band.min, Decimal.render band.max]

theorem readBand_row (hwords : o.InWords) (place : Csv.Place) :
    readBand ⟨place, bandRow o.band⟩ = .ok o.band := by
  refine (if_pos rfl).trans (bind_eq_ok.2 ⟨o.band.min, ?_, bind_eq_ok.2 ⟨o.band.max, ?_, rfl⟩⟩)
  · exact readColumn_eq_ok rfl (readWord_render hwords.min_lt)
  · exact readColumn_eq_ok rfl (readWord_render hwords.max_lt)

theorem renderField_render (n : ℕ) :
    Csv.renderField (Decimal.render n) = Decimal.digits n := by
  rw [Csv.renderField, Decimal.render, String.toList_ofList, if_neg]
  rw [Csv.needsQuotes, List.any_eq_true]
  rintro ⟨c, hc, hquotes⟩
  have hdigit := Decimal.digitValue_isSome_of_mem_digits hc
  simp only [Bool.or_eq_true, decide_eq_true_eq] at hquotes
  rcases hquotes with ((rfl | rfl) | rfl) | rfl <;> cases hdigit

/-- A file starts with a digit, not with a byte-order mark. -/
theorem head?_encode_toFile (o : Overlay) : (Utf8.encode o.toFile).head? ≠ some 0xEF := by
  intro hmark
  obtain ⟨c, hc, hmem⟩ := Utf8.mem_head?_encode hmark
  have hfile : ∃ rest, o.toFile.toList = Decimal.digits o.band.min ++ rest := by
    rw [toFile, Csv.render, String.toList_ofList, List.flatMap_cons, Csv.renderRow, if_neg (by simp),
      Csv.renderFields, renderField_render, List.append_assoc, List.append_assoc]
    · exact ⟨_, rfl⟩
    · exact List.cons_ne_nil _ _
  obtain ⟨rest, hrest⟩ := hfile
  rw [hrest, List.head?_append_of_ne_nil _ (Decimal.digits_ne_nil _)] at hc
  have hle := (Decimal.toNat_of_digitValue
    (Decimal.digitValue_isSome_of_mem_digits (List.mem_of_head? hc))).2
  rw [Utf8.utf8EncodeChar_ascii (by omega), List.mem_singleton] at hmem
  have hbyte := congrArg UInt8.toNat hmem
  rw [Nat.toUInt8, UInt8.toNat_ofNat', Nat.mod_eq_of_lt (by omega)] at hbyte
  change 239 = _ at hbyte
  omega

/-- To read a file is to read its rows as edges, and to make an overlay of them. -/
theorem exists_ofFileText_eq (hwords : o.InWords) :
    ∃ raws, raws.map Csv.RawRecord.fields =
        (o.edges.filterMap edgeRow).map (fun row => row.map Utf8.encode) ∧
      ofFileText o.toFile = readEdges 1 raws >>= ofEdges o.band := by
  have hrows : ∀ fs ∈ bandRow o.band :: o.edges.filterMap edgeRow, fs ≠ [] := by
    refine List.forall_mem_cons.2 ⟨List.cons_ne_nil _ _, fun fs hfs => ?_⟩
    obtain ⟨e, -, hrow⟩ := List.mem_filterMap.1 hfs
    obtain ⟨y, -, rfl⟩ := Option.map_eq_some_iff.1 hrow
    exact List.append_ne_nil_of_right_ne_nil _ (List.cons_ne_nil _ _)
  have hraws := Csv.fields_rawRecords_render hrows (head?_encode_toFile o)
  rw [List.map_cons] at hraws
  obtain ⟨header, raws, hfile, hheader, hrest⟩ := List.map_eq_cons_iff.1 hraws
  have htrimmed : ∀ s ∈ bandRow o.band, Csv.Trimmed s := by simp [bandRow, trimmed_render]
  have hrecord : readRecord 0 header = .ok ⟨header.place, bandRow o.band⟩ := by
    rw [readRecord, Csv.read_eq_ok hheader htrimmed]
  have hband := readBand_row hwords header.place
  have htext : o.toFile = Csv.render (bandRow o.band :: o.edges.filterMap edgeRow) := rfl
  refine ⟨raws, hrest, ?_⟩
  rw [ofFileText, ofFile, htext]
  simp only [hfile, hrecord, ok_bind, hband]

theorem ofFileText_eq_ofEdges (h : o.Ordered) (hwords : o.InWords)
    (hread : ∀ x ∈ o.ends, x.peer.Readable) :
    ofFileText o.toFile = ofEdges o.band o.edges := by
  have hwritten : ∀ e ∈ o.edges, WrittenEdge e := by
    intro e he
    obtain ⟨x, hx, y, hy, hfirst, hsecond⟩ := h.mem_edges he
    exact ⟨hfirst ▸ ⟨hwords.id_lt x hx, hread x hx⟩, y, hsecond, hwords.id_lt y hy, hread y hy⟩
  obtain ⟨raws, hraws, hfile⟩ := exists_ofFileText_eq hwords
  rw [hfile, readEdges_rows hwritten 1 hraws, ok_bind]

/-- **A file gives back its overlay** whatever the hosts of the peers hold: the same band, the
    same vertices in the same order, and at every vertex the same links, perhaps in another
    order; yet the file of what was read is the same. -/
theorem ofFileText_toFile (h : o.Ordered) (hwords : o.InWords) (hmin : 1 ≤ o.band.min)
    (hverify : o.verify = .ok ()) (hread : ∀ x ∈ o.ends, x.peer.Readable) :
    ∃ o', ofFileText o.toFile = .ok o' ∧ o'.band = o.band ∧ o'.ends = o.ends ∧
      (∀ p, o'.find? p = o.find? p) ∧ (∀ i, (o'.linksAt i).Perm (o.linksAt i)) ∧
      o'.toFile = o.toFile := by
  obtain ⟨o', hedges, hordered, hband, hends, hlinks, hupward⟩ := h.ofEdges_edges hmin hverify
  refine ⟨o', (ofFileText_eq_ofEdges h hwords hread).trans hedges, hband, hends, fun p => ?_,
    hlinks, ?_⟩
  · rw [find?_eq, find?_eq, hends]
  · rw [toFile, toFile, hordered.edges_eq, h.edges_eq, hband, hends, hupward]

namespace Sample

/-- Hosts that hold what separates columns, rows and ports. -/
def oddHosts : List EdgeEnd :=
  [⟨3, ⟨"a,\"b\"", 1⟩, 2⟩, ⟨4, ⟨"c\nd", 2⟩, 0⟩, ⟨9, ⟨":: 1", 3⟩, 5⟩]

/-- The peers in a row, the one in the middle linked to the last one first. -/
def oddRow : Overlay :=
  ((bare ⟨1, 2⟩ oddHosts).link 1 2 7).link 0 1 4

theorem ordered_oddRow : oddRow.Ordered := by
  have hfirst : ((bare ⟨1, 2⟩ oddHosts).link 1 2 7).Simple :=
    (simple_bare ⟨1, 2⟩ oddHosts).link (by decide) (by decide) (by decide) (not_adj_bare _ _ _ _) 7
  have hnew : 1 ∉ ((bare ⟨1, 2⟩ oddHosts).link 1 2 7).targetsAt 0 := by decide
  refine ⟨hfirst.link (by decide) (by decide) (by decide) hnew 4, ?_, by decide +kernel⟩
  rw [Increasing]
  decide +kernel

/-- The links of the peer in the middle come back in the other order. -/
theorem ofFileText_toFile_oddRow :
    (oddRow.Ordered ∧ oddRow.InWords ∧ 1 ≤ oddRow.band.min ∧ oddRow.verify = .ok () ∧
      ∀ x ∈ oddRow.ends, x.peer.Readable) ∧
    ∃ o', ofFileText oddRow.toFile = .ok o' ∧ o'.band = oddRow.band ∧
      o'.ends = oddRow.ends ∧ (∀ p, o'.find? p = oddRow.find? p) ∧
      (∀ i, (o'.linksAt i).Perm (oddRow.linksAt i)) ∧ o'.toFile = oddRow.toFile := by
  have hwords : oddRow.InWords := ⟨by decide +kernel, by decide +kernel, by decide +kernel⟩
  have hmin : 1 ≤ oddRow.band.min := by decide
  have hverify : oddRow.verify = .ok () := by decide +kernel
  have hread : ∀ x ∈ oddRow.ends, x.peer.Readable := by decide +kernel
  exact ⟨⟨ordered_oddRow, hwords, hmin, hverify, hread⟩,
    ofFileText_toFile ordered_oddRow hwords hmin hverify hread⟩

end Sample

end OverlayCensus.Overlay
