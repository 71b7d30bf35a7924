/-
  OverlayCensus — bytes that are a message end by themselves.

  A reader looks at the bytes that it takes and at no others, and it notices when they stop
  too early.  So of two messages neither is the beginning of the other, and what is cut off
  or appended is told from every other fault.

  * `Takes read a front`: `read` takes `a` from `front` whatever follows, and from no shorter
    beginning of it;
  * `Delimits read`: so it is for everything that `read` takes.  Readers are put together by
    `Delimits.bind`, and every field has its own lemma;
  * `decode_delimits`: what is decoded from the beginnings and from the continuations of a
    message.
-/
import Mathlib
import OverlayCensus.Proofs.WireRoundTrip

namespace OverlayCensus

/-- More bytes are needed than remain. -/
def WireError.IsTruncation (e : WireError) : Prop :=
  ∃ needed remaining, e = .truncated needed remaining ∧ remaining < needed

namespace Wire

variable {α β : Type} {read : Reader α} {next : α → Reader β} {a : α} {b : β}
  {front more : List UInt8}

/-! ## Readers that end by themselves -/

/-- The reader takes `a` from `front` whatever follows, and finds every shorter beginning
    truncated. -/
structure Takes (read : Reader α) (a : α) (front : List UInt8) : Prop where
  reads : Reads read a front
  short : ∀ cut, cut <+: front → cut ≠ front → ∃ e, read cut = .error e ∧ e.IsTruncation

/-- Everything that the reader takes ends by itself. -/
def Delimits (read : Reader α) : Prop :=
  ∀ bytes a rest, read bytes = .ok (a, rest) → ∃ front, bytes = front ++ rest ∧ Takes read a front

theorem Takes.pure (a : α) : Takes (Pure.pure a) a [] :=
  ⟨.pure a, fun _ hcut hne => absurd (List.prefix_nil.1 hcut) hne⟩

/-- A cut hits the first of two readers, or the second one after the first one has taken all
    its bytes. -/
theorem Takes.bind (ha : Takes read a front) (hb : Takes (next a) b more) :
    Takes (read >>= next) b (front ++ more) where
  reads := ha.reads.bind hb.reads
  short cut hcut hne := by
    change ∃ e, (read cut).bind _ = _ ∧ _
    by_cases hall : front <+: cut
    · obtain ⟨tail, rfl⟩ := hall
      rw [ha.reads tail]
      exact hb.short tail ((List.prefix_append_right_inj front).1 hcut) fun h => hne (h ▸ rfl)
    · have hin : cut <+: front :=
        (List.prefix_or_prefix_of_prefix hcut (List.prefix_append front more)).resolve_right hall
      obtain ⟨e, he, htruncated⟩ := ha.short cut hin fun h => hall (h ▸ List.prefix_rfl)
      exact ⟨e, by rw [he]; rfl, htruncated⟩

namespace Delimits

theorem pure (a : α) : Delimits (Pure.pure a) := by
  rintro bytes a' rest ⟨⟩
  exact ⟨[], rfl, .pure a⟩

theorem throw {e : WireError} : Delimits (throw e : Reader α) :=
  nofun

theorem bind (ha : Delimits read) (hb : ∀ a, Delimits (next a)) : Delimits (read >>= next) := by
  intro bytes b rest hread
  change (read bytes).bind _ = _ at hread
  cases hfirst : read bytes with
  | error e => cases hfirst ▸ hread
  | ok first =>
    obtain ⟨a, middle⟩ := first
    rw [hfirst] at hread
    obtain ⟨front, rfl, htakes⟩ := ha _ _ _ hfirst
    obtain ⟨more, rfl, hmore⟩ := hb a _ _ _ hread
    exact ⟨front ++ more, (List.append_assoc ..).symm, htakes.bind hmore⟩

end Delimits

/-! ## Fields -/

theorem delimits_readBytes (n : ℕ) : Delimits (readBytes n) := by
  intro bytes a rest hread
  simp only [readBytes, List.length_take] at hread
  split_ifs at hread with hlength
  cases hread
  have htake : (bytes.take n).length = n := by rw [List.length_take]; omega
  refine ⟨bytes.take n, (List.take_append_drop n bytes).symm, reads_readBytes htake,
    fun cut hcut hne => ?_⟩
  have hless : cut.length < n := by
    refine lt_of_le_of_ne (htake ▸ hcut.length_le) fun h => hne (hcut.eq_of_length ?_)
    rw [h, htake]
  refine ⟨.truncated n cut.length, ?_, n, cut.length, rfl, hless⟩
  rw [readBytes, List.take_of_length_le hless.le, if_pos hless]

theorem delimits_readWord : Delimits readWord :=
  (delimits_readBytes 4).bind fun _ => .pure _

theorem delimits_readInt : Delimits readInt :=
  delimits_readWord.bind fun _ => .pure _

theorem delimits_readText : Delimits readText := by
  refine delimits_readWord.bind fun n => (delimits_readBytes _).bind fun bytes => ?_
  cases Utf8.decode? bytes with
  | none => exact .throw
  | some s => exact .pure s

theorem delimits_readAddress : Delimits readAddress := by
  refine delimits_readText.bind fun s => ?_
  cases PeerAddress.ofText? s with
  | none => exact .throw
  | some a => exact .pure a

theorem delimits_readUuid : Delimits readUuid := by
  refine delimits_readText.bind fun s => ?_
  cases Uuid.ofText? s with
  | none => exact .throw
  | some id => exact .pure id

theorem delimits_readItems {item : Reader α} (h : Delimits item) (n : ℕ) :
    Delimits (readItems item n) := by
  induction n with
  | zero => exact .pure []
  | succ n ih => exact h.bind fun _ => ih.bind fun _ => .pure _

theorem delimits_readList {item : Reader α} (h : Delimits item) : Delimits (readList item) :=
  delimits_readWord.bind fun n => delimits_readItems h n.toNat

theorem delimits_readQuery : Delimits readQuery :=
  delimits_readUuid.bind fun _ => delimits_readAddress.bind fun _ =>
    delimits_readAddress.bind fun _ => delimits_readText.bind fun _ =>
      delimits_readInt.bind fun _ => delimits_readInt.bind fun _ =>
        delimits_readInt.bind fun _ => delimits_readInt.bind fun _ => .pure _

theorem delimits_readFields (tag : MessageTag) : Delimits (readFields tag) := by
  cases tag with
  | flood | randomWalk => exact delimits_readQuery.bind fun _ => .pure _
  | gossipQuery =>
    refine delimits_readQuery.bind fun q => delimits_readInt.bind fun code => ?_
    cases gossipKind? code with
    | none => exact .throw
    | some kind => exact .pure _
  | gossipData =>
    have hentry : Delimits readDistance :=
      delimits_readText.bind fun _ => delimits_readWord.bind fun _ => .pure _
    exact delimits_readAddress.bind fun _ => (delimits_readList hentry).bind fun _ => .pure _
  | gossipEntries =>
    have hentry : Delimits readLocation :=
      delimits_readAddress.bind fun _ => delimits_readText.bind fun _ => .pure _
    exact delimits_readAddress.bind fun _ => (delimits_readList hentry).bind fun _ => .pure _
  | introduction => exact delimits_readAddress.bind fun _ => .pure _
  | register => exact delimits_readAddress.bind fun _ => delimits_readText.bind fun _ => .pure _
  | initiateConnections =>
    exact (delimits_readList delimits_readAddress).bind fun _ =>
      delimits_readText.bind fun _ => .pure _
  | shutdown | listPeersRequest => exact .pure _
  | listPeersResponse =>
    exact delimits_readAddress.bind fun _ =>
      (delimits_readList delimits_readAddress).bind fun _ => .pure _

end Wire

/-! ## Messages -/

namespace Message

variable {bytes front extra : List UInt8} {m : Message}

/-- The fields of a message end by themselves. -/
theorem takes_of_decode (h : decode bytes = .ok m) : ∃ code tag fields, bytes = code :: fields ∧
    MessageTag.ofCode? code = some tag ∧ Wire.Takes (Wire.readFields tag) m fields := by
  obtain ⟨code, tag, fields, rfl, htag, hread⟩ := readFields_of_decode h
  obtain ⟨front, rfl, htakes⟩ := Wire.delimits_readFields tag _ _ _ hread
  exact ⟨code, tag, _, rfl, htag, by rwa [List.append_nil]⟩

/-- What follows a message is counted. -/
theorem decode_append (h : decode bytes = .ok m) (hextra : extra ≠ []) :
    decode (bytes ++ extra) = .error (.trailingBytes extra.length) := by
  obtain ⟨code, tag, fields, rfl, htag, htakes⟩ := takes_of_decode h
  simp only [List.cons_append, decode, htag, htakes.reads extra]

/-- A message that is cut off behind its first byte is truncated. -/
theorem decode_cut (h : decode bytes = .ok m) (hfront : front <+: bytes) (hne : front ≠ bytes)
    (hsome : front ≠ []) : ∃ e, decode front = .error e ∧ e.IsTruncation := by
  obtain ⟨code, tag, fields, rfl, htag, htakes⟩ := takes_of_decode h
  cases front with
  | nil => exact absurd rfl hsome
  | cons code' cut =>
    obtain ⟨rfl, hcut⟩ := List.cons_prefix_cons.1 hfront
    obtain ⟨e, he, htruncated⟩ := htakes.short cut hcut fun h => hne (h ▸ rfl)
    exact ⟨e, by simp only [decode, htag, he], htruncated⟩

/-- **Messages delimit themselves.**  Without any bytes there is nothing to decode, of every
    other beginning of a message it is told that bytes are missing, and what follows one is
    counted; so no message is the beginning of another. -/
theorem decode_delimits (h : decode bytes = .ok m) :
    decode [] = .error .empty ∧
      (∀ front, front <+: bytes → front ≠ bytes → front ≠ [] →
        ∃ needed remaining, decode front = .error (.truncated needed remaining) ∧
          remaining < needed) ∧
      (∀ extra, extra ≠ [] → decode (bytes ++ extra) = .error (.trailingBytes extra.length)) ∧
      ∀ bytes' m', decode bytes' = .ok m' → bytes <+: bytes' ∨ bytes' <+: bytes → bytes' = bytes := by
  have hsame : ∀ {bytes bytes' : List UInt8} {m m' : Message}, decode bytes = .ok m →
      decode bytes' = .ok m' → bytes <+: bytes' → bytes' = bytes := by
    rintro bytes bytes' m m' h h' ⟨extra, rfl⟩
    by_contra hne
    rw [decode_append h (by rintro rfl; exact hne (List.append_nil bytes))] at h'
    cases h'
  refine ⟨rfl, fun front hfront hne hsome => ?_, fun extra => decode_append h, ?_⟩
  · obtain ⟨e, he, needed, remaining, rfl, hless⟩ := decode_cut h hfront hne hsome
    exact ⟨needed, remaining, he, hless⟩
  · rintro bytes' m' h' (hp | hp)
    · exact hsame h h' hp
    · exact (hsame h' h hp).symm

open Sample in
/-- A walk that is cut off inside its originator, or has bytes behind it. -/
theorem decode_delimits_loose : decode looseBytes = .ok looseWalk ∧
    (∃ needed remaining, decode (looseBytes.take 60) = .error (.truncated needed remaining) ∧
      remaining < needed) ∧
    decode (looseBytes ++ [0, 0]) = .error (.trailingBytes 2) := by
  obtain ⟨-, hcut, hextra, -⟩ := decode_delimits decode_looseBytes
  refine ⟨decode_looseBytes, hcut _ (List.take_prefix 60 looseBytes) ?_ ?_, hextra [0, 0] ?_⟩ <;>
    decide +kernel

end Message

end OverlayCensus
