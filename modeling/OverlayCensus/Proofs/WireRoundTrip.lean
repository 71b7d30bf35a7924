/-
  OverlayCensus — which messages their bytes give back.

  * `Reads read a bytes`: `read` takes `a` from in front of whatever follows `bytes`.
    Readers are put together by `Reads.bind`, and every field has its own lemma;
  * `Yields read P`: whatever `read` takes satisfies `P`; `yields_readFields` carries this
    from the texts and addresses of a message to the message;
  * `readable_of_decode`: all addresses of a message that was read are readable;
  * `decode_encode_iff`: a message whose texts and lists have lengths of 32 bits is read
    from its bytes iff its addresses are readable.
-/
import Mathlib
import OverlayCensus.Message.Wire
import OverlayCensus.Proofs.AddressText
import OverlayCensus.Proofs.Utf8Bytes

namespace OverlayCensus

theorem Hex.length_render (k n : ℕ) : (Hex.render k n).length = k := by
  induction k generalizing n with
  | zero => rfl
  | succ k ih => simp [Hex.render, ih]

/-! ## What a message holds -/

namespace Message

/-- The addresses in a message. -/
def addresses : Message → List PeerAddress
  | .query _ q => [q.sender, q.originator]
  | .distances sender _ => [sender]
  | .locations sender entries => sender :: entries.map Prod.fst
  | .introduction identity | .register identity _ => [identity]
  | .initiateConnections neighbors _ => neighbors
  | .shutdown | .listPeersRequest => []
  | .listPeersResponse peer neighbors => peer :: neighbors

/-- The texts in a message that are neither identifiers nor addresses. -/
def texts : Message → List String
  | .query _ q => [q.metric]
  | .distances _ entries => entries.map Prod.fst
  | .locations _ entries => entries.map Prod.snd
  | .register _ devices | .initiateConnections _ devices => [devices]
  | .introduction _ | .shutdown | .listPeersRequest | .listPeersResponse .. => []

/-- The number of items in the list of a message, 0 if it has none. -/
def itemCount : Message → ℕ
  | .distances _ entries => entries.length
  | .locations _ entries => entries.length
  | .initiateConnections neighbors _ | .listPeersResponse _ neighbors => neighbors.length
  | .query .. | .introduction _ | .register .. | .shutdown | .listPeersRequest => 0

end Message

/-- Whether four bytes can hold the length of a text. -/
def Utf8.Fits (s : String) : Prop :=
  (Utf8.encode s).length < 2 ^ 32

instance {s : String} : Decidable (Utf8.Fits s) :=
  inferInstanceAs (Decidable (_ < _))

/-- Four bytes can hold every length in a message. -/
structure Message.Fits (m : Message) : Prop where
  texts : ∀ s ∈ m.texts, Utf8.Fits s
  keys : ∀ a ∈ m.addresses, Utf8.Fits a.key
  items : m.itemCount < 2 ^ 32

instance {m : Message} : Decidable m.Fits :=
  decidable_of_iff ((∀ s ∈ m.texts, Utf8.Fits s) ∧ (∀ a ∈ m.addresses, Utf8.Fits a.key) ∧
      m.itemCount < 2 ^ 32)
    ⟨fun ⟨htexts, hkeys, hitems⟩ => ⟨htexts, hkeys, hitems⟩, fun h => ⟨h.1, h.2, h.3⟩⟩

namespace Wire

variable {α β : Type} {read : Reader α} {next : α → Reader β} {a : α} {b : β}
  {bytes more : List UInt8}

/-! ## Readers that read back -/

/-- The reader takes `a` from `bytes`, whatever follows them. -/
def Reads (read : Reader α) (a : α) (bytes : List UInt8) : Prop :=
  ∀ rest, read (bytes ++ rest) = .ok (a, rest)

namespace Reads

theorem pure (a : α) : Reads (Pure.pure a) a [] :=
  fun _ => rfl

theorem bind (ha : Reads read a bytes) (hb : Reads (next a) b more) :
    Reads (read >>= next) b (bytes ++ more) := by
  intro rest
  rw [List.append_assoc]
  change (read (bytes ++ (more ++ rest))).bind _ = _
  rw [ha]
  exact hb rest

/-- A reader behind which only checks follow. -/
theorem check (ha : Reads read a bytes) (hb : Reads (next a) b []) :
    Reads (read >>= next) b bytes := by
  have h := ha.bind hb
  rwa [List.append_nil] at h

end Reads

/-! ## Fields -/

theorem reads_readBytes {n : ℕ} (h : bytes.length = n) : Reads (readBytes n) bytes bytes := by
  intro rest
  simp [readBytes, ← h]

theorem foldl_word (n : UInt32) :
    (word n).foldl (fun acc b => acc * 256 + b.toUInt32) 0 = n := by
  have hlt := n.toNat_lt
  rw [← UInt32.toNat_inj]
  simp only [word, List.foldl_cons, List.foldl_nil, zero_mul, zero_add, UInt32.toUInt32_toUInt8,
    UInt32.toNat_add, UInt32.toNat_mul, UInt32.toNat_mod, UInt32.toNat_shiftRight,
    UInt32.reduceToNat, Nat.reduceMod, Nat.shiftRight_eq_div_pow]
  omega

theorem reads_readWord (n : UInt32) : Reads readWord n (word n) := by
  have hfour : (word n).length = 4 := rfl
  refine (reads_readBytes hfour).check ?_
  rw [foldl_word]
  exact .pure n

theorem reads_readInt (n : Int32) : Reads readInt n (int n) :=
  (reads_readWord _).check (.pure n)

theorem reads_readText {s : String} (h : Utf8.Fits s) : Reads readText s (text s) := by
  refine (reads_readWord _).bind ((reads_readBytes ?_).check ?_)
  · rw [UInt32.toNat_ofNat', Nat.mod_eq_of_lt h]
  · simp only [Utf8.decode?_encode]
    exact .pure s

theorem reads_readAddress {a : PeerAddress} (h : a.Readable) (hfits : Utf8.Fits a.key) :
    Reads readAddress a (address a) := by
  refine (reads_readText hfits).check ?_
  simp only [PeerAddress.ofText?_key h]
  exact .pure a

theorem fits_render (id : Uuid) : Utf8.Fits id.render := by
  have hlength : id.render.toList.length = 36 := by
    simp [Uuid.render, Uuid.renderChars, Hex.length_render]
  have hle := Utf8.length_encode_le id.render
  rw [hlength] at hle
  exact hle.trans_lt (by norm_num)

theorem reads_readUuid (id : Uuid) : Reads readUuid id (text id.render) := by
  refine (reads_readText (fits_render id)).check ?_
  simp only [Uuid.ofText?_render]
  exact .pure id

/-- Items are read one after another, in the order they were written. -/
theorem reads_readItems {item : Reader α} {write : α → List UInt8} {items : List α}
    (h : ∀ a ∈ items, Reads item a (write a)) :
    Reads (readItems item items.length) items (items.flatMap write) := by
  induction items with
  | nil => exact .pure []
  | cons a items ih =>
    rw [List.forall_mem_cons] at h
    rw [List.flatMap_cons]
    exact h.1.bind ((ih h.2).check (.pure _))

theorem reads_readList {item : Reader α} {write : α → List UInt8} {items : List α}
    (hlength : items.length < 2 ^ 32) (h : ∀ a ∈ items, Reads item a (write a)) :
    Reads (readList item) items (list write items) := by
  refine (reads_readWord _).bind ?_
  rw [show (items.length.toUInt32).toNat = items.length from
    (UInt32.toNat_ofNat' ..).trans (Nat.mod_eq_of_lt hlength)]
  exact reads_readItems h

theorem reads_readDistance {entry : String × UInt32} (h : Utf8.Fits entry.1) :
    Reads readDistance entry (text entry.1 ++ word entry.2) :=
  (reads_readText h).bind ((reads_readWord _).check (.pure entry))

theorem reads_readLocation {entry : PeerAddress × String} (hreadable : entry.1.Readable)
    (hkey : Utf8.Fits entry.1.key) (hname : Utf8.Fits entry.2) :
    Reads readLocation entry (address entry.1 ++ text entry.2) :=
  (reads_readAddress hreadable hkey).bind ((reads_readText hname).check (.pure entry))

theorem reads_readQuery {q : Query} (hsender : q.sender.Readable)
    (horiginator : q.originator.Readable) (hsenderFits : Utf8.Fits q.sender.key) (horiginatorFits : Utf8.Fits q.originator.key)
    (hmetric : Utf8.Fits q.metric) :
    Reads readQuery q (query q) := by
  simp only [query, List.append_assoc]
  refine (reads_readUuid _).bind ?_
  refine (reads_readAddress hsender hsenderFits).bind ?_
  refine (reads_readAddress horiginator horiginatorFits).bind ?_
  refine (reads_readText hmetric).bind ?_
  exact (reads_readInt _).bind ((reads_readInt _).bind ((reads_readInt _).bind
    ((reads_readInt _).check (.pure q))))

theorem reads_readFields {m : Message} (hfits : m.Fits) (h : ∀ a ∈ m.addresses, a.Readable) :
    Reads (readFields m.tag) m (fields m) := by
  have hkeys := hfits.keys
  have htexts := hfits.texts
  have hitems := hfits.items
  cases m with
  | query kind q =>
    have hquery : Reads readQuery q (query q) := by
      simp only [Message.addresses, Message.texts, List.forall_mem_cons] at h hkeys htexts
      exact reads_readQuery h.1 h.2.1 hkeys.1 hkeys.2.1 htexts.1
    cases kind with
    | flood | randomWalk => exact hquery.check (.pure _)
    | gossipDistance | gossipLocation => exact hquery.bind ((reads_readInt _).check (.pure _))
  | distances sender entries =>
    rw [Message.addresses, List.forall_mem_singleton] at h hkeys
    refine (reads_readAddress h hkeys).bind ((reads_readList hitems fun e he => ?_).check (.pure _))
    exact reads_readDistance (htexts _ (List.mem_map_of_mem he))
  | locations sender entries =>
    simp only [Message.addresses, List.forall_mem_cons] at h hkeys
    refine (reads_readAddress h.1 hkeys.1).bind
      ((reads_readList hitems fun e he => ?_).check (.pure _))
    exact reads_readLocation (h.2 _ (List.mem_map_of_mem he)) (hkeys.2 _ (List.mem_map_of_mem he))
      (htexts _ (List.mem_map_of_mem he))
  | introduction identity =>
    rw [Message.addresses, List.forall_mem_singleton] at h hkeys
    exact (reads_readAddress h hkeys).check (.pure _)
  | register identity devices =>
    rw [Message.addresses, List.forall_mem_singleton] at h hkeys
    rw [Message.texts, List.forall_mem_singleton] at htexts
    exact (reads_readAddress h hkeys).bind ((reads_readText htexts).check (.pure _))
  | initiateConnections neighbors devices =>
    rw [Message.texts, List.forall_mem_singleton] at htexts
    refine (reads_readList hitems fun a ha => ?_).bind ((reads_readText htexts).check (.pure _))
    exact reads_readAddress (h a ha) (hkeys a ha)
  | shutdown | listPeersRequest => exact .pure _
  | listPeersResponse peer neighbors =>
    simp only [Message.addresses, List.forall_mem_cons] at h hkeys
    refine (reads_readAddress h.1 hkeys.1).bind
      ((reads_readList hitems fun a ha => ?_).check (.pure _))
    exact reads_readAddress (h.2 a ha) (hkeys.2 a ha)

/-! ## What readers yield -/

/-- Whatever the reader takes satisfies `P`. -/
def Yields (read : Reader α) (P : α → Prop) : Prop :=
  ∀ bytes a rest, read bytes = .ok (a, rest) → P a

namespace Yields

variable {P : α → Prop} {Q : β → Prop}

theorem pure (h : P a) : Yields (Pure.pure a) P := by
  rintro bytes b rest hread
  cases hread
  exact h

theorem throw {e : WireError} : Yields (throw e) P :=
  nofun

theorem bind (ha : Yields read P) (hb : ∀ a, P a → Yields (next a) Q) :
    Yields (read >>= next) Q := by
  intro bytes b rest hread
  change (read bytes).bind _ = _ at hread
  cases hfirst : read bytes with
  | error e => cases hfirst ▸ hread
  | ok first =>
    rw [hfirst] at hread
    exact hb _ (ha _ _ _ hfirst) _ _ _ hread

theorem any : Yields read fun _ => True :=
  fun _ _ _ _ => trivial

/-- A reader about whose first part nothing needs to be known. -/
theorem skip (hb : ∀ a, Yields (next a) Q) : Yields (read >>= next) Q :=
  any.bind fun a _ => hb a

end Yields

theorem yields_readAddress : Yields readAddress PeerAddress.Readable := by
  refine .skip fun s => ?_
  cases h : PeerAddress.ofText? s with
  | none => exact .throw
  | some a => exact .pure (PeerAddress.readable_of_ofText? h)

theorem yields_readItems {item : Reader α} {P : α → Prop} (h : Yields item P) (n : ℕ) :
    Yields (readItems item n) fun items => items.length = n ∧ ∀ a ∈ items, P a := by
  induction n with
  | zero => exact .pure (by simp)
  | succ n ih =>
    exact h.bind fun a ha => ih.bind fun items ⟨hlength, hitems⟩ =>
      .pure ⟨congrArg (· + 1) hlength, List.forall_mem_cons.2 ⟨ha, hitems⟩⟩

theorem yields_readList {item : Reader α} {P : α → Prop} (h : Yields item P) :
    Yields (readList item) fun items => items.length < 2 ^ 32 ∧ ∀ a ∈ items, P a := by
  refine .skip fun n => ?_
  intro bytes items rest hread
  obtain ⟨hlength, hitems⟩ := yields_readItems h _ bytes items rest hread
  exact ⟨hlength ▸ n.toNat_lt, hitems⟩

section
variable {P : PeerAddress → Prop} {T : String → Prop}

theorem yields_readQuery (haddress : Yields readAddress P) (htext : Yields readText T) :
    Yields readQuery fun q => P q.sender ∧ P q.originator ∧ T q.metric := by
  refine .skip fun id => haddress.bind fun sender hsender => ?_
  refine haddress.bind fun originator horiginator => htext.bind fun metric hmetric => ?_
  exact .skip fun _ => .skip fun _ => .skip fun _ => .skip fun _ =>
    .pure ⟨hsender, horiginator, hmetric⟩

/-- **What holds of every address and every text that is read** holds of all of them in a
    message; and its list has no more items than four bytes can count. -/
theorem yields_readFields (haddress : Yields readAddress P) (htext : Yields readText T)
    (tag : MessageTag) : Yields (readFields tag) fun m =>
      (∀ a ∈ m.addresses, P a) ∧ (∀ s ∈ m.texts, T s) ∧ m.itemCount < 2 ^ 32 := by
  have hquery : ∀ (kind : QueryKind) {q : Query}, P q.sender ∧ P q.originator ∧ T q.metric →
      (∀ a ∈ (Message.query kind q).addresses, P a) ∧ (∀ s ∈ (Message.query kind q).texts, T s) ∧
        (Message.query kind q).itemCount < 2 ^ 32 := by
    intro kind q hq
    simpa [Message.addresses, Message.texts, Message.itemCount, and_assoc] using hq
  have haddresses := yields_readList haddress
  cases tag with
  | flood => exact (yields_readQuery haddress htext).bind fun _ hq => .pure (hquery _ hq)
  | randomWalk => exact (yields_readQuery haddress htext).bind fun _ hq => .pure (hquery _ hq)
  | gossipQuery =>
    refine (yields_readQuery haddress htext).bind fun q hq => .skip fun code => ?_
    cases gossipKind? code with
    | none => exact .throw
    | some kind => exact .pure (hquery kind hq)
  | gossipData =>
    have hentries : Yields readDistance fun entry => T entry.1 :=
      htext.bind fun _ hname => .skip fun _ => .pure hname
    refine haddress.bind fun sender hsender => (yields_readList hentries).bind
      fun entries ⟨hlength, hnames⟩ => .pure ⟨?_, List.forall_mem_map.2 hnames, hlength⟩
    exact List.forall_mem_singleton.2 hsender
  | gossipEntries =>
    have hentries : Yields readLocation fun entry => P entry.1 ∧ T entry.2 :=
      haddress.bind fun _ hholder => htext.bind fun _ hname => .pure ⟨hholder, hname⟩
    refine haddress.bind fun sender hsender => (yields_readList hentries).bind
      fun entries ⟨hlength, hboth⟩ => .pure ⟨?_, List.forall_mem_map.2 fun e he => (hboth e he).2,
        hlength⟩
    exact List.forall_mem_cons.2 ⟨hsender, List.forall_mem_map.2 fun e he => (hboth e he).1⟩
  | introduction =>
    exact haddress.bind fun _ ha => .pure (by simpa [Message.addresses, Message.texts, Message.itemCount])
  | register =>
    refine haddress.bind fun _ ha => htext.bind fun _ hs => .pure ?_
    simpa [Message.addresses, Message.texts, Message.itemCount] using ⟨ha, hs⟩
  | initiateConnections =>
    exact haddresses.bind fun _ ⟨hlength, hall⟩ => htext.bind fun _ hs =>
      .pure ⟨hall, List.forall_mem_singleton.2 hs, hlength⟩
  | shutdown | listPeersRequest =>
    exact .pure (by simp [Message.addresses, Message.texts, Message.itemCount])
  | listPeersResponse =>
    exact haddress.bind fun _ ha => haddresses.bind fun _ ⟨hlength, hall⟩ =>
      .pure ⟨List.forall_mem_cons.2 ⟨ha, hall⟩, nofun, hlength⟩

end

end Wire

/-! ## Messages -/

namespace Message

variable {m : Message}

/-- A message is a tag and fields with nothing behind them. -/
theorem readFields_of_decode {bytes : List UInt8} (h : decode bytes = .ok m) :
    ∃ code tag fields, bytes = code :: fields ∧ MessageTag.ofCode? code = some tag ∧
      Wire.readFields tag fields = .ok (m, []) := by
  unfold decode at h
  split at h
  · cases h
  · next code fields =>
    split at h
    · cases h
    · next tag htag =>
      split at h
      · cases h
      · next hread =>
        cases h
        exact ⟨code, tag, fields, rfl, htag, hread⟩
      · cases h

theorem readable_of_decode {bytes : List UInt8} (h : decode bytes = .ok m) :
    ∀ a ∈ m.addresses, a.Readable := by
  obtain ⟨code, tag, fields, -, -, hread⟩ := readFields_of_decode h
  exact (Wire.yields_readFields Wire.yields_readAddress .any tag _ _ _ hread).1

theorem decode_encode (hfits : m.Fits) (h : ∀ a ∈ m.addresses, a.Readable) :
    decode m.encode = .ok m := by
  have hread := Wire.reads_readFields hfits h []
  rw [List.append_nil] at hread
  simp only [encode, decode, MessageTag.ofCode?_code, hread]

/-- **The bytes of a message give it back exactly if its addresses are readable.** -/
theorem decode_encode_iff (hfits : m.Fits) :
    decode m.encode = .ok m ↔ ∀ a ∈ m.addresses, a.Readable :=
  ⟨readable_of_decode, decode_encode hfits⟩

end Message

namespace Sample

/-- A walk with its identifier in braces and capitals, blanks around its addresses, and a sign
    or a zero in front of their ports. -/
def looseBytes : List UInt8 :=
  1 :: (Wire.text "\x7b00000000-0000-0000-0000-00000000000A\x7d" ++ Wire.text "\u2003p:+80" ++
    Wire.text "fe80:: 1:0081\t" ++ Wire.text "ü" ++ Wire.int 2 ++ Wire.int (-1) ++ Wire.int 3 ++
    Wire.int 0)

/-- The walk that is read from these bytes. -/
def looseWalk : Message :=
  .query .randomWalk ⟨.ofNat 10, ⟨"p", 80⟩, ⟨"fe80:: 1", 81⟩, "ü", 2, -1, 3, 0⟩

theorem decode_looseBytes : Message.decode looseBytes = .ok looseWalk := by decide +kernel

/-- The answer of a peer with one neighbor. -/
def answer (host : String) : Message :=
  .listPeersResponse ⟨"fe80:: 1", 7401⟩ [⟨host, 80⟩]

/-- Colons and blanks inside a host survive, a blank in front of it does not. -/
theorem decode_encode_answer :
    ((answer "ü: b").Fits ∧ Message.decode (answer "ü: b").encode = .ok (answer "ü: b")) ∧
      (answer " b").Fits ∧ Message.decode (answer " b").encode ≠ .ok (answer " b") := by
  have hfits : (answer "ü: b").Fits := by decide +kernel
  have hfits' : (answer " b").Fits := by decide +kernel
  refine ⟨⟨hfits, (Message.decode_encode_iff hfits).2 (by decide +kernel)⟩, hfits', fun h => ?_⟩
  have hreadable := (Message.decode_encode_iff hfits').1 h
  exact absurd hreadable (by decide +kernel)

end Sample

end OverlayCensus
