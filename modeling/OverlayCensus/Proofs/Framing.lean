/-
  OverlayCensus — frames on a stream, whole or cut off.

  A frame announces its length, so what the payloads hold does not matter: a stream of frames
  falls apart in one way only.  A refused payload leaves nothing on the stream behind which
  the others could not be found.

  * `read_append`: the four bytes in front of a stream decide what is read from it;
  * `readAll_eq`: reading goes on until the stream ends or a frame is refused;
  * `sent_eq`: what sending leaves on the stream; `framing_round_trip`: it is read back;
  * `readAll_cut`: what is read from a stream of frames that ends at any of its bytes.  One
    that ends inside a length looks as if it ended in front of it (`cut_length_unnoticed`).
-/
import Mathlib
import OverlayCensus.Frame
import OverlayCensus.Proofs.WireRoundTrip

namespace OverlayCensus.Frame

variable {front rest stream payload : List UInt8} {payloads : List (List UInt8)} {n : ℕ}

/-! ## One frame -/

/-- The number that bytes stand for, the most significant first. -/
def announced (front : List UInt8) : ℕ :=
  front.foldl (fun acc b => acc * 256 + b.toNat) 0

/-- The bytes of a frame. -/
def frame (payload : List UInt8) : List UInt8 :=
  Wire.length payload.length ++ payload

theorem length_frame (payload : List UInt8) : (frame payload).length = 4 + payload.length := by
  rw [frame, List.length_append]
  rfl

theorem announced_length (h : n < 2 ^ 32) : announced (Wire.length n) = n := by
  have hword : n.toUInt32.toNat = n := (UInt32.toNat_ofNat' ..).trans (Nat.mod_eq_of_lt h)
  simp only [announced, Wire.length, Wire.word, List.foldl_cons, List.foldl_nil,
    UInt32.toNat_toUInt8, UInt32.toNat_shiftRight, UInt32.reduceToNat, Nat.reduceMod,
    Nat.shiftRight_eq_div_pow, hword]
  omega

theorem readWord_append (h : front.length = 4) (rest : List UInt8) :
    ∃ w : UInt32, Wire.readWord (front ++ rest) = .ok (w, rest) ∧ w.toNat = announced front := by
  have hread : Wire.Reads Wire.readWord _ front := (Wire.reads_readBytes h).check (.pure _)
  refine ⟨_, hread rest, ?_⟩
  match front, h with
  | [a, b, c, d], _ =>
    have ha := a.toNat_lt
    have hb := b.toNat_lt
    have hc := c.toNat_lt
    have hd := d.toNat_lt
    simp only [announced, List.foldl_cons, List.foldl_nil, UInt32.toNat_add, UInt32.toNat_mul,
      UInt8.toNat_toUInt32, UInt32.reduceToNat]
    omega

/-- **What is in front of a stream** depends on the number that its first four bytes announce,
    and on whether so many bytes follow. -/
theorem read_append (h : front.length = 4) (rest : List UInt8) :
    read (front ++ rest) =
      if maxLength < announced front then .refused (.tooLarge (announced front))
      else if rest.length < announced front then .refused .brokenOff
      else .frame (rest.take (announced front)) (rest.drop (announced front)) := by
  obtain ⟨w, hread, hw⟩ := readWord_append h rest
  simp only [read, hread, hw, Wire.readBytes, List.length_take, inf_lt_left, not_le]
  split_ifs <;> rfl

theorem read_of_short (h : stream.length < 4) : read stream = .done := by
  have hread : Wire.readWord stream = .error (.truncated 4 stream.length) := by
    change (Wire.readBytes 4 stream).bind _ = _
    rw [Wire.readBytes, if_pos (by rw [List.length_take]; omega)]
    rfl
  rw [read, hread]

theorem read_length (h : n < 2 ^ 32) (rest : List UInt8) :
    read (Wire.length n ++ rest) =
      if maxLength < n then .refused (.tooLarge n)
      else if rest.length < n then .refused .brokenOff
      else .frame (rest.take n) (rest.drop n) := by
  have hfour : (Wire.length n).length = 4 := rfl
  rw [read_append hfour, announced_length h]

theorem lt_of_le_maxLength (h : n ≤ maxLength) : n < 2 ^ 32 :=
  h.trans_lt (by decide)

theorem read_frame (h : payload.length ≤ maxLength) (rest : List UInt8) :
    read (frame payload ++ rest) = .frame payload rest := by
  rw [frame, List.append_assoc, read_length (lt_of_le_maxLength h), if_neg (not_lt.2 h),
    if_neg (by rw [List.length_append]; omega), List.take_left, List.drop_left]

/-- A frame that is cut off is broken off once its length is complete, and before that it
    is no frame at all. -/
theorem read_cut_frame (h : payload.length ≤ maxLength) (hn : n < (frame payload).length) :
    read ((frame payload).take n) = if n < 4 then .done else .refused .brokenOff := by
  rw [length_frame] at hn
  split_ifs with hlength
  · exact read_of_short ((List.length_take_le _ _).trans_lt hlength)
  · have hfront : (Wire.length payload.length).length = 4 := rfl
    rw [frame, List.take_append, List.take_of_length_le (by omega),
      read_length (lt_of_le_maxLength h), if_neg (not_lt.2 h), if_pos]
    rw [List.length_take]
    omega

theorem lt_of_read_eq_frame (h : read stream = .frame payload rest) :
    rest.length < stream.length := by
  rcases Nat.lt_or_ge stream.length 4 with hshort | hlong
  · rw [read_of_short hshort] at h
    cases h
  · rw [← List.take_append_drop 4 stream, read_append (List.length_take_of_le hlong)] at h
    split_ifs at h
    cases h
    rw [List.length_drop, List.length_drop]
    omega

/-! ## All frames of a stream -/

/-- Fuel beyond the number of bytes makes no difference. -/
theorem readUpTo_congr {fuel more : ℕ} (hfuel : stream.length < fuel)
    (hmore : stream.length < more) : readUpTo fuel stream = readUpTo more stream := by
  induction fuel generalizing more stream with
  | zero => exact absurd hfuel (Nat.not_lt_zero _)
  | succ fuel ih =>
    obtain ⟨more, rfl⟩ := Nat.exists_eq_succ_of_ne_zero (Nat.ne_zero_of_lt hmore)
    cases hread : read stream with
    | frame payload rest =>
      have hshrinks := lt_of_read_eq_frame hread
      have hrest : readUpTo fuel rest = readUpTo more rest := ih (by omega) (by omega)
      simp only [readUpTo, hread, hrest]
    | done => simp only [readUpTo, hread]
    | refused e => simp only [readUpTo, hread]

/-- **Reading goes on** behind every frame, until the stream ends or a frame is refused. -/
theorem readAll_eq (stream : List UInt8) :
    readAll stream = match read stream with
      | .frame payload rest => (payload :: (readAll rest).1, (readAll rest).2)
      | .done => ([], none)
      | .refused e => ([], some e) := by
  rw [readAll, readUpTo]
  cases hread : read stream with
  | frame payload rest =>
    have hrest : readUpTo stream.length rest = readAll rest :=
      readUpTo_congr (lt_of_read_eq_frame hread) (Nat.lt_succ_self _)
    simp only [hrest]
  | done => rfl
  | refused e => rfl

theorem readAll_nil : readAll [] = ([], none) :=
  rfl

theorem readAll_frame_append (h : payload.length ≤ maxLength) (rest : List UInt8) :
    readAll (frame payload ++ rest) = (payload :: (readAll rest).1, (readAll rest).2) := by
  rw [readAll_eq, read_frame h]

/-- Frames are read in order, whatever follows them. -/
theorem readAll_frames_append (h : ∀ payload ∈ payloads, payload.length ≤ maxLength)
    (rest : List UInt8) :
    readAll (payloads.flatMap frame ++ rest) =
      (payloads ++ (readAll rest).1, (readAll rest).2) := by
  induction payloads with
  | nil => rfl
  | cons payload payloads ih =>
    rw [List.forall_mem_cons] at h
    rw [List.flatMap_cons, List.append_assoc, readAll_frame_append h.1, ih h.2]
    rfl

theorem readAll_frames (h : ∀ payload ∈ payloads, payload.length ≤ maxLength) :
    readAll (payloads.flatMap frame) = (payloads, none) := by
  have hread := readAll_frames_append h []
  rwa [readAll_nil, List.append_nil, List.append_nil] at hread

/-! ## Sending -/

theorem write_of_le (h : payload.length ≤ maxLength) : write payload = .ok (frame payload) :=
  if_neg (not_lt.2 h)

theorem write_of_lt (h : maxLength < payload.length) :
    write payload = .error (.tooLarge payload.length) :=
  if_pos h

/-- A payload is sent as the frame that is written for it.  A refusal comes before the first
    byte. -/
theorem run_send (payload stream : List UInt8) :
    (send payload).run.run stream =
      match write payload with
      | .ok bytes => (.ok (), stream ++ bytes)
      | .error e => (.error e, stream) := by
  rcases Nat.lt_or_ge maxLength payload.length with hlt | hle
  · rw [write_of_lt hlt, send, if_pos hlt]
    rfl
  · rw [write_of_le hle, send, if_neg (not_lt.2 hle), frame]
    dsimp only
    rw [← List.append_assoc]
    rfl

theorem run_sendEach_cons (payload : List UInt8) (payloads : List (List UInt8))
    (stream : List UInt8) :
    (sendEach (payload :: payloads)).run stream =
      let (outcome, stream) := (send payload).run.run stream
      let (outcomes, stream) := (sendEach payloads).run stream
      (outcome :: outcomes, stream) := by
  rw [sendEach, List.mapM_cons]
  rfl

/-- Sending leaves the frames of the payloads within the limit behind the stream. -/
theorem run_sendEach (payloads : List (List UInt8)) (stream : List UInt8) :
    (sendEach payloads).run stream =
      (payloads.map fun payload => (write payload).map fun _ => (),
        stream ++ (payloads.filter fun payload => payload.length ≤ maxLength).flatMap frame) := by
  induction payloads generalizing stream with
  | nil =>
    rw [List.filter_nil, List.flatMap_nil, List.append_nil]
    rfl
  | cons payload payloads ih =>
    rw [run_sendEach_cons, run_send]
    rcases Nat.lt_or_ge maxLength payload.length with hlt | hle
    · simp [write_of_lt hlt, ih, hlt, Except.map]
    · simp [write_of_le hle, ih, hle, Except.map]

theorem sent_eq (payloads : List (List UInt8)) :
    sent payloads = (payloads.filter fun payload => payload.length ≤ maxLength).flatMap frame := by
  rw [sent, run_sendEach, List.nil_append]

theorem sent_of_fit (h : ∀ payload ∈ payloads, payload.length ≤ maxLength) :
    sent payloads = payloads.flatMap frame := by
  rw [sent_eq, List.filter_eq_self.2 fun payload hp => decide_eq_true (h payload hp)]

/-- **Payloads survive the stream.**  Payloads within the limit are all accepted, and reading
    until the stream ends gives them back in order.  A larger one is refused before anything is
    written, so that it does not disturb the others, and a length above the limit is refused
    by the reader. -/
theorem framing_round_trip :
    (∀ payloads : List (List UInt8), (∀ payload ∈ payloads, payload.length ≤ maxLength) →
      ((sendEach payloads).run []).1 = payloads.map (fun _ => .ok ()) ∧
        readAll (sent payloads) = (payloads, none)) ∧
    (∀ payload stream : List UInt8, maxLength < payload.length →
      (send payload).run.run stream = (.error (.tooLarge payload.length), stream)) ∧
    (∀ payloads : List (List UInt8), readAll (sent payloads) =
      (payloads.filter fun payload => payload.length ≤ maxLength, none)) ∧
    ∀ front rest : List UInt8, front.length = 4 → maxLength < announced front →
      read (front ++ rest) = .refused (.tooLarge (announced front)) := by
  refine ⟨fun payloads h => ⟨?_, ?_⟩, fun payload stream h => ?_, fun payloads => ?_,
    fun front rest hfour h => ?_⟩
  · rw [run_sendEach]
    exact List.map_congr_left fun payload hp => by rw [write_of_le (h payload hp)]; rfl
  · rw [sent_of_fit h, readAll_frames h]
  · rw [run_send, write_of_lt h]
  · rw [sent_eq]
    exact readAll_frames fun payload hp => of_decide_eq_true (List.mem_filter.1 hp).2
  · rw [read_append hfour, if_pos h]

/-- Empty payloads, one that looks like a length, and one as large as can be. -/
def oddPayloads : List (List UInt8) :=
  [[], [0, 0, 0, 1], List.replicate maxLength 0, []]

/-- They are read back, a larger payload is refused, and a length of `maxLength + 1` too. -/
theorem framing_round_trip_odd :
    (∀ payload ∈ oddPayloads, payload.length ≤ maxLength) ∧
    readAll (sent oddPayloads) = (oddPayloads, none) ∧
    (send (List.replicate (maxLength + 1) 0)).run.run [9] =
      (.error (.tooLarge (List.replicate (maxLength + 1) (0 : UInt8)).length), [9]) ∧
    read [1, 0, 0, 1, 0] = .refused (.tooLarge 16777217) := by
  obtain ⟨hback, hrefused, -, hannounced⟩ := framing_round_trip
  have hfit : ∀ payload ∈ oddPayloads, payload.length ≤ maxLength := by
    simp only [oddPayloads, List.forall_mem_cons, List.length_replicate]
    exact ⟨by decide, by decide, le_rfl, by decide, List.forall_mem_nil _⟩
  have hlarge : maxLength < (List.replicate (maxLength + 1) (0 : UInt8)).length := by
    rw [List.length_replicate]
    exact Nat.lt_succ_self _
  exact ⟨hfit, (hback _ hfit).2, hrefused _ [9] hlarge,
    hannounced [1, 0, 0, 1] [0] rfl (by decide)⟩

/-! ## Streams that are cut off -/

/-- A cut falls behind all frames or into one of them. -/
theorem exists_cut (h : n ≤ (payloads.flatMap frame).length) :
    n = (payloads.flatMap frame).length ∨
      ∃ whole payload rest left, payloads = whole ++ payload :: rest ∧
        n = (whole.flatMap frame).length + left ∧ left < (frame payload).length := by
  induction payloads generalizing n with
  | nil => exact .inl (Nat.le_zero.1 h)
  | cons payload payloads ih =>
    rw [List.flatMap_cons, List.length_append] at h ⊢
    rcases Nat.lt_or_ge n (frame payload).length with hin | hbehind
    · exact .inr ⟨[], payload, payloads, n, rfl, (Nat.zero_add n).symm, hin⟩
    · rcases ih (Nat.sub_le_iff_le_add'.2 h) with hend | ⟨whole, cut, rest, left, rfl, hn, hleft⟩
      · exact .inl (by omega)
      · refine .inr ⟨payload :: whole, cut, rest, left, rfl, ?_, hleft⟩
        rw [List.flatMap_cons, List.length_append]
        omega

theorem readAll_cut_frame (h : payload.length ≤ maxLength) (hn : n < (frame payload).length) :
    readAll ((frame payload).take n) = ([], if n < 4 then none else some .brokenOff) := by
  rw [readAll_eq, read_cut_frame h hn]
  split_ifs <;> rfl

/-- **A stream that is cut off** at any byte gives the payloads whose frames are complete.  It
    is broken off if the cut leaves the length of another frame and not all of its payload;
    behind a frame, and also inside a length, it has just ended. -/
theorem readAll_cut (h : ∀ payload ∈ payloads, payload.length ≤ maxLength)
    (hn : n ≤ (sent payloads).length) :
    ∃ whole rest left, payloads = whole ++ rest ∧ n = (sent whole).length + left ∧
      (∀ payload ∈ rest.head?, left < 4 + payload.length) ∧
      readAll ((sent payloads).take n) = (whole, if left < 4 then none else some .brokenOff) := by
  rw [sent_of_fit h] at hn ⊢
  rcases exists_cut hn with rfl | ⟨whole, payload, rest, left, rfl, rfl, hleft⟩
  · refine ⟨payloads, [], 0, (List.append_nil _).symm, by rw [sent_of_fit h]; rfl, nofun, ?_⟩
    rw [List.take_length, readAll_frames h]
    rfl
  · rw [List.forall_mem_append, List.forall_mem_cons] at h
    obtain ⟨hwhole, hpayload, -⟩ := h
    refine ⟨whole, payload :: rest, left, rfl, by rw [sent_of_fit hwhole], ?_, ?_⟩
    · rintro _ ⟨⟩
      exact length_frame payload ▸ hleft
    · rw [List.flatMap_append, List.flatMap_cons, List.take_length_add_append,
        List.take_append_of_le_length hleft.le, readAll_frames_append hwhole,
        readAll_cut_frame hpayload hleft]
      simp

/-- Two frames, the second one without its payload. -/
theorem readAll_cut_second :
    (∀ payload ∈ [[7], [(8 : UInt8)]], payload.length ≤ maxLength) ∧
      9 ≤ (sent [[7], [8]]).length ∧
      readAll ((sent [[7], [8]]).take 9) = ([[7]], some .brokenOff) := by
  have hfit : ∀ payload ∈ [[7], [(8 : UInt8)]], payload.length ≤ maxLength := by decide
  have hin : 9 ≤ (sent [[7], [8]]).length := by decide
  refine ⟨hfit, hin, ?_⟩
  obtain ⟨whole, rest, left, hsplit, hn, hnext, hread⟩ := readAll_cut hfit hin
  obtain ⟨rfl, rfl⟩ : whole = [[7]] ∧ left = 4 := by
    have hwhole : whole ∈ [[7], [8]].inits := (List.mem_inits _ _).2 ⟨rest, hsplit.symm⟩
    have hlength : (sent [[7]]).length = 5 ∧ (sent [[7], [8]]).length = 10 := by decide
    simp only [List.inits, List.map_cons, List.map_nil, List.mem_cons, List.not_mem_nil,
      or_false] at hwhole
    rcases hwhole with rfl | rfl | rfl
    · cases hsplit
      have hless := hnext [7] rfl
      change 9 = 0 + left at hn
      rw [List.length_singleton] at hless
      omega
    · exact ⟨rfl, by omega⟩
    · omega
  exact hread

/-- Not every stream that ends without an error ends behind a frame: of the second of two
    frames, three bytes of the length can be left over. -/
theorem cut_length_unnoticed :
    ¬ ∀ (payloads : List (List UInt8)) (n : ℕ),
      (∀ payload ∈ payloads, payload.length ≤ maxLength) → n ≤ (sent payloads).length →
        (readAll ((sent payloads).take n)).2 = none →
          ∃ whole, whole <+: payloads ∧ n = (sent whole).length := by
  intro hclean
  obtain ⟨whole, hwhole, hlength⟩ :=
    hclean [[7], [8]] 8 (by decide) (by decide) (by decide)
  rw [← List.mem_inits] at hwhole
  revert whole
  decide

end OverlayCensus.Frame
