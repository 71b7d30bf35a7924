/-
  OverlayCensus — overlays over made-up peers, and their files.

  The ports of made-up peers count up from 1025 and wrap.  So they differ up to a count of
  2 ^ 16, and one of them is the port 0, which is written like any other but is not read.

  * `nodup_syntheticPeers_iff`, `readable_syntheticPeer_iff`: which made-up peers differ, and
    which can be read back;
  * `synthetic_of_build`: what is built over made-up peers;
  * `ofFileText_of_unreadable`: a file that names a peer that cannot be read is refused;
  * `buildSynthetic_file`: which overlays over made-up peers come back from their files.
-/
import Mathlib
import OverlayCensus.Proofs.OverlayFile
import OverlayCensus.Proofs.OverlayRing

namespace OverlayCensus.Overlay

variable {settings : BuildSettings} {band : DegreeBand} {o : Overlay} {d d' : Draws}
  {count i j n : ℕ}

/-! ## Made-up peers -/

/-- The made-up peer at a position. -/
def syntheticPeer (i : ℕ) : PeerAddress :=
  ⟨"vertex", 1025 + i.toUInt16⟩

/-- The position at which the ports are back at 0. -/
def portless : ℕ :=
  2 ^ 16 - 1025

theorem toNat_port_syntheticPeer (i : ℕ) : (syntheticPeer i).port.toNat = (1025 + i) % 2 ^ 16 := by
  simp [syntheticPeer]

theorem syntheticPeer_inj (hi : i < 2 ^ 16) (hj : j < 2 ^ 16)
    (h : syntheticPeer i = syntheticPeer j) : i = j := by
  have hport := congrArg (fun p : PeerAddress => p.port.toNat) h
  simp only [toNat_port_syntheticPeer] at hport
  omega

/-- **Made-up peers differ** as long as the ports do not come round. -/
theorem nodup_syntheticPeers_iff : (syntheticPeers n).Nodup ↔ n ≤ 2 ^ 16 := by
  have hpeers : syntheticPeers n = (List.range n).map syntheticPeer := rfl
  rw [hpeers, List.nodup_map_iff_inj_on List.nodup_range]
  simp only [List.mem_range]
  constructor
  · intro hinj
    by_contra! hlt
    have hsame := hinj 0 (by omega) (2 ^ 16) hlt (by decide)
    omega
  · intro hn i hi j hj h
    exact syntheticPeer_inj (by omega) (by omega) h

/-- **All made-up peers but one** can be read back. -/
theorem readable_syntheticPeer_iff (hi : i < 2 ^ 16) :
    (syntheticPeer i).Readable ↔ i ≠ portless := by
  have hport : (syntheticPeer i).port = 0 ↔ i = portless := by
    rw [← UInt16.toNat_inj, toNat_port_syntheticPeer, UInt16.toNat_zero, portless]
    omega
  refine ⟨fun h => mt hport.2 h.port_ne, fun h => ⟨?_, ?_, mt hport.1 h⟩⟩
  · exact (by decide : "vertex" ≠ "")
  · intro c hc
    obtain rfl : 'v' = c := by simpa [syntheticPeer] using hc
    rfl

theorem ofText?_key_portless : PeerAddress.ofText? (syntheticPeer portless).key = none := by
  decide +kernel

theorem trimmed_key_syntheticPeer (i : ℕ) : Csv.Trimmed (syntheticPeer i).key := by
  refine ⟨?_, ?_⟩ <;> rw [PeerAddress.key, String.toList_ofList]
  · intro c hc
    obtain rfl : 'v' = c := by simpa [syntheticPeer, PeerAddress.keyChars] using hc
    rfl
  · exact PeerAddress.isBlank_getLast?_keyChars

/-! ## What is built -/

theorem map_fst_drawDevices (range : DrawRange) (ps : List PeerAddress) (d : Draws) :
    (drawDevices range ps d).1.map Prod.fst = ps := by
  induction ps generalizing d with
  | nil => rfl
  | cons p ps ih => exact congrArg (p :: ·) (ih _)

/-- A construction over made-up peers is one over these peers with drawn device counts. -/
theorem exists_counted (settings : BuildSettings) (count : ℕ) (d : Draws) :
    ∃ peers d₁, peers.map Prod.fst = syntheticPeers count ∧ peers.length = count ∧
      ∀ band, buildSynthetic settings count band d = build settings peers band d₁ := by
  have hpeers := map_fst_drawDevices settings.devices (syntheticPeers count) d
  refine ⟨_, _, hpeers, ?_, fun _ => rfl⟩
  have hlength := congrArg List.length hpeers
  rwa [List.length_map, syntheticPeers, List.length_map, List.length_range] at hlength

/-- An overlay over made-up peers as it is returned. -/
structure Synthetic (count : ℕ) (o : Overlay) : Prop extends o.Ordered, o.InWords where
  count_le : count ≤ 2 ^ 16
  id_eq : o.ends.map EdgeEnd.id = List.range count
  peer_eq : o.ends.map EdgeEnd.peer = syntheticPeers count
  min_pos : 1 ≤ o.band.min
  verified : o.verify = .ok ()

/-- **What is built over made-up peers.** -/
theorem synthetic_of_build (h : buildSynthetic settings count band d = .ok (o, d')) :
    Synthetic count o := by
  obtain ⟨peers, d₁, hpeers, hlength, hbuild⟩ := exists_counted settings count d
  rw [hbuild] at h
  obtain ⟨hordered, rfl, hverify⟩ := ordered_of_build h
  obtain ⟨hvalid, -⟩ := links_of_build h
  obtain ⟨hmin, hband, hmax, -, -⟩ := validate_eq_ok_iff.1 hvalid
  have hpeer : o.ends.map EdgeEnd.peer = syntheticPeers count := by
    rw [ends_of_build h, map_peer_numbered, hpeers]
  have hid : o.ends.map EdgeEnd.id = List.range count := by
    rw [ends_of_build h, numbered, List.map_map, ← hlength, List.range_eq_range']
    exact List.zipIdx_map_snd _ _
  have hcount : count ≤ 2 ^ 16 := nodup_syntheticPeers_iff.1 (hpeer ▸ hordered.peers)
  refine ⟨hordered, ⟨by omega, by omega, fun x hx => ?_⟩, hcount, hid, hpeer, hmin, hverify⟩
  have hmem : x.id ∈ List.range count := hid ▸ List.mem_map_of_mem hx
  rw [List.mem_range] at hmem
  omega

namespace Synthetic

variable {x : EdgeEnd}

theorem peer_of_mem (h : Synthetic count o) (hx : x ∈ o.ends) :
    x.id < count ∧ x.peer = syntheticPeer x.id := by
  obtain ⟨i, hi⟩ := List.mem_iff_getElem?.1 hx
  have hid : (List.range count)[i]? = some x.id := by
    rw [← h.id_eq, List.getElem?_map, hi, Option.map_some]
  have hpeer : (syntheticPeers count)[i]? = some x.peer := by
    rw [← h.peer_eq, List.getElem?_map, hi, Option.map_some]
  obtain ⟨hlt, hsame⟩ := List.getElem?_eq_some_iff.1 hid
  rw [List.length_range] at hlt
  rw [List.getElem_range] at hsame
  rw [syntheticPeers, List.getElem?_map, List.getElem?_range hlt, Option.map_some, hsame] at hpeer
  exact ⟨hsame ▸ hlt, (Option.some.inj hpeer).symm⟩

theorem exists_mem (h : Synthetic count o) (hi : i < count) : ∃ x ∈ o.ends, x.id = i := by
  have hmem : i ∈ o.ends.map EdgeEnd.id := h.id_eq ▸ List.mem_range.2 hi
  exact List.mem_map.1 hmem

/-- Which peer of an overlay over made-up peers cannot be read back. -/
theorem ofText?_key_iff (h : Synthetic count o) (hx : x ∈ o.ends) :
    PeerAddress.ofText? x.peer.key = some x.peer ↔ x.id ≠ portless := by
  obtain ⟨hlt, hpeer⟩ := h.peer_of_mem hx
  rw [← readable_syntheticPeer_iff (hlt.trans_le h.count_le), ← hpeer]
  exact ⟨PeerAddress.readable_of_ofText?, PeerAddress.ofText?_key⟩

end Synthetic

/-- **The ring is built** over made-up peers, as over others. -/
theorem exists_buildSynthetic (settings : BuildSettings) (hvalid : validate count band = .ok ())
    (hmin : band.min ≤ 2) (hattempts : settings.maxAttempts ≠ 0)
    (hcosts : settings.costs.lo ≤ settings.costs.hi) (hcount : count ≤ 2 ^ 16) (d : Draws) :
    ∃ o d', buildSynthetic settings count band d = .ok (o, d') := by
  obtain ⟨peers, d₁, hpeers, rfl, hbuild⟩ := exists_counted settings count d
  obtain ⟨o, d', -, hattempt, hverify, -, -⟩ :=
    attempt_of_ring hcosts (length_numbered peers ▸ hvalid) hmin d₁
  obtain ⟨left, hleft⟩ := Nat.exists_eq_succ_of_ne_zero hattempts
  refine ⟨o, d', ?_⟩
  rw [hbuild, build_eq_attempts hvalid hattempts (hpeers ▸ nodup_syntheticPeers_iff.2 hcount),
    hleft, attempts, hattempt]
  simp only [hverify]

/-! ## Rows that are refused -/

/-- An end that is written with a peer that is not read. -/
structure Unreadable (x : EdgeEnd) : Prop where
  id_lt : x.id < 2 ^ 64
  trimmed : Csv.Trimmed x.peer.key
  unread : PeerAddress.ofText? x.peer.key = none

section
variable {record : Csv.Record} {column : ℕ} {x y : EdgeEnd} {edges : List Edge}

/-- An end whose peer is not read is refused at the column of its peer. -/
theorem readEnd_eq_error (hx : Unreadable x)
    (hid : record.fields[column]? = some (Decimal.render x.id))
    (hpeer : record.fields[column + 1]? = some x.peer.key) :
    readEnd record column = .error (.malformed record.place.line (.badColumn (column + 2))) := by
  have hunread : readColumn record (column + 1) PeerAddress.ofText? =
      .error (.malformed record.place.line (.badColumn (column + 2))) := by
    rw [readColumn, hpeer, Option.bind_some, hx.unread]
  rw [readEnd, readColumn_eq_ok hid (readWord_render hx.id_lt), ok_bind, hunread, error_bind]

/-- A row is refused at a column of a peer. -/
def RefusedAtPeer {α : Type} (read : Except OverlayError α) : Prop :=
  ∃ line column, read = .error (.malformed line (.badColumn column)) ∧ (column = 2 ∨ column = 5)

theorem RefusedAtPeer.bind {α β : Type} {read : Except OverlayError α} (h : RefusedAtPeer read)
    (f : α → Except OverlayError β) : RefusedAtPeer (read >>= f) := by
  obtain ⟨line, column, rfl, hcolumn⟩ := h
  exact ⟨line, column, rfl, hcolumn⟩

theorem readEdge_of_unreadable {cost : UInt32} (h : Unreadable x ∨ Written x ∧ Unreadable y)
    {row : List String} (hrow : edgeRow ⟨x, some y, cost⟩ = some row) (place : Csv.Place) :
    RefusedAtPeer (readEdge ⟨place, row⟩) := by
  obtain rfl := Option.some.inj hrow
  have hlength : (endColumns x ++ endColumns y ++ [Decimal.render cost.toNat]).length = 7 := rfl
  rw [readEdge, if_pos hlength]
  rcases h with hx | ⟨hx, hy⟩
  · exact RefusedAtPeer.bind ⟨_, _, readEnd_eq_error hx rfl rfl, Or.inl rfl⟩ _
  · rw [readEnd_eq_ok hx rfl rfl rfl, ok_bind]
    exact RefusedAtPeer.bind ⟨_, _, readEnd_eq_error hy rfl rfl, Or.inr rfl⟩ _

/-- **Rows with a peer that is not read** are refused, whatever else they hold. -/
theorem readEdges_of_unreadable {raws : List Csv.RawRecord} (n : ℕ)
    (hends : ∀ e ∈ edges, ∀ x ∈ edgeEnds e, Written x ∨ Unreadable x)
    (hpairs : ∀ e ∈ edges, e.second ≠ none)
    (hbad : ∃ e ∈ edges, ∃ x ∈ edgeEnds e, Unreadable x)
    (hraws : raws.map Csv.RawRecord.fields =
      (edges.filterMap edgeRow).map fun row => row.map Utf8.encode) :
    RefusedAtPeer (readEdges n raws) := by
  induction edges generalizing raws n with
  | nil => simp at hbad
  | cons e edges ih =>
    obtain ⟨x, second, cost⟩ := e
    rw [List.forall_mem_cons] at hends hpairs
    obtain ⟨y, rfl⟩ := Option.ne_none_iff_exists'.1 hpairs.1
    obtain ⟨row, hrow⟩ : ∃ row, edgeRow ⟨x, some y, cost⟩ = some row := ⟨_, rfl⟩
    rw [List.filterMap_cons_some hrow, List.map_cons] at hraws
    obtain ⟨raw, raws, rfl, hraw, hraws⟩ := List.map_eq_cons_iff.1 hraws
    have hkeys : ∀ z ∈ edgeEnds ⟨x, some y, cost⟩, Csv.Trimmed z.peer.key := fun z hz =>
      (hends.1 z hz).elim (fun hz => trimmed_key hz.readable) Unreadable.trimmed
    rw [readEdges, readRecord, Csv.read_eq_ok hraw (trimmed_of_mem_row hkeys hrow)]
    by_cases hunread : Unreadable x ∨ Written x ∧ Unreadable y
    · exact (readEdge_of_unreadable hunread hrow raw.place).bind _
    · -- Both ends of the first row are read, so the peer that is not is further down.
      have hx : Written x := (hends.1 x (by simp [edgeEnds])).resolve_right (by tauto)
      have hy : Written y := (hends.1 y (by simp [edgeEnds])).resolve_right (by tauto)
      have hbad' : ∃ e ∈ edges, ∃ z ∈ edgeEnds e, Unreadable z := by
        obtain ⟨e, he, z, hz, hzbad⟩ := hbad
        rcases List.mem_cons.1 he with rfl | he
        · simp only [edgeEnds, Option.toList_some, List.mem_cons, List.not_mem_nil, or_false] at hz
          rcases hz with rfl | rfl <;> tauto
        · exact ⟨e, he, z, hz, hzbad⟩
      rw [ok_bind, readEdge_row ⟨hx, y, rfl, hy⟩ hrow, ok_bind]
      exact (ih (n + 1) hends.2 hpairs.2 hbad' hraws).bind _

end

/-- **A file that names a peer that is not read** is refused at such a peer. -/
theorem ofFileText_of_unreadable (h : o.Ordered) (hwords : o.InWords) (hmin : 1 ≤ o.band.min)
    (hverify : o.verify = .ok ()) (hends : ∀ x ∈ o.ends, Written x ∨ Unreadable x)
    (hbad : ∃ x ∈ o.ends, Unreadable x) : RefusedAtPeer (ofFileText o.toFile) := by
  have hmem := h.mem_sortedEnds_edges fun a ha => hmin.trans (admits_of_verify hverify ha).1
  obtain ⟨raws, hraws, hfile⟩ := exists_ofFileText_eq hwords
  rw [hfile]
  refine (readEdges_of_unreadable 1 (fun e he x hx => ?_) (fun e he => ?_) ?_ hraws).bind _
  · exact hends x ((hmem x).1 (mem_sortedEnds.2 ⟨e, he, hx⟩))
  · obtain ⟨_, -, y, -, -, hsecond⟩ := h.mem_edges he
    exact hsecond ▸ Option.some_ne_none y
  · obtain ⟨x, hx, hxbad⟩ := hbad
    obtain ⟨e, he, hxe⟩ := mem_sortedEnds.1 ((hmem x).2 hx)
    exact ⟨e, he, x, hxe, hxbad⟩

/-! ## Files of overlays over made-up peers -/

namespace Synthetic

/-- Without the port 0 all is read back. -/
theorem ofFileText_of_le (h : Synthetic count o) (hcount : count ≤ portless) :
    ∃ o', ofFileText o.toFile = .ok o' ∧ o'.band = o.band ∧ o'.ends = o.ends ∧
      o'.edges = o.edges ∧ ∀ i, (o'.linksAt i).Perm (o.linksAt i) := by
  have hread : ∀ x ∈ o.ends, x.peer.Readable := fun x hx =>
    PeerAddress.readable_of_ofText? ((h.ofText?_key_iff hx).2
      (((h.peer_of_mem hx).1.trans_le hcount).ne))
  obtain ⟨o', hedges, hordered, hband, hends, hlinks, hupward⟩ :=
    h.toOrdered.ofEdges_edges h.min_pos h.verified
  refine ⟨o', (ofFileText_eq_ofEdges h.toOrdered h.toInWords hread).trans hedges, hband, hends, ?_,
    hlinks⟩
  rw [hordered.edges_eq, h.toOrdered.edges_eq, hends, hupward]

/-- With the port 0 the file is refused. -/
theorem ofFileText_of_lt (h : Synthetic count o) (hcount : portless < count) :
    RefusedAtPeer (ofFileText o.toFile) := by
  have hunread : ∀ x ∈ o.ends, x.id = portless → Unreadable x := by
    intro x hx hid
    have hpeer := (h.peer_of_mem hx).2
    exact ⟨h.id_lt x hx, hpeer ▸ trimmed_key_syntheticPeer _,
      by rw [hpeer, hid, ofText?_key_portless]⟩
  refine ofFileText_of_unreadable h.toOrdered h.toInWords h.min_pos h.verified (fun x hx => ?_) ?_
  · by_cases hid : x.id = portless
    · exact Or.inr (hunread x hx hid)
    · exact Or.inl ⟨h.id_lt x hx,
        PeerAddress.readable_of_ofText? ((h.ofText?_key_iff hx).2 hid)⟩
  · obtain ⟨x, hx, hid⟩ := h.exists_mem hcount
    exact ⟨x, hx, hunread x hx hid⟩

end Synthetic

/-- **Files of overlays over made-up peers.**  There are at most 2 ^ 16 made-up peers in an
    overlay, and each is read back from its key except the one whose port came round to 0.  So a
    file gives back its overlay, with the same vertices and edges, as long as there are too few
    peers for that port; with more of them it is refused where it names the port. -/
theorem buildSynthetic_file (h : buildSynthetic settings count band d = .ok (o, d')) :
    count ≤ 2 ^ 16 ∧
      (∀ x ∈ o.ends, PeerAddress.ofText? x.peer.key = some x.peer ↔ x.id ≠ portless) ∧
      (count ≤ portless → ∃ o', ofFileText o.toFile = .ok o' ∧ o'.band = o.band ∧
        o'.ends = o.ends ∧ o'.edges = o.edges ∧ ∀ i, (o'.linksAt i).Perm (o.linksAt i)) ∧
      (portless < count → ∃ line column, ofFileText o.toFile =
        .error (.malformed line (.badColumn column)) ∧ (column = 2 ∨ column = 5)) := by
  have hbuilt := synthetic_of_build h
  exact ⟨hbuilt.count_le, fun x hx => hbuilt.ofText?_key_iff hx, hbuilt.ofFileText_of_le,
    hbuilt.ofFileText_of_lt⟩

/-- The largest ring that comes back has the last port. -/
theorem buildSynthetic_file_ring :
    ∃ o d', buildSynthetic {} 64511 ⟨2, 2⟩ (.ofSeed 1) = .ok (o, d') ∧
      ∃ o', ofFileText o.toFile = .ok o' ∧ o'.ends = o.ends ∧ o'.edges = o.edges := by
  have hvalid : validate 64511 ⟨2, 2⟩ = .ok () := validate_eq_ok_iff.2 (by decide)
  obtain ⟨o, d, h⟩ := exists_buildSynthetic {} hvalid (by decide) (by decide) (by decide)
    (by decide) (.ofSeed 1)
  obtain ⟨o', hread, -, hends, hedges, -⟩ := (buildSynthetic_file h).2.2.1 (by decide)
  exact ⟨o, d, h, o', hread, hends, hedges⟩

/-- **Not all overlays over made-up peers come back**: the ring that is larger by one is built, but
    the key of its last vertex is not read, and neither is its file. -/
theorem buildSynthetic_file_lost :
    ∃ o d', buildSynthetic {} 64512 ⟨2, 2⟩ (.ofSeed 1) = .ok (o, d') ∧
      (∃ x ∈ o.ends, PeerAddress.ofText? x.peer.key ≠ some x.peer) ∧
      ¬ ∃ o', ofFileText o.toFile = .ok o' := by
  have hvalid : validate 64512 ⟨2, 2⟩ = .ok () := validate_eq_ok_iff.2 (by decide)
  obtain ⟨o, d', h⟩ := exists_buildSynthetic {} hvalid (by decide) (by decide) (by decide)
    (by decide) (.ofSeed 1)
  have hbuilt := synthetic_of_build h
  obtain ⟨x, hx, hid⟩ := hbuilt.exists_mem (i := portless) (by decide)
  obtain ⟨line, column, hrefused, -⟩ := hbuilt.ofFileText_of_lt (by decide)
  refine ⟨o, d', h, ⟨x, hx, fun hread => (hbuilt.ofText?_key_iff hx).1 hread hid⟩, ?_⟩
  rintro ⟨o', hread⟩
  cases hread.symm.trans hrefused

end OverlayCensus.Overlay
