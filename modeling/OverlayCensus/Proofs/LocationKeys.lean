/-
  OverlayCensus — which locations are filed apart.

  The bytes of a location are the key of its holder, a slash and its name.  There is no slash
  in a port, but there may be some in a host, and then it is open which slash ends the key: the
  key of one holder, a slash and some text may be the host of another one (`Straddles`).  Two
  locations have the same bytes only in this way.

  * `key_eq_append_slash_iff`: a key with a slash in it has it in its host;
  * `bytes_eq_iff`, `injOn_bytes_iff`: when two locations, and when all, have different bytes;
  * `location_slots`: such locations have slots of their own in a table unless the hash
    collides; `straddling_overwritten`: others do not.
-/
import Mathlib
import OverlayCensus.Gossip.LocationTable
import OverlayCensus.Proofs.AddressText
import OverlayCensus.Proofs.QueryLog
import OverlayCensus.Proofs.Utf8Bytes

namespace OverlayCensus

theorem Utf8.encode_append (s t : String) : encode (s ++ t) = encode s ++ encode t := by
  rw [encode_eq_flatMap, encode_eq_flatMap, encode_eq_flatMap, String.toList_append,
    List.flatMap_append]

/-! ## Slashes in keys -/

theorem toList_append_slash (s t : String) :
    (s ++ "/" ++ t).toList = s.toList ++ '/' :: t.toList := by
  simp

namespace PeerAddress

variable {a : PeerAddress} {k t : String}

theorem toList_key (a : PeerAddress) :
    a.key.toList = a.host.toList ++ ':' :: Decimal.digits a.port.toNat :=
  String.toList_ofList

/-- **A key that goes on behind a slash** does so in its host: behind the slash stands a key
    with the same port. -/
theorem key_eq_append_slash_iff :
    a.key = k ++ "/" ++ t ↔ ∃ x, a.host = k ++ "/" ++ x ∧ t = key ⟨x, a.port⟩ := by
  simp only [← String.toList_inj, toList_key, toList_append_slash]
  constructor
  · intro h
    rcases List.append_eq_append_iff.1 h with ⟨front, -, hport⟩ | ⟨inner, hhost, hinner⟩
    · have hslash : '/' ∈ ':' :: Decimal.digits a.port.toNat := by
        rw [hport]
        exact List.mem_append_right _ List.mem_cons_self
      rcases List.mem_cons.1 hslash with hcolon | hdigit
      · cases hcolon
      · exact absurd hdigit (Decimal.not_mem_digits (by decide) _)
    · cases inner with
      | nil => cases hinner
      | cons c cs =>
        obtain ⟨rfl, hrest⟩ := List.cons.inj hinner
        refine ⟨String.ofList cs, ?_, ?_⟩
        · rw [hhost, String.toList_ofList]
        · rw [String.toList_ofList]
          exact hrest
  · rintro ⟨x, hhost, ht⟩
    rw [hhost, ht, List.append_assoc]
    rfl

end PeerAddress

/-! ## The bytes of a location -/

namespace Location

variable {l l' : Location}

/-- The bytes from which the key of a location is made. -/
def bytes (l : Location) : List UInt8 :=
  Gossip.locationBytes l.holder l.name

/-- The host of the other location's holder begins with the key of this one's holder and a
    slash, and the name of this one has the rest of that key and the other name. -/
def Straddles (l l' : Location) : Prop :=
  ∃ x, l'.holder.host = l.holder.key ++ "/" ++ x ∧
    l.name = PeerAddress.key ⟨x, l'.holder.port⟩ ++ "/" ++ l'.name

theorem bytes_eq (l : Location) : l.bytes = Utf8.encode (l.holder.key ++ "/" ++ l.name) := by
  rw [Utf8.encode_append, Utf8.encode_append]
  rfl

theorem bytes_eq_bytes_iff :
    l.bytes = l'.bytes ↔ l.holder.key ++ "/" ++ l.name = l'.holder.key ++ "/" ++ l'.name := by
  rw [bytes_eq, bytes_eq]
  exact ⟨Utf8.encode_injective, congrArg _⟩

theorem Straddles.isPrefix (h : l.Straddles l') :
    l.holder.key.toList ++ ['/'] <+: l'.holder.host.toList := by
  obtain ⟨x, hhost, -⟩ := h
  refine ⟨x.toList, ?_⟩
  rw [hhost, toList_append_slash, List.append_assoc]
  rfl

/-- A host without a slash is not straddled. -/
theorem not_straddles (h : '/' ∉ l'.holder.host.toList) : ¬ l.Straddles l' := fun hstraddles =>
  h (hstraddles.isPrefix.subset (List.mem_append_right _ List.mem_cons_self))

theorem Straddles.bytes_eq (h : l.Straddles l') : l.bytes = l'.bytes := by
  obtain ⟨x, hhost, hname⟩ := h
  have hkey : l'.holder.key = l.holder.key ++ "/" ++ PeerAddress.key ⟨x, l'.holder.port⟩ :=
    PeerAddress.key_eq_append_slash_iff.2 ⟨x, hhost, rfl⟩
  rw [bytes_eq_bytes_iff, hkey, hname]
  simp only [String.append_assoc]

theorem Straddles.ne (h : l.Straddles l') : l ≠ l' := by
  rintro rfl
  have hlength := h.isPrefix.length_le
  simp [PeerAddress.toList_key] at hlength

/-- The location with the shorter key is the other one or straddles it. -/
theorem eq_or_straddles (h : l.bytes = l'.bytes)
    (hshorter : l.holder.key.toList <+: l'.holder.key.toList) : l = l' ∨ l.Straddles l' := by
  obtain ⟨rest, hrest⟩ := hshorter
  have hchars := String.toList_inj.2 (bytes_eq_bytes_iff.1 h)
  rw [toList_append_slash, toList_append_slash, ← hrest, List.append_assoc] at hchars
  have htail := List.append_cancel_left hchars
  cases rest with
  | nil =>
    rw [List.append_nil, String.toList_inj] at hrest
    have hname : l.name = l'.name := String.toList_inj.1 (List.cons.inj htail).2
    have hholder : l.holder = l'.holder := PeerAddress.key_injective hrest
    left
    cases l
    cases l'
    simp_all
  | cons c cs =>
    obtain ⟨rfl, hname⟩ := List.cons.inj htail
    have hkey : l'.holder.key = l.holder.key ++ "/" ++ String.ofList cs := by
      rw [← String.toList_inj, ← hrest, toList_append_slash, String.toList_ofList]
    obtain ⟨x, hhost, hcs⟩ := PeerAddress.key_eq_append_slash_iff.1 hkey
    refine .inr ⟨x, hhost, ?_⟩
    rw [← hcs, ← String.toList_inj, toList_append_slash, String.toList_ofList]
    exact hname

/-- **Two locations have the same bytes** only if one straddles the other. -/
theorem bytes_eq_iff : l.bytes = l'.bytes ↔ l = l' ∨ l.Straddles l' ∨ l'.Straddles l := by
  constructor
  · intro h
    have hchars := String.toList_inj.2 (bytes_eq_bytes_iff.1 h)
    rw [toList_append_slash, toList_append_slash] at hchars
    rcases List.prefix_or_prefix_of_prefix (List.prefix_append _ _)
      (hchars ▸ List.prefix_append l'.holder.key.toList _) with hshorter | hshorter
    · exact (eq_or_straddles h hshorter).imp_right .inl
    · exact (eq_or_straddles h.symm hshorter).imp .symm .inr
  · rintro (rfl | h | h)
    · rfl
    · exact h.bytes_eq
    · exact h.bytes_eq.symm

/-- Locations have bytes of their own exactly if none of them straddles another one. -/
theorem injOn_bytes_iff {ls : Set Location} :
    Set.InjOn bytes ls ↔ ∀ l ∈ ls, ∀ l' ∈ ls, ¬ l.Straddles l' := by
  constructor
  · intro hinj l hl l' hl' h
    exact h.ne (hinj hl hl' h.bytes_eq)
  · intro hls l hl l' hl' hbytes
    rcases bytes_eq_iff.1 hbytes with heq | h | h
    · exact heq
    · exact absurd h (hls l hl l' hl')
    · exact absurd h (hls l' hl' l hl)

end Location

/-! ## Slots -/

/-- The slot of a location that shares its key with no other one in the table holds it or
    is free. -/
theorem LocationTable.contains_key_iff {t : LocationTable} {l : Location}
    (h : ∀ l' ∈ t.entries, l'.key = l.key → l' = l) :
    t.cache.contains l.key = true ↔ l ∈ t.entries := by
  rw [Cache.contains_iff]
  constructor
  · intro hkey
    obtain ⟨e, he, hek⟩ := List.mem_map.1 hkey
    have hmem : e.2 ∈ t.entries := List.mem_map_of_mem he
    exact h e.2 hmem ((t.keyed e he).symm.trans hek) ▸ hmem
  · intro hl
    obtain ⟨e, he, rfl⟩ := List.mem_map.1 hl
    exact List.mem_map.2 ⟨e, he, t.keyed e he⟩

/-- **Locations have slots of their own** exactly if none of them straddles another one: this
    is when their bytes differ, and then, unless the hash collides on these bytes, their keys
    differ, and in a table of such locations each finds its slot free until it is there itself.
    Without slashes in the hosts none straddles another. -/
theorem Location.location_slots (ls : Set Location) :
    (Set.InjOn Location.bytes ls ↔ ∀ l ∈ ls, ∀ l' ∈ ls, ¬ l.Straddles l') ∧
    ((∀ l ∈ ls, '/' ∉ l.holder.host.toList) → Set.InjOn Location.bytes ls) ∧
    (Set.InjOn Location.bytes ls → Set.InjOn Gossip.hashKey (Location.bytes '' ls) →
      Set.InjOn Location.key ls ∧
        ∀ t : LocationTable, (∀ l ∈ t.entries, l ∈ ls) →
          ∀ l ∈ ls, (t.cache.contains l.key = true ↔ l ∈ t.entries)) := by
  refine ⟨injOn_bytes_iff, fun hslash => ?_, fun hbytes hhash => ?_⟩
  · exact injOn_bytes_iff.2 fun _ _ l' hl' => not_straddles (hslash l' hl')
  · have hkeys : Set.InjOn Location.key ls := hhash.comp hbytes (Set.mapsTo_image _ _)
    exact ⟨hkeys, fun t ht l hl =>
      LocationTable.contains_key_iff fun l' hl' hkey => hkeys (ht l' hl') hl hkey⟩

namespace Sample

/-- Locations whose bytes would be the same without the slash, and one with a slash in its
    host. -/
def nearby : List Location :=
  [⟨⟨"host", 1⟩, "2X"⟩, ⟨⟨"host", 12⟩, "X"⟩, ⟨⟨"host/1", 2⟩, "X"⟩]

theorem location_slots_nearby :
    (∀ l ∈ nearby, ∀ l' ∈ nearby, ¬ l.Straddles l') ∧
      Set.InjOn Gossip.hashKey (Location.bytes '' {l | l ∈ nearby}) ∧
      Set.InjOn Location.key {l | l ∈ nearby} := by
  have hapart : ∀ l ∈ nearby, ∀ l' ∈ nearby, ¬ l.Straddles l' := by
    have hprefix : ∀ l ∈ nearby, ∀ l' ∈ nearby,
        ¬ l.holder.key.toList ++ ['/'] <+: l'.holder.host.toList := by decide +kernel
    exact fun l hl l' hl' h => hprefix l hl l' hl' h.isPrefix
  have hhash : Set.InjOn Gossip.hashKey (Location.bytes '' {l | l ∈ nearby}) := by
    have hkeys : ∀ l ∈ nearby, ∀ l' ∈ nearby, Gossip.hashKey l.bytes = Gossip.hashKey l'.bytes →
        l.bytes = l'.bytes := by decide +kernel
    rintro _ ⟨l, hl, rfl⟩ _ ⟨l', hl', rfl⟩ h
    exact hkeys l hl l' hl' h
  obtain ⟨hiff, -, hslots⟩ := Location.location_slots {l | l ∈ nearby}
  exact ⟨hapart, hhash, (hslots (hiff.2 hapart) hhash).1⟩

/-- A location with a slash in the name of what is held. -/
def slashInName : Location :=
  ⟨⟨"a", 1⟩, "b:2/c"⟩

/-- A location with a slash in the host of its holder, in front of which stands the key of the
    other holder. -/
def slashInHost : Location :=
  ⟨⟨"a:1/b", 2⟩, "c"⟩

/-- Two locations of holders that can be read have the same bytes, and the second one to be
    noted takes the place of the first one without being new. -/
theorem straddling_overwritten :
    PeerAddress.ofText? "a:1" = some slashInName.holder ∧
      PeerAddress.ofText? "a:1/b:2" = some slashInHost.holder ∧
      slashInName ≠ slashInHost ∧ slashInName.bytes = slashInHost.bytes ∧
      let t := ((LocationTable.empty 2 .zero (.ofSeed 0)).merge slashInName).2
      t.entries = [slashInName] ∧
        (t.merge slashInHost).1 = false ∧ (t.merge slashInHost).2.entries = [slashInHost] := by
  decide +kernel

end Sample

end OverlayCensus
