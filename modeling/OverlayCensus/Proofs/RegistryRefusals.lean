/-
  OverlayCensus — refused commands.

  Some commands take several steps, each of which can fail: a file is opened, read, taken apart
  and checked before its overlay gets other peers.  All that a command leaves behind comes after
  the last of them.

  * `Refusal` lists the causes for which a command is refused, `execute_cases` proves that there
    are no others, and `Refusal.execute_eq` that each of them is one;
  * `refused_iff`: so a refused command leaves nothing behind, after any calls.
-/
import Mathlib
import OverlayCensus.Proofs.OverlayBuild
import OverlayCensus.Proofs.OverlayFile
import OverlayCensus.Proofs.RegistryConnecting
import OverlayCensus.Proofs.RegistryReports

namespace OverlayCensus.Registry

variable {r : Registry} {occasion : Occasion} {c : RegistryCommand} {e : RegistryError}

/-! ## Causes -/

/-- The commands that ask something of the overlay. -/
def needsOverlay : RegistryCommand → Bool
  | .exportOverlay _ | .connectPeers | .checkPeers => true
  | _ => false

/-- The cause for which a registry refuses a command on an occasion, and how it says so. -/
inductive Refusal (r : Registry) (occasion : Occasion) : RegistryCommand → RegistryError → Prop
  | badBand {min max : ℕ} {reason : InvalidRequest}
      (hbad : Overlay.validate r.peers.length ⟨min, max⟩ = .error reason) :
      Refusal r occasion (.buildOverlay min max) (.overlay (.invalidRequest reason))
  /-- The band is good, but none of the attempts keeps it. -/
  | gaveUp {min max : ℕ} (hgood : Overlay.validate r.peers.length ⟨min, max⟩ = .ok ())
      (hfailed : Overlay.attempts {} (Overlay.bare ⟨min, max⟩ (Overlay.numbered r.counted)) 1000
        occasion.draws = .error (.constructionFailed 1000)) :
      Refusal r occasion (.buildOverlay min max) (.overlay (.constructionFailed 1000))
  | unreadable {path : String} {f : StorageFault} (hread : occasion.read path = .error f)
      (hfile : f ≠ .isDirectory) : Refusal r occasion (.importOverlay path) (.overlayFile f)
  | directory {path : String} (hread : occasion.read path = .error .isDirectory) :
      Refusal r occasion (.importOverlay path) (.overlayRecord .isDirectory)
  | malformed {path : String} {bytes : List UInt8} {reason : OverlayError}
      (hread : occasion.read path = .ok bytes) (hbad : Overlay.ofFile bytes = .error reason) :
      Refusal r occasion (.importOverlay path) (.overlay reason)
  | wrongSize {path : String} {bytes : List UInt8} {o : Overlay}
      (hread : occasion.read path = .ok bytes) (hgood : Overlay.ofFile bytes = .ok o)
      (hsize : r.peers.length ≠ o.size) :
      Refusal r occasion (.importOverlay path) (.overlay (.sizeMismatch o.size r.peers.length))
  | noOverlay {c : RegistryCommand} (hneeds : needsOverlay c = true) (hnone : r.overlay = none) :
      Refusal r occasion c .noOverlay
  | unwritable {path : String} {o : Overlay} {f : StorageFault} (hoverlay : r.overlay = some o)
      (hobstacle : occasion.obstacle path = some f) :
      Refusal r occasion (.exportOverlay path)
        (if strikesRecord o.toFile f then .overlayRecord f else .overlayFile f)
  | noPeers {kind : QueryKind} {metric : String} {limit : Int32} (hnone : r.peers = []) :
      Refusal r occasion (.query kind metric limit) .noPeers
  | unwritableResults {path : String} {f : StorageFault}
      (hobstacle : occasion.obstacle path = some f) :
      Refusal r occasion (.exportResults path)
        (if strikesRecord r.results.toCsv f then .resultsRecord f else .resultsFile f)

/-! ## Constructions and imports -/

theorem length_counted (r : Registry) : r.counted.length = r.peers.length :=
  List.length_map ..

/-- The peers of a sound registry differ, so on a good band a construction is its attempts. -/
theorem Sound.build_eq (h : r.Sound) {band : DegreeBand}
    (hgood : Overlay.validate r.peers.length band = .ok ()) (d : Draws) :
    Overlay.build {} r.counted band d =
      Overlay.attempts {} (Overlay.bare band (Overlay.numbered r.counted)) 1000 d := by
  refine Overlay.build_eq_attempts ?_ (by decide) ?_ d
  · rwa [length_counted]
  · rw [map_fst_counted]
    exact h.distinct

theorem attempts_counted_cases {band : DegreeBand}
    (hgood : Overlay.validate r.peers.length band = .ok ()) (d : Draws) :
    Overlay.attempts {} (Overlay.bare band (Overlay.numbered r.counted)) 1000 d =
        .error (.constructionFailed 1000) ∨
      ∃ o d', Overlay.attempts {} (Overlay.bare band (Overlay.numbered r.counted)) 1000 d =
        .ok (o, d') := by
  have hvalid : Overlay.validate (Overlay.numbered r.counted).length band = .ok () := by
    rwa [Overlay.length_numbered, length_counted]
  have hcosts : ({} : BuildSettings).costs.lo ≤ ({} : BuildSettings).costs.hi := by decide
  rcases Overlay.attempts_cases hcosts hvalid 1000 d with hfailed | ⟨o, d', hbuilt, -⟩
  · exact Or.inl hfailed
  · exact Or.inr ⟨o, d', hbuilt⟩

/-- Nor is an overlay that was read refused the peers of a sound registry, if it has their
    number. -/
theorem Sound.exists_retarget (h : r.Sound) {bytes : List UInt8} {o : Overlay}
    (hread : Overlay.ofFile bytes = .ok o) (hsize : r.peers.length = o.size) :
    ∃ o', o.retarget (r.peers.map Registration.identity) = .ok o' := by
  obtain ⟨hordered, hverify⟩ := Overlay.ordered_of_ofFile hread
  have hlength : (r.peers.map Registration.identity).length = o.size := by
    rw [List.length_map, hsize]
  exact ⟨_, (hordered.retarget_eq_ok_iff hverify).2 ⟨hlength, h.distinct, rfl⟩⟩

/-! ## Every cause is one -/

/-- **For each of the causes** a command is refused, and leaves nothing behind. -/
theorem Refusal.execute_eq (hrefused : r.Refusal occasion c e) (h : r.Sound) :
    r.execute occasion c = r.refuse e := by
  cases hrefused with
  | badBand hbad => simp only [execute, buildOverlay, Overlay.build, length_counted, hbad]
  | gaveUp hgood hfailed => simp only [execute, buildOverlay, h.build_eq hgood, hfailed]
  | unreadable hread hfile => simp only [execute, hread, importOverlay]
  | directory hread => simp only [execute, hread, importOverlay]
  | malformed hread hbad => simp only [execute, hread, importOverlay, hbad]
  | @wrongSize path bytes o hread hgood hsize =>
    have hlength : (r.peers.map Registration.identity).length ≠ o.size := by
      rwa [List.length_map]
    simp only [execute, hread, importOverlay, hgood, Overlay.retarget, if_neg hlength]
    rw [List.length_map]
  | noOverlay hneeds hnone =>
    cases c with
    | exportOverlay path => simp only [execute, exportOverlay, hnone]
    | connectPeers => simp only [execute, connectPeers, hnone]
    | checkPeers => simp only [execute, checkPeers, hnone]
    | _ => cases hneeds
  | unwritable hoverlay hobstacle => simp only [execute, exportOverlay, hoverlay, hobstacle]
  | noPeers hnone => simp only [execute, startQuery, inject, hnone, List.getElem?_nil]
  | unwritableResults hobstacle => simp only [execute, exportResults, hobstacle]

/-! ## There are no others -/

/-- A command that is refused for one of the causes or carried out. -/
def Decided (r : Registry) (occasion : Occasion) (c : RegistryCommand) : Prop :=
  (∃ e, r.Refusal occasion c e) ∨ (r.execute occasion c).answer.isOk = true

theorem Sound.decided_buildOverlay (h : r.Sound) (occasion : Occasion) (min max : ℕ) :
    r.Decided occasion (.buildOverlay min max) := by
  cases hvalid : Overlay.validate r.peers.length ⟨min, max⟩ with
  | error reason => exact Or.inl ⟨_, .badBand hvalid⟩
  | ok =>
    rcases attempts_counted_cases hvalid occasion.draws with hfailed | ⟨o, d', hbuilt⟩
    · exact Or.inl ⟨_, .gaveUp hvalid hfailed⟩
    · refine Or.inr ?_
      simp only [execute, buildOverlay, h.build_eq hvalid, hbuilt]
      rfl

theorem Sound.decided_importOverlay (h : r.Sound) (occasion : Occasion) (path : String) :
    r.Decided occasion (.importOverlay path) := by
  cases hread : occasion.read path with
  | error f =>
    by_cases hfile : f = .isDirectory
    · exact Or.inl ⟨_, .directory (hfile ▸ hread)⟩
    · exact Or.inl ⟨_, .unreadable hread hfile⟩
  | ok bytes =>
    cases hbytes : Overlay.ofFile bytes with
    | error reason => exact Or.inl ⟨_, .malformed hread hbytes⟩
    | ok o =>
      by_cases hsize : r.peers.length = o.size
      · obtain ⟨o', hretargeted⟩ := h.exists_retarget hbytes hsize
        refine Or.inr ?_
        simp only [execute, hread, importOverlay, hbytes, hretargeted]
        rfl
      · exact Or.inl ⟨_, .wrongSize hread hbytes hsize⟩

/-- Every vertex of a sound overlay has a list of whom to dial, so once the first is told, none
    of the others is refused. -/
theorem Sound.decided_connectPeers (h : r.Sound) (occasion : Occasion) :
    r.Decided occasion .connectPeers := by
  cases hoverlay : r.overlay with
  | none => exact Or.inl ⟨_, .noOverlay rfl hoverlay⟩
  | some o =>
    obtain ⟨-, hordered, -⟩ := h.overlay o hoverlay
    refine Or.inr ?_
    rw [execute, connectPeers_eq hordered.distinct hoverlay]
    rfl

theorem decided_checkPeers (r : Registry) (occasion : Occasion) :
    r.Decided occasion .checkPeers := by
  cases hoverlay : r.overlay with
  | none => exact Or.inl ⟨_, .noOverlay rfl hoverlay⟩
  | some o =>
    refine Or.inr ?_
    simp only [execute, checkPeers, hoverlay]
    rfl

theorem decided_exportOverlay (r : Registry) (occasion : Occasion) (path : String) :
    r.Decided occasion (.exportOverlay path) := by
  cases hoverlay : r.overlay with
  | none => exact Or.inl ⟨_, .noOverlay rfl hoverlay⟩
  | some o =>
    cases hobstacle : occasion.obstacle path with
    | some f => exact Or.inl ⟨_, .unwritable hoverlay hobstacle⟩
    | none =>
      refine Or.inr ?_
      simp only [execute, exportOverlay, hoverlay, hobstacle]
      rfl

theorem decided_exportResults (r : Registry) (occasion : Occasion) (path : String) :
    r.Decided occasion (.exportResults path) := by
  cases hobstacle : occasion.obstacle path with
  | some f => exact Or.inl ⟨_, .unwritableResults hobstacle⟩
  | none =>
    refine Or.inr ?_
    simp only [execute, exportResults, hobstacle]
    rfl

/-- A drawn position is one of a peer, if there are any. -/
theorem decided_query (r : Registry) (occasion : Occasion) (kind : QueryKind) (metric : String)
    (limit : Int32) : r.Decided occasion (.query kind metric limit) := by
  by_cases hnone : r.peers = []
  · exact Or.inl ⟨_, .noPeers hnone⟩
  · have hlt := Draws.below_lt (List.length_pos_of_ne_nil hnone) occasion.draws
    refine Or.inr ?_
    simp only [execute, startQuery, inject, List.getElem?_eq_getElem hlt]
    rfl

/-- **Whatever is refused** is refused for one of the causes. -/
theorem Sound.decided (h : r.Sound) (occasion : Occasion) (c : RegistryCommand) :
    r.Decided occasion c := by
  cases c with
  | listPeers | printResults | clearResults | shutdown | help => exact Or.inr rfl
  | buildOverlay min max => exact h.decided_buildOverlay occasion min max
  | importOverlay path => exact h.decided_importOverlay occasion path
  | connectPeers => exact h.decided_connectPeers occasion
  | checkPeers => exact r.decided_checkPeers occasion
  | exportOverlay path => exact r.decided_exportOverlay occasion path
  | exportResults path => exact r.decided_exportResults occasion path
  | query kind metric limit => exact r.decided_query occasion kind metric limit

theorem Sound.answer_eq_error_iff (h : r.Sound) :
    (r.execute occasion c).answer = .error e ↔ r.Refusal occasion c e := by
  constructor
  · intro hanswer
    rcases h.decided occasion c with ⟨e', hrefused⟩ | hok
    · rw [hrefused.execute_eq h] at hanswer
      cases hanswer
      exact hrefused
    · rw [hanswer] at hok
      cases hok
  · intro hrefused
    rw [hrefused.execute_eq h]
    rfl

/-- **A refused command leaves nothing behind.**  After any calls, a command is refused exactly
    for the causes that are listed: a bad band, a construction that gives up, a file that cannot
    be read, is none of an overlay or is one of another size, a lacking overlay, no peers, and a
    file that cannot be written.  Registrations, overlay, check and results are then what they
    were, and nobody is sent anything. -/
theorem refused_iff (identity : PeerAddress) (calls : List Call) (occasion : Occasion)
    (c : RegistryCommand) :
    let r := (start identity).afterAll calls
    let outcome := r.execute occasion c
    (∀ e, outcome.answer = .error e ↔ r.Refusal occasion c e) ∧
      ∀ e, outcome.answer = .error e → outcome.registry = r ∧ outcome.outgoing = [] := by
  have hsound := sound_afterAll identity calls
  refine ⟨fun e => hsound.answer_eq_error_iff, fun e hanswer => ?_⟩
  have hrefused := hsound.answer_eq_error_iff.1 hanswer
  rw [hrefused.execute_eq hsound]
  exact ⟨rfl, rfl⟩

namespace Sample

open OverlayCensus.Sample (peer)
open Overlay.Sample (oddRow ordered_oddRow)

/-- A file with an overlay of three peers can be read. -/
theorem exists_ofFile_oddRow :
    ∃ o, Overlay.ofFile (Utf8.encode oddRow.toFile) = .ok o ∧ o.size = 3 := by
  have hwords : oddRow.InWords := ⟨by decide +kernel, by decide +kernel, by decide +kernel⟩
  have hread : ∀ x ∈ oddRow.ends, x.peer.Readable := by decide +kernel
  obtain ⟨o, hedges, -, -, hends, -⟩ :=
    ordered_oddRow.ofEdges_edges (by decide) (by decide +kernel)
  refine ⟨o, (Overlay.ofFileText_eq_ofEdges ordered_oddRow hwords hread).trans hedges, ?_⟩
  rw [← o.length_ends, hends]
  rfl

/-- An occasion on which every path leads to this file. -/
def rowAtHand : Occasion :=
  { Sample.occasion with read := fun _ => .ok (Utf8.encode oddRow.toFile) }

/-- Two peers have registered, and a query is out. -/
def asked : List Call :=
  [.message (.register (peer 1) "12") 0, .message (.register (peer 2) "") 0,
    .command (.query .flood "TEMPERATURE" (-1)) Sample.occasion]

/-- The file is no overlay of two peers, so its import is refused, and the query stays tracked. -/
theorem refused_iff_asked :
    let r := (start (peer 9)).afterAll asked
    let outcome := r.execute rowAtHand (.importOverlay "row")
    outcome.answer = .error (.overlay (.sizeMismatch 3 2)) ∧ outcome.registry = r ∧
      outcome.outgoing = [] ∧ r.results.size = 1 := by
  obtain ⟨hiff, hkept⟩ := refused_iff (peer 9) asked rowAtHand (.importOverlay "row")
  have hpeers : ((start (peer 9)).afterAll asked).peers.length = 2 := by decide +kernel
  obtain ⟨o, hread, hsize⟩ := exists_ofFile_oddRow
  have hrefused : ((start (peer 9)).afterAll asked).Refusal rowAtHand (.importOverlay "row") _ :=
    .wrongSize rfl hread (by omega)
  rw [hsize, hpeers] at hrefused
  have hanswer := (hiff _).2 hrefused
  obtain ⟨hregistry, hout⟩ := hkept _ hanswer
  exact ⟨hanswer, hregistry, hout, by decide +kernel⟩

end Sample

end OverlayCensus.Registry
