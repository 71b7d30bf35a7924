/-
  OverlayCensus — what the counts of a check say.

  A check counts reports, not peers: a peer that reports its neighbours twice counts twice.  So
  the counts can only be trusted if no peer agrees with the overlay more than once.

  * `check_afterAll`: what is counted, whatever reports come in;
  * `check_of_reports`: if no peer agrees twice and as many agree as were asked, every peer has
    reported the neighbours that it has in the overlay;
  * `repeated_reports_count`: else one peer passes for the others.
-/
import Mathlib
import OverlayCensus.Proofs.Delivery
import OverlayCensus.Proofs.OverlayBuild
import OverlayCensus.Proofs.RegistryCalls

namespace OverlayCensus

/-- A peer's report of its neighbours, and when it comes in. -/
structure Report where
  peer : PeerAddress
  neighbors : List PeerAddress
  now : ℕ

/-- The call by which a registry learns of a report. -/
def Report.call (report : Report) : Registry.Call :=
  .message (.listPeersResponse report.peer report.neighbors) report.now

namespace Overlay

variable {o : Overlay} {p : PeerAddress}

/-- A report of just the neighbours that a peer of the overlay has in it. -/
def Agrees (o : Overlay) (report : Report) : Prop :=
  report.peer ∈ o.peers ∧
    PeerSet.ofList (o.neighborsOf report.peer) = PeerSet.ofList report.neighbors

instance (o : Overlay) (report : Report) : Decidable (o.Agrees report) :=
  inferInstanceAs (Decidable (_ ∧ _))

theorem Agrees.mem_neighbors {report : Report} (h : o.Agrees report) (q : PeerAddress) :
    q ∈ report.neighbors ↔ q ∈ o.neighborsOf report.peer := by
  rw [← PeerSet.mem_ofList, ← h.2, PeerSet.mem_ofList]

theorem neighbors_cases (o : Overlay) (p : PeerAddress) :
    (p ∉ o.peers ∧ ∃ e, o.neighbors p = .error e) ∨
      (p ∈ o.peers ∧ ∃ ns, o.neighbors p = .ok ns ∧ o.neighborsOf p = ns.map Prod.fst) := by
  rw [mem_peers]
  cases hfind : o.vertices.find? fun v => v.peer = p with
  | none =>
    have hnone := Array.find?_eq_none.1 hfind
    simp only [decide_eq_true_eq] at hnone
    refine Or.inl ⟨fun ⟨v, hv, hpeer⟩ => hnone v hv hpeer, .unknownPeer p, ?_⟩
    rw [neighbors, vertexOf, hfind]
  | some v =>
    have hpeer : v.peer = p := by simpa using Array.find?_some hfind
    have hns : o.neighbors p = .ok ((o.neighborVertices v).map fun n => (n.1.peer, n.2)) := by
      rw [neighbors, vertexOf, hfind]
    exact Or.inr ⟨⟨v, Array.mem_of_find?_eq_some hfind, hpeer⟩, _, hns, by rw [neighborsOf, hns]⟩

end Overlay

namespace Registry

variable {r : Registry} {o : Overlay}

/-! ## Counting -/

theorem after_report (hoverlay : r.overlay = some o) (report : Report) :
    r.after report.call = { r with check :=
      { r.check with
        responses := r.check.responses + if report.peer ∈ o.peers then 1 else 0
        successes := r.check.successes + if o.Agrees report then 1 else 0 } } := by
  have hr : { r with overlay := some o } = r := by rw [← hoverlay]
  rw [Report.call, after, receive, recordCheck, hoverlay]
  rcases o.neighbors_cases report.peer with ⟨hout, e, herror⟩ | ⟨hin, ns, hns, hneighbors⟩
  · have hdiffers : ¬ o.Agrees report := fun h => hout h.1
    simp only [herror, if_neg hout, if_neg hdiffers, Nat.add_zero, hr]
  · simp only [hns, Overlay.Agrees, hneighbors, hin, true_and, if_true]
    split_ifs <;> rfl

/-- **A check counts reports**: those of the overlay's peers, and those of them that agree. -/
theorem check_afterAll (hoverlay : r.overlay = some o) (reports : List Report) :
    (r.afterAll (reports.map Report.call)).check =
      ⟨r.check.expected, r.check.responses + reports.countP (·.peer ∈ o.peers),
        r.check.successes + reports.countP (o.Agrees ·)⟩ := by
  induction reports generalizing r with
  | nil => rfl
  | cons report reports ih =>
    have hstep := after_report hoverlay report
    have hkept : (r.after report.call).overlay = some o := by rw [hstep]; exact hoverlay
    have hrest := ih hkept
    rw [List.map_cons, afterAll, List.foldl_cons]
    rw [afterAll] at hrest
    rw [hrest, hstep, List.countP_cons, List.countP_cons]
    simp only [decide_eq_true_eq]
    congr 1 <;> omega

/-- Asking the peers starts the counts anew. -/
theorem check_afterAll_asked (hoverlay : r.overlay = some o) (occasion : Occasion)
    (reports : List Report) :
    (r.afterAll (.command .checkPeers occasion :: reports.map Report.call)).check =
      ⟨o.size, reports.countP (·.peer ∈ o.peers), reports.countP (o.Agrees ·)⟩ := by
  have hasked : r.after (.command .checkPeers occasion) = { r with check := ⟨o.size, 0, 0⟩ } := by
    simp only [after, execute, checkPeers, hoverlay, say]
  have hkept : ({ r with check := ⟨o.size, 0, 0⟩ } : Registry).overlay = some o := hoverlay
  have hcounted := check_afterAll hkept reports
  rw [afterAll, List.foldl_cons, hasked, ← afterAll, hcounted, Nat.zero_add, Nat.zero_add]

/-! ## Trusting the counts -/

/-- Peers that each agree once are no more than the overlay has, and if they are as many, they
    are all of these. -/
theorem agreeing_of_nodup (reports : List Report)
    (honce : ((reports.filter (o.Agrees ·)).map Report.peer).Nodup) :
    reports.countP (o.Agrees ·) ≤ o.size ∧ (reports.countP (o.Agrees ·) = o.size →
      ∀ p ∈ o.peers, ∃ report ∈ reports, report.peer = p ∧ o.Agrees report) := by
  set agreed := (reports.filter (o.Agrees ·)).map Report.peer
  have hcount : agreed.length = reports.countP (o.Agrees ·) := by
    rw [List.length_map, List.countP_eq_length_filter]
  have hagreed : ∀ p ∈ agreed, ∃ report ∈ reports, report.peer = p ∧ o.Agrees report := by
    intro p hp
    obtain ⟨report, hreport, rfl⟩ := List.mem_map.1 hp
    obtain ⟨hmem, hagrees⟩ := List.mem_filter.1 hreport
    exact ⟨report, hmem, rfl, of_decide_eq_true hagrees⟩
  have hsubset : agreed ⊆ o.peers := by
    intro p hp
    obtain ⟨report, -, rfl, hagrees⟩ := hagreed p hp
    exact hagrees.1
  have hsub : agreed.Subperm o.peers := honce.subperm hsubset
  rw [← hcount, ← o.length_peers]
  refine ⟨hsub.length_le, fun heq p hp => hagreed p ?_⟩
  exact (hsub.perm_of_length_le heq.ge).mem_iff.2 hp

/-- **What the counts of a check say.**  Whatever reports come in after the peers were asked, in
    whatever order and from whomever, the check counts those of the overlay's peers, and the ones
    among them that agree.  If no peer agrees twice, no more agree than were asked, and when as
    many do, every peer has reported just its neighbours. -/
theorem check_of_reports (hoverlay : r.overlay = some o) (occasion : Occasion)
    (reports : List Report) :
    let check := (r.afterAll (.command .checkPeers occasion :: reports.map Report.call)).check
    check = ⟨o.size, reports.countP (·.peer ∈ o.peers), reports.countP (o.Agrees ·)⟩ ∧
      (((reports.filter (o.Agrees ·)).map Report.peer).Nodup →
        check.successes ≤ check.expected ∧ (check.successes = check.expected →
          ∀ p ∈ o.peers, ∃ report ∈ reports, report.peer = p ∧
            ∀ q, q ∈ report.neighbors ↔ q ∈ o.neighborsOf p)) := by
  refine ⟨check_afterAll_asked hoverlay occasion reports, fun honce => ?_⟩
  rw [check_afterAll_asked hoverlay]
  obtain ⟨hle, hall⟩ := agreeing_of_nodup reports honce
  refine ⟨hle, fun heq p hp => ?_⟩
  obtain ⟨report, hreport, rfl, hagrees⟩ := hall heq p hp
  exact ⟨report, hreport, rfl, hagrees.mem_neighbors⟩

/-! ## Peers that agree again -/

namespace Sample

open OverlayCensus.Sample (peer)

/-- An occasion without files. -/
def occasion : Occasion :=
  ⟨0, .ofWords fun _ => 0, default, fun _ => .error .isDirectory, fun _ => none⟩

/-- A registry with which three peers have registered. -/
def registered : Registry :=
  (start (peer 9)).afterAll ([peer 1, peer 2, peer 3].map fun p => .message (.register p "") 0)

/-- The registry when it has put them into an overlay. -/
def founded : Registry :=
  registered.after (.command (.buildOverlay 2 2) occasion)

/-- The overlay: all of them are linked. -/
def triangle : Overlay where
  band := ⟨2, 2⟩
  vertices := #[⟨0, peer 1, 0, [⟨1, 1⟩, ⟨2, 1⟩]⟩, ⟨1, peer 2, 0, [⟨0, 1⟩, ⟨2, 1⟩]⟩,
    ⟨2, peer 3, 0, [⟨1, 1⟩, ⟨0, 1⟩]⟩]

theorem overlay_founded : founded.overlay = some triangle := by
  have hvalid : Overlay.validate registered.counted.length ⟨2, 2⟩ = .ok () := by decide +kernel
  have hpeers : (registered.counted.map Prod.fst).Nodup := by decide +kernel
  have hattempts : (Overlay.attempts {} (Overlay.bare ⟨2, 2⟩ (Overlay.numbered registered.counted))
      ({} : BuildSettings).maxAttempts occasion.draws).toOption.map Prod.fst = some triangle := by
    decide +kernel
  obtain ⟨_, hbuilt⟩ := Overlay.exists_build_of_attempts hvalid (by decide) hpeers hattempts
  rw [founded, after, execute, buildOverlay, hbuilt]
  rfl

/-- What the first peer reports. -/
def first : Report := ⟨peer 1, [peer 2, peer 3], 0⟩

/-- What the second peer reports. -/
def second : Report := ⟨peer 2, [peer 3, peer 1], 0⟩

/-- What the third peer reports. -/
def third : Report := ⟨peer 3, [peer 2, peer 1], 0⟩

/-- All three agree, one of them only after a report that does not. -/
theorem check_of_reports_triangle :
    founded.overlay = some triangle ∧
      let reports := [third, ⟨peer 2, [], 0⟩, first, second]
      let check := (founded.afterAll
        (.command .checkPeers occasion :: reports.map Report.call)).check
      check = ⟨3, 4, 3⟩ ∧ ∀ p ∈ triangle.peers, ∃ report ∈ reports, report.peer = p ∧
        ∀ q, q ∈ report.neighbors ↔ q ∈ triangle.neighborsOf p := by
  obtain ⟨hcheck, htrusted⟩ := check_of_reports overlay_founded occasion
    [third, ⟨peer 2, [], 0⟩, first, second]
  have hcounts := hcheck.trans (show _ = ⟨3, 4, 3⟩ by decide +kernel)
  refine ⟨overlay_founded, hcounts, (htrusted (by decide +kernel)).2 ?_⟩
  rw [hcounts]

/-- **Reports of one peer count again.**  When the first peer agrees four times, more reports agree
    than were asked for; when it does twice and the second peer once, as many do, and nothing is
    known of the third. -/
theorem repeated_reports_count :
    let check := fun reports : List Report =>
      (founded.afterAll (.command .checkPeers occasion :: reports.map Report.call)).check
    founded.overlay = some triangle ∧ check [first, first, first, first] = ⟨3, 4, 4⟩ ∧
      check [first, first, second] = ⟨3, 3, 3⟩ ∧ third.peer ∈ triangle.peers ∧
      ∀ report ∈ [first, first, second], report.peer ≠ third.peer := by
  refine ⟨overlay_founded, ?_, ?_, by decide +kernel, by decide +kernel⟩
  · exact (check_afterAll_asked overlay_founded occasion _).trans (by decide +kernel)
  · exact (check_afterAll_asked overlay_founded occasion _).trans (by decide +kernel)

end Sample

end Registry

end OverlayCensus
