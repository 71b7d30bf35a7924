/-
  OverlayCensus — what calls leave of a registry.

  The registrations and the overlay of a registry are changed by different calls, in any order:
  peers register, also late and with faulty messages, and the operator builds overlays and
  imports them.  Yet an overlay always stands on the peers that registered first, as no
  registration is ever taken back, and a new overlay takes up all there are.

  * `Step` lists what one call can do, and `step_after` proves that this is all;
  * `Sound`: what holds of a registry between two calls, `Sound.step`: whatever the call does;
  * `sound_of_calls`: so it holds after any calls, and registrations are only ever added behind
    the others.
-/
import Mathlib
import OverlayCensus.Proofs.OverlayDialing
import OverlayCensus.Registry

namespace OverlayCensus

/-! ## The peers of a new overlay -/

namespace Overlay

variable {o o' : Overlay}

theorem peers_eq (o : Overlay) : o.peers = o.ends.map EdgeEnd.peer := by
  rw [ends, List.map_map]
  rfl

/-- A built overlay has the peers that it was built over, in their order. -/
theorem peers_of_build {settings : BuildSettings} {peers : List (PeerAddress × UInt32)}
    {band : DegreeBand} {d d' : Draws} (h : build settings peers band d = .ok (o, d')) :
    o.peers = peers.map Prod.fst := by
  rw [peers_eq, ends_of_build h, map_peer_numbered]

/-- An overlay that is put on other peers has those, in their order. -/
theorem peers_of_retarget {peers : List PeerAddress} (h : o.retarget peers = .ok o') :
    o'.peers = peers := by
  rw [retarget] at h
  split_ifs at h with hlength
  obtain ⟨_, hbare, h⟩ := bind_eq_ok.1 h
  obtain ⟨-, rfl⟩ := ofVertices?_eq_ok_iff.1 hbare
  obtain ⟨linked, hlinked, h⟩ := bind_eq_ok.1 h
  obtain ⟨⟨⟩, -, h⟩ := bind_eq_ok.1 h
  cases h
  have hsecond : (o.vertices.toList.zip peers).map Prod.snd = peers :=
    List.map_snd_zip hlength.le
  rw [peers_eq, ends_of_connectAll hlinked, ends_bare, List.map_map]
  exact hsecond

end Overlay

namespace Registry

variable {r r' : Registry} {o : Overlay} {p : PeerAddress}

/-! ## Calls -/

/-- A call to a registry: a message comes in, or the operator gives a command. -/
inductive Call where
  | message (m : Message) (now : ℕ)
  | command (c : RegistryCommand) (occasion : Occasion)

/-- The registry after a call, whether this succeeds or not. -/
def after (r : Registry) : Call → Registry
  | .message m now => r.receive m now
  | .command c occasion => (r.execute occasion c).registry

/-- The registry after calls in order. -/
def afterAll (r : Registry) (calls : List Call) : Registry :=
  calls.foldl after r

theorem afterAll_append (r : Registry) (calls more : List Call) :
    r.afterAll (calls ++ more) = (r.afterAll calls).afterAll more :=
  List.foldl_append

theorem afterAll_concat (r : Registry) (calls : List Call) (call : Call) :
    r.afterAll (calls ++ [call]) = (r.afterAll calls).after call :=
  r.afterAll_append calls [call]

/-- The registered peers, in the order in which they registered. -/
def identities (r : Registry) : List PeerAddress :=
  r.peers.map Registration.identity

theorem map_fst_counted (r : Registry) : r.counted.map Prod.fst = r.identities := by
  rw [counted, List.map_map]
  rfl

/-- What a call can do to a registry. -/
inductive Step (r : Registry) : Registry → Prop
  /-- Registrations, overlay and check stay as they are. -/
  | aside (results : Results) (stopped : Bool) :
      Step r { r with results := results, stopped := stopped }
  | registered {p : PeerAddress} {inventory : Inventory} (hother : p ≠ r.identity)
      (hnew : p ∉ r.identities) : Step r { r with peers := r.peers ++ [⟨p, inventory⟩] }
  /-- A new overlay, of all peers that are registered. -/
  | installed {o : Overlay} (hordered : o.Ordered) (hverify : o.verify = .ok ())
      (hpeers : o.peers = r.identities) : Step r { r with overlay := some o }
  | asked {o : Overlay} (hoverlay : r.overlay = some o) :
      Step r { r with check := ⟨o.size, 0, 0⟩ }
  /-- A report is counted, and if it agrees as a success too. -/
  | reported {successes : ℕ} (hcounted : successes ≤ r.check.successes + 1) :
      Step r { r with check :=
        { r.check with responses := r.check.responses + 1, successes := successes } }

theorem Step.refl (r : Registry) : r.Step r :=
  .aside r.results r.stopped

/-! ## What a call can do -/

/-- A registration is refused and changes nothing, or it is added behind the others. -/
theorem register_cases (r : Registry) (p : PeerAddress) (devices : String) :
    r.register p devices = (false, r) ∨
      ∃ inventory, p ≠ r.identity ∧ p ∉ r.identities ∧
        r.register p devices = (true, { r with peers := r.peers ++ [⟨p, inventory⟩] }) := by
  unfold register
  cases Inventory.ofText? devices with
  | none => exact Or.inl (ite_self _)
  | some inventory =>
    dsimp only
    split_ifs with hown hknown
    · exact Or.inl rfl
    · exact Or.inl rfl
    · refine Or.inr ⟨inventory, hown, fun hp => hknown ?_, rfl⟩
      obtain ⟨registration, hmem, rfl⟩ := List.mem_map.1 hp
      exact List.any_eq_true.2 ⟨registration, hmem, decide_eq_true rfl⟩

theorem step_recordCheck (r : Registry) (p : PeerAddress) (reported : List PeerAddress) :
    r.Step (r.recordCheck p reported) := by
  unfold recordCheck
  split
  · exact .refl r
  · split
    · exact .refl r
    · refine .reported ?_
      split_ifs <;> omega

theorem step_receive (r : Registry) (m : Message) (now : ℕ) : r.Step (r.receive m now) := by
  cases m with
  | register p devices =>
    rcases r.register_cases p devices with hrefused | ⟨inventory, hother, hnew, haccepted⟩
    · rw [receive, hrefused]
      exact .refl r
    · rw [receive, haccepted]
      exact .registered hother hnew
  | listPeersResponse p reported => exact r.step_recordCheck p reported
  | _ => exact .aside _ r.stopped

theorem step_buildOverlay (r : Registry) (band : DegreeBand) (d : Draws) :
    r.Step (r.buildOverlay band d).registry := by
  rw [buildOverlay]
  split
  · next o d' hbuilt =>
    obtain ⟨hordered, -, hverify⟩ := Overlay.ordered_of_build hbuilt
    refine .installed hordered hverify ?_
    rw [Overlay.peers_of_build hbuilt, map_fst_counted]
  · exact .refl r

theorem step_importOverlay (r : Registry) (file : Except StorageFault (List UInt8)) :
    r.Step (r.importOverlay file).registry := by
  unfold importOverlay
  split
  · exact .refl r
  · exact .refl r
  · split
    · exact .refl r
    · next read hread =>
      split
      · exact .refl r
      · next o hretargeted =>
        obtain ⟨hordered, -, hverify⟩ :=
          Overlay.ordered_of_retarget (Overlay.ordered_of_ofFile hread).1 hretargeted
        exact .installed hordered hverify (Overlay.peers_of_retarget hretargeted)

/-- Telling the peers whom to dial changes nothing at the registry. -/
theorem registry_connectPeers (r : Registry) (d : Draws) : (r.connectPeers d).registry = r := by
  unfold connectPeers
  split
  · rfl
  · next o _ =>
    generalize r.connectionLists o o.vertices.toList d = lists
    obtain ⟨out, _ | e⟩ := lists <;> rfl

/-- Nor does writing a file, whether it succeeds or not. -/
theorem registry_exportOverlay (r : Registry) (path : String) (obstacle : Option StorageFault) :
    (r.exportOverlay path obstacle).registry = r := by
  unfold exportOverlay
  split
  · rfl
  · cases obstacle <;> rfl

theorem registry_exportResults (r : Registry) (path : String) (obstacle : Option StorageFault) :
    (r.exportResults path obstacle).registry = r := by
  cases obstacle <;> rfl

theorem step_startQuery (r : Registry) (kind : QueryKind) (metric : String) (limit : Int32)
    (now : ℕ) (d : Draws) (id : Uuid) :
    r.Step (r.startQuery kind metric limit now d id).registry := by
  unfold startQuery inject
  cases r.peers[(d.below r.peers.length).1]? with
  | none => exact .refl r
  | some entry => exact .aside _ r.stopped

theorem step_execute (r : Registry) (occasion : Occasion) (c : RegistryCommand) :
    r.Step (r.execute occasion c).registry := by
  cases c with
  | listPeers | printResults | help => exact .refl r
  | buildOverlay min max => exact r.step_buildOverlay _ _
  | importOverlay path => exact r.step_importOverlay _
  | connectPeers =>
    rw [execute, registry_connectPeers]
    exact .refl r
  | query kind metric limit => exact r.step_startQuery ..
  | clearResults => exact .aside .empty r.stopped
  | shutdown => exact .aside r.results true
  | checkPeers =>
    rw [execute, checkPeers]
    split
    · exact .refl r
    · next o hoverlay => exact .asked hoverlay
  | exportOverlay path =>
    rw [execute, registry_exportOverlay]
    exact .refl r
  | exportResults path =>
    rw [execute, registry_exportResults]
    exact .refl r

/-- **Whatever a call does** is one of the steps. -/
theorem step_after (r : Registry) (call : Call) : r.Step (r.after call) := by
  cases call with
  | message m now => exact r.step_receive m now
  | command c occasion => exact r.step_execute occasion c

/-! ## What all calls keep -/

/-- What holds of a registry between two calls. -/
structure Sound (r : Registry) : Prop where
  distinct : r.identities.Nodup
  apart : r.identity ∉ r.identities
  /-- The overlay stands on the peers that registered first. -/
  overlay : ∀ o, r.overlay = some o →
    o.peers <+: r.identities ∧ o.Ordered ∧ o.verify = .ok ()
  counted : r.check.successes ≤ r.check.responses

theorem sound_start (identity : PeerAddress) : (start identity).Sound :=
  ⟨List.nodup_nil, List.not_mem_nil, nofun, le_rfl⟩

theorem Step.identity_eq (h : r.Step r') : r'.identity = r.identity := by
  cases h <;> rfl

/-- No registration is ever taken back. -/
theorem Step.peers_prefix (h : r.Step r') : r.peers <+: r'.peers := by
  cases h with
  | registered hother hnew => exact List.prefix_append _ _
  | _ => exact List.prefix_rfl

/-- **A registry stays sound**, whatever a call does. -/
theorem Sound.step (h : r.Sound) (hstep : r.Step r') : r'.Sound := by
  obtain ⟨hdistinct, hapart, hoverlay, hcounted⟩ := h
  cases hstep with
  | aside results stopped => exact ⟨hdistinct, hapart, hoverlay, hcounted⟩
  | @registered p inventory hother hnew =>
    have hidentities : ({ r with peers := r.peers ++ [⟨p, inventory⟩] } : Registry).identities =
        r.identities ++ [p] := List.map_append
    refine ⟨?_, ?_, fun o ho => ?_, hcounted⟩
    · rw [hidentities]
      exact List.nodup_append'.2 ⟨hdistinct, List.nodup_singleton p, List.disjoint_singleton.2 hnew⟩
    · rw [hidentities, List.mem_append, List.mem_singleton, not_or]
      exact ⟨hapart, hother.symm⟩
    · obtain ⟨hfirst, hgraph⟩ := hoverlay o ho
      rw [hidentities]
      exact ⟨hfirst.trans (List.prefix_append _ _), hgraph⟩
  | installed hordered hverify hpeers =>
    refine ⟨hdistinct, hapart, fun o' ho' => ?_, hcounted⟩
    cases ho'
    exact ⟨hpeers ▸ List.prefix_rfl, hordered, hverify⟩
  | asked _ => exact ⟨hdistinct, hapart, hoverlay, le_rfl⟩
  | reported hreport => exact ⟨hdistinct, hapart, hoverlay, by dsimp only; omega⟩

/-- What every step keeps holds after all calls. -/
theorem afterAll_induction {P : Registry → Prop} (hstep : ∀ r r', P r → r.Step r' → P r')
    (h : P r) (calls : List Call) : P (r.afterAll calls) := by
  induction calls generalizing r with
  | nil => exact h
  | cons call calls ih => exact ih (hstep r _ h (r.step_after call))

theorem sound_afterAll (identity : PeerAddress) (calls : List Call) :
    ((start identity).afterAll calls).Sound :=
  afterAll_induction (fun _ _ h hstep => h.step hstep) (sound_start identity) calls

theorem peers_prefix_afterAll (r : Registry) (calls : List Call) :
    r.peers <+: (r.afterAll calls).peers :=
  afterAll_induction (P := fun r' => r.peers <+: r'.peers)
    (fun _ _ h hstep => h.trans hstep.peers_prefix) List.prefix_rfl calls

/-- **After any calls**, messages and commands in any order, carried out or refused, and with
    whatever files and draws: the registered peers differ from each other and from the registry;
    an overlay stands on those that registered first, in their order, links between its vertices
    make up a graph, and its degrees lie in its band; no more reports agree than were counted.
    Later calls only add registrations behind these, and one that is refused changes nothing. -/
theorem sound_of_calls (identity : PeerAddress) (calls : List Call) :
    let r := (start identity).afterAll calls
    r.identity = identity ∧ r.Sound ∧ (∀ more, r.peers <+: (r.afterAll more).peers) ∧
      ∀ p devices now, (r.register p devices).1 = false →
        r.after (.message (.register p devices) now) = r := by
  refine ⟨?_, ?_, peers_prefix_afterAll _, fun p devices now hrefused => ?_⟩
  · exact afterAll_induction (P := fun r => r.identity = identity)
      (fun _ _ h hstep => hstep.identity_eq.trans h) rfl calls
  · exact afterAll_induction (fun _ _ h hstep => h.step hstep) (sound_start identity) calls
  · rcases register_cases _ p devices with hsame | ⟨_, _, _, haccepted⟩
    · exact congrArg Prod.snd hsame
    · rw [haccepted] at hrefused
      cases hrefused

end Registry

end OverlayCensus
