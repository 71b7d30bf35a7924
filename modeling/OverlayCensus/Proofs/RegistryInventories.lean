/-
  OverlayCensus — the devices of a peer, from its registration to its vertex.

  A peer registers with a device string, an overlay is built with the numbers of devices, and when
  its peers are connected each gets a device string back.  In between come other registrations,
  failing commands and queries; but no registration is ever changed, and an overlay stays until
  there is another one.

  * `Registered`: the device string with which a peer was accepted, `mem_peers_afterAll`: a registry
    holds what these are read as;
  * `keepsOverlay`: calls that bring no other overlay, `BuiltAfter`: an overlay that was built last;
  * `Suits`: what the inventory of a vertex promises;
  * `issued_inventories`: so connecting hands out the registered ones, each with a digit for every
    kind of device.
-/
import Mathlib
import OverlayCensus.Proofs.Inventories
import OverlayCensus.Proofs.RegistryConnecting
import OverlayCensus.Proofs.RegistryReports

namespace OverlayCensus.Registry

variable {r : Registry} {o : Overlay} {p : PeerAddress} {devices : String} {calls : List Call}

/-! ## What a call brings -/

/-- Whether a call brings an overlay. -/
def installs (r : Registry) : Call → Bool
  | .command (.buildOverlay min max) occasion =>
    (r.execute occasion (.buildOverlay min max)).answer.isOk
  | .command (.importOverlay path) occasion =>
    (r.execute occasion (.importOverlay path)).answer.isOk
  | _ => false

/-- What a call brings: a registration, an overlay, or neither. -/
inductive Effect (r : Registry) : Call → Registry → Prop
  | registered {p : PeerAddress} {devices : String} {now : ℕ} {inventory : Inventory}
      (haccepted : (r.register p devices).1 = true)
      (hdevices : Inventory.ofText? devices = some inventory) :
      Effect r (.message (.register p devices) now)
        { r with peers := r.peers ++ [⟨p, inventory⟩] }
  | installed {call : Call} {o : Overlay} (hinstalls : r.installs call = true) :
      Effect r call { r with overlay := some o }
  | neither {call : Call} (check : OverlayCheck) (results : Results) (stopped : Bool) :
      Effect r call { r with check := check, results := results, stopped := stopped }

theorem Effect.unchanged (r : Registry) (call : Call) : r.Effect call r :=
  .neither r.check r.results r.stopped

/-- Whoever is accepted is registered with what the device string is read as. -/
theorem exists_of_register (h : (r.register p devices).1 = true) :
    ∃ inventory, Inventory.ofText? devices = some inventory ∧
      (r.register p devices).2 = { r with peers := r.peers ++ [⟨p, inventory⟩] } := by
  cases hdevices : Inventory.ofText? devices with
  | none => simp [register, hdevices] at h
  | some inventory =>
    refine ⟨inventory, rfl, ?_⟩
    simp only [register, hdevices] at h ⊢
    split_ifs at h ⊢
    rfl

theorem effect_register (r : Registry) (p : PeerAddress) (devices : String) (now : ℕ) :
    r.Effect (.message (.register p devices) now) (r.register p devices).2 := by
  rcases r.register_cases p devices with hrefused | ⟨_, -, -, haccepted⟩
  · rw [hrefused]
    exact .unchanged r _
  · have haccepted := congrArg Prod.fst haccepted
    obtain ⟨inventory, hdevices, hregistry⟩ := exists_of_register haccepted
    rw [hregistry]
    exact .registered haccepted hdevices

theorem effect_recordCheck (r : Registry) (call : Call) (p : PeerAddress)
    (reported : List PeerAddress) : r.Effect call (r.recordCheck p reported) := by
  unfold recordCheck
  split
  · exact .unchanged r call
  · split
    · exact .unchanged r call
    · exact .neither _ r.results r.stopped

theorem buildOverlay_cases (r : Registry) (band : DegreeBand) (d : Draws) :
    (∃ e, r.buildOverlay band d = r.refuse e) ∨
      ∃ o text, r.buildOverlay band d = { r with overlay := some o }.say text := by
  unfold buildOverlay
  split
  · exact Or.inr ⟨_, _, rfl⟩
  · exact Or.inl ⟨_, rfl⟩

theorem importOverlay_cases (r : Registry) (file : Except StorageFault (List UInt8)) :
    (∃ e, r.importOverlay file = r.refuse e) ∨
      ∃ o text, r.importOverlay file = { r with overlay := some o }.say text := by
  unfold importOverlay
  split
  · exact Or.inl ⟨_, rfl⟩
  · exact Or.inl ⟨_, rfl⟩
  · split
    · exact Or.inl ⟨_, rfl⟩
    · split
      · exact Or.inl ⟨_, rfl⟩
      · exact Or.inr ⟨_, _, rfl⟩

/-- What is refused or brings an overlay does so if its answer says it. -/
theorem effect_of_cases {call : Call} {outcome : Outcome}
    (hcases : (∃ e, outcome = r.refuse e) ∨
      ∃ o text, outcome = { r with overlay := some o }.say text)
    (hinstalls : r.installs call = outcome.answer.isOk) : r.Effect call outcome.registry := by
  rcases hcases with ⟨e, rfl⟩ | ⟨o, text, rfl⟩
  · exact .unchanged r call
  · exact .installed hinstalls

theorem effect_startQuery (r : Registry) (call : Call) (kind : QueryKind) (metric : String)
    (limit : Int32) (now : ℕ) (d : Draws) (id : Uuid) :
    r.Effect call (r.startQuery kind metric limit now d id).registry := by
  unfold startQuery inject
  cases r.peers[(d.below r.peers.length).1]? with
  | none => exact .unchanged r call
  | some entry => exact .neither r.check _ r.stopped

theorem effect_execute (r : Registry) (occasion : Occasion) (c : RegistryCommand) :
    r.Effect (.command c occasion) (r.execute occasion c).registry := by
  cases c with
  | listPeers | printResults | help => exact .unchanged r _
  | buildOverlay min max => exact effect_of_cases (r.buildOverlay_cases _ _) rfl
  | importOverlay path => exact effect_of_cases (r.importOverlay_cases _) rfl
  | connectPeers =>
    rw [execute, registry_connectPeers]
    exact .unchanged r _
  | query kind metric limit => exact r.effect_startQuery ..
  | clearResults => exact .neither r.check .empty r.stopped
  | shutdown => exact .neither r.check r.results true
  | checkPeers =>
    rw [execute, checkPeers]
    split
    · exact .unchanged r _
    · exact .neither _ r.results r.stopped
  | exportOverlay path =>
    rw [execute, registry_exportOverlay]
    exact .unchanged r _
  | exportResults path =>
    rw [execute, registry_exportResults]
    exact .unchanged r _

/-- **Whatever a call does**, it is registration, an overlay or neither that it brings. -/
theorem effect_after (r : Registry) (call : Call) : r.Effect call (r.after call) := by
  cases call with
  | command c occasion => exact r.effect_execute occasion c
  | message m now =>
    cases m with
    | register p devices => exact r.effect_register p devices now
    | listPeersResponse p reported => exact r.effect_recordCheck _ p reported
    | _ => exact .neither r.check _ r.stopped

/-! ## Registrations -/

/-- The peer was accepted with this device string. -/
def Registered (identity : PeerAddress) (calls : List Call) (p : PeerAddress)
    (devices : String) : Prop :=
  ∃ earlier now later, calls = earlier ++ .message (.register p devices) now :: later ∧
    (((start identity).afterAll earlier).register p devices).1 = true

theorem Registered.append {identity : PeerAddress} (h : Registered identity calls p devices)
    (more : List Call) : Registered identity (calls ++ more) p devices := by
  obtain ⟨earlier, now, later, rfl, haccepted⟩ := h
  exact ⟨earlier, now, later ++ more, by simp, haccepted⟩

/-- An accepted peer stays registered. -/
theorem Registered.mem_peers {identity : PeerAddress} (h : Registered identity calls p devices) :
    ∃ inventory, Inventory.ofText? devices = some inventory ∧
      ⟨p, inventory⟩ ∈ ((start identity).afterAll calls).peers := by
  obtain ⟨earlier, now, later, rfl, haccepted⟩ := h
  obtain ⟨inventory, hdevices, hregistry⟩ := exists_of_register haccepted
  refine ⟨inventory, hdevices, ?_⟩
  rw [afterAll_append]
  refine (peers_prefix_afterAll _ later).subset ?_
  rw [after, receive, hregistry]
  exact List.mem_append_right _ (List.mem_singleton.2 rfl)

/-- A peer was accepted once, so its device string is read as the inventory that is registered. -/
theorem Registered.ofText?_eq {identity : PeerAddress} (h : Registered identity calls p devices)
    {inventory : Inventory} (hg : ⟨p, inventory⟩ ∈ ((start identity).afterAll calls).peers) :
    Inventory.ofText? devices = some inventory := by
  obtain ⟨read, hdevices, hmem⟩ := h.mem_peers
  have hsame : read = inventory := congrArg Registration.inventory
    (List.inj_on_of_nodup_map (sound_afterAll identity calls).distinct hmem hg rfl)
  rw [hdevices, hsame]

/-- **A registry holds** the peers that were accepted, with what their device strings are read
    as. -/
theorem mem_peers_afterAll {identity : PeerAddress} {g : Registration} :
    g ∈ ((start identity).afterAll calls).peers ↔
      ∃ devices, Registered identity calls g.identity devices ∧
        Inventory.ofText? devices = some g.inventory := by
  constructor
  · intro hg
    -- From the last call back: it added the peer, or the peer was there before.
    induction calls using List.reverseRecOn with
    | nil => cases hg
    | append_singleton calls call ih =>
      have hkept : g ∈ ((start identity).afterAll calls).peers → ∃ devices,
          Registered identity (calls ++ [call]) g.identity devices ∧
            Inventory.ofText? devices = some g.inventory := fun hg => by
        obtain ⟨devices, hregistered, hdevices⟩ := ih hg
        exact ⟨devices, hregistered.append _, hdevices⟩
      rw [afterAll_concat] at hg
      generalize hafter : ((start identity).afterAll calls).after call = r' at hg
      cases hafter ▸ effect_after ((start identity).afterAll calls) call with
      | @registered p devices now inventory haccepted hdevices =>
        rcases List.mem_append.1 hg with hold | hnew
        · exact hkept hold
        · obtain rfl := List.mem_singleton.1 hnew
          exact ⟨devices, ⟨calls, now, [], rfl, haccepted⟩, hdevices⟩
      | installed _ => exact hkept hg
      | neither => exact hkept hg
  · rintro ⟨devices, hregistered, hdevices⟩
    obtain ⟨inventory, hread, hmem⟩ := hregistered.mem_peers
    rw [hdevices, Option.some.injEq] at hread
    subst hread
    exact hmem

/-! ## Which overlay there is -/

/-- Whether none of the calls brings an overlay. -/
def keepsOverlay : Registry → List Call → Bool
  | _, [] => true
  | r, call :: calls => !r.installs call && (r.after call).keepsOverlay calls

theorem overlay_afterAll (h : r.keepsOverlay calls = true) :
    (r.afterAll calls).overlay = r.overlay := by
  induction calls generalizing r with
  | nil => rfl
  | cons call calls ih =>
    rw [keepsOverlay, Bool.and_eq_true, Bool.not_eq_true'] at h
    obtain ⟨hkeeps, hrest⟩ := h
    refine (ih hrest).trans ?_
    generalize hafter : r.after call = r'
    cases hafter ▸ effect_after r call with
    | registered => rfl
    | installed hinstalls =>
      rw [hinstalls] at hkeeps
      cases hkeeps
    | neither => rfl

/-- The overlay was built after the calls `before`, and none has come since. -/
def BuiltAfter (identity : PeerAddress) (before calls : List Call) : Prop :=
  let r := (start identity).afterAll before
  ∃ min max occasion since, calls = before ++ .command (.buildOverlay min max) occasion :: since ∧
    r.installs (.command (.buildOverlay min max) occasion) = true ∧
      (r.after (.command (.buildOverlay min max) occasion)).keepsOverlay since = true

theorem exists_build_of_installs {min max : ℕ} {occasion : Occasion}
    (h : r.installs (.command (.buildOverlay min max) occasion) = true) :
    ∃ o d', Overlay.build {} r.counted ⟨min, max⟩ occasion.draws = .ok (o, d') ∧
      (r.after (.command (.buildOverlay min max) occasion)).overlay = some o := by
  rw [installs, execute, buildOverlay] at h
  rw [after, execute, buildOverlay]
  cases hbuilt : Overlay.build {} r.counted ⟨min, max⟩ occasion.draws with
  | error e =>
    rw [hbuilt] at h
    cases h
  | ok built => exact ⟨built.1, built.2, rfl, rfl⟩

/-- A vertex of a built overlay stands for a registered peer, and has as many devices. -/
theorem exists_registration_of_build {band : DegreeBand} {d d' : Draws}
    (h : Overlay.build {} r.counted band d = .ok (o, d')) {v : Vertex} (hv : v ∈ o.vertices) :
    ∃ g ∈ r.peers, g.identity = v.peer ∧ g.inventory.deviceCount = v.devices.toNat := by
  have hend : v.toEnd ∈ Overlay.numbered r.counted := by
    rw [← Overlay.ends_of_build h]
    exact List.mem_map_of_mem (Array.mem_toList_iff.2 hv)
  obtain ⟨⟨⟨p, devices⟩, k⟩, hcounted, hsame⟩ := List.mem_map.1 hend
  obtain ⟨g, hg, hgpeer⟩ := List.mem_map.1 (List.fst_mem_of_mem_zipIdx hcounted)
  simp only [Vertex.toEnd, EdgeEnd.mk.injEq] at hsame
  simp only [Prod.mk.injEq] at hgpeer
  obtain ⟨-, rfl, hdevices⟩ := hsame
  obtain ⟨hpeer, rfl⟩ := hgpeer
  refine ⟨g, hg, hpeer, ?_⟩
  have hle := g.inventory.deviceCount_le
  rw [← hdevices, Nat.toUInt32, UInt32.toNat_ofNat', Nat.mod_eq_of_lt]
  rw [Inventory.capacity] at hle
  omega

theorem BuiltAfter.exists_registration {identity : PeerAddress} {before : List Call}
    (h : BuiltAfter identity before calls)
    (hoverlay : ((start identity).afterAll calls).overlay = some o) {v : Vertex}
    (hv : v ∈ o.vertices) :
    ∃ g ∈ ((start identity).afterAll before).peers, g ∈ ((start identity).afterAll calls).peers ∧
      g.identity = v.peer ∧ g.inventory.deviceCount = v.devices.toNat := by
  obtain ⟨min, max, occasion, since, rfl, hinstalls, hkeeps⟩ := h
  obtain ⟨built, d', hbuild, hbuilt⟩ := exists_build_of_installs hinstalls
  rw [afterAll_append] at hoverlay ⊢
  have hsame : built = o :=
    Option.some.inj (hbuilt.symm.trans ((overlay_afterAll hkeeps).symm.trans hoverlay))
  obtain ⟨g, hg, hgood⟩ := exists_registration_of_build hbuild (hsame ▸ hv)
  exact ⟨g, hg, (peers_prefix_afterAll _ _).subset hg, hgood⟩

/-! ## Inventories of vertices -/

/-- What the inventory that a vertex is assigned promises. -/
structure Suits (r : Registry) (v : Vertex) (i : Inventory) : Prop where
  reads : Inventory.ofText? i.render = some i
  deviceCount : i.deviceCount = min v.devices.toNat 171
  held_le : ∀ slot, i.held slot ≤ 9
  /-- It is the registered one if that has the size of the vertex. -/
  eq_registered : ∀ g ∈ r.peers, g.identity = v.peer →
    g.inventory.deviceCount = v.devices.toNat → i = g.inventory

/-- A peer has one registration. -/
theorem Sound.find?_registration (h : r.Sound) {g : Registration} (hg : g ∈ r.peers) :
    (r.peers.find? fun g' => g'.identity = g.identity) = some g := by
  have hsome : (r.peers.find? fun g' => g'.identity = g.identity).isSome = true := by
    rw [List.find?_isSome]
    exact ⟨g, hg, decide_eq_true rfl⟩
  obtain ⟨g', hfound⟩ := Option.isSome_iff_exists.1 hsome
  have hidentity : g'.identity = g.identity := by simpa using List.find?_some hfound
  rw [hfound, List.inj_on_of_nodup_map h.distinct (List.mem_of_find?_eq_some hfound) hg hidentity]

theorem deviceCount_assignedIn (r : Registry) (tries : ℕ) (v : Vertex) (d : Draws) :
    (r.assignedIn tries v d).1.deviceCount = min v.devices.toNat 171 := by
  have hdrawn : (Inventory.fill (min v.devices.toNat Inventory.capacity) tries .empty
      d).1.deviceCount = min v.devices.toNat 171 :=
    Inventory.deviceCount_fill (Nat.zero_le _) (min_le_right _ _) d
  rw [assignedIn]
  split
  · next g _ =>
    split_ifs with hcount
    · have hle := g.inventory.deviceCount_le
      rw [Inventory.capacity] at hle
      dsimp only
      omega
    · exact hdrawn
  · exact hdrawn

theorem Sound.suits_assignedIn (h : r.Sound) (tries : ℕ) (v : Vertex) (d : Draws) :
    r.Suits v (r.assignedIn tries v d).1 where
  reads := Inventory.ofText?_render _
  deviceCount := r.deviceCount_assignedIn tries v d
  held_le := Inventory.held_le _
  eq_registered g hg hpeer hcount := by
    rw [assignedIn, ← hpeer, h.find?_registration hg]
    exact congrArg Prod.fst (if_pos hcount)

/-- **What connecting hands out.**  After any calls, and whatever is drawn, each vertex of the
    overlay is told once whom to dial and which devices it has.  The device string is read as an
    inventory with the devices of the vertex, up to the 171 that it can carry and at most nine of a
    kind, and this is the registered one if it has the size of the vertex.  If the overlay was built
    last, whatever came after, it always is: the peer was accepted with a device string that is read
    as this inventory.  What it is sent is the very text with which it was accepted exactly if that
    has a digit for each kind and nothing else, see `Sample.not_issued_as_registered`.  All this does
    not depend on how many draws are allowed before an inventory is completed without. -/
theorem issued_inventories (identity : PeerAddress) (calls : List Call)
    (hoverlay : ((start identity).afterAll calls).overlay = some o)
    (hrunning : ((start identity).afterAll calls).stopped = false) (occasion : Occasion) :
    let r := (start identity).afterAll calls
    let issues := fun tries => r.issuesIn tries o.vertices.toList occasion.draws
    (r.execute occasion .connectPeers).outgoing = (issues Inventory.patience).map (issue o) ∧
      o.peers.Nodup ∧ ∀ tries, (issues tries).map Prod.fst = o.vertices.toList ∧
        (∀ a ∈ issues tries, r.Suits a.1 a.2) ∧
        ∀ before, BuiltAfter identity before calls → ∀ a ∈ issues tries,
          ⟨a.1.peer, a.2⟩ ∈ r.peers ∧ (∃ devices, Registered identity before a.1.peer devices) ∧
            ∀ devices, Registered identity calls a.1.peer devices →
              Inventory.ofText? devices = some a.2 ∧
                (a.2.render = devices ↔ Inventory.Full devices) := by
  intro r issues
  have hsound : r.Sound := sound_afterAll identity calls
  obtain ⟨-, hordered, -⟩ := hsound.overlay o hoverlay
  obtain ⟨-, hout⟩ := execute_connectPeers hordered.distinct hoverlay hrunning occasion
  have hsuits : ∀ tries, ∀ a ∈ issues tries, r.Suits a.1 a.2 := fun tries a ha => by
    obtain ⟨-, d, hassigned⟩ := exists_draws_of_mem_issuesIn ha
    rw [hassigned]
    exact hsound.suits_assignedIn tries a.1 d
  refine ⟨hout, hordered.distinct.nodup_peers, fun tries => ⟨r.map_fst_issuesIn .., hsuits tries,
    fun before hbuilt a ha => ?_⟩⟩
  obtain ⟨hv, -⟩ := exists_draws_of_mem_issuesIn ha
  obtain ⟨⟨p, inventory⟩, hbefore, hg, hpeer, hcount⟩ :=
    hbuilt.exists_registration hoverlay (Array.mem_toList_iff.1 hv)
  obtain rfl : a.2 = inventory := (hsuits tries a ha).eq_registered _ hg hpeer hcount
  obtain rfl : p = a.1.peer := hpeer
  obtain ⟨devices, hregistered, -⟩ := mem_peers_afterAll.1 hbefore
  refine ⟨hg, ⟨devices, hregistered⟩, fun devices hregistered => ?_⟩
  have hdevices := hregistered.ofText?_eq hg
  exact ⟨hdevices, Inventory.render_eq_iff hdevices⟩

namespace Sample

open OverlayCensus.Sample (peer)

/-- Two peers register, one of them with few digits. -/
def arrivals : List Call :=
  [.message (.register (peer 1) "12") 0, .message (.register (peer 2) "0300000000000000000") 0]

/-- They are put into an overlay. -/
def pairing : Call :=
  .command (.buildOverlay 1 1) Sample.occasion

/-- A third peer is late, and the first one is refused another registration; an import fails, and
    a query starts. -/
def aftermath : List Call :=
  [.message (.register (peer 3) "7") 0, .message (.register (peer 1) "9") 0,
    .command (.importOverlay "gone") Sample.occasion,
    .command (.query .flood "TEMPERATURE" (-1)) Sample.occasion]

/-- The overlay of the first two. -/
def pair : Overlay where
  band := ⟨1, 1⟩
  vertices := #[⟨0, peer 1, 3, [⟨1, 1⟩]⟩, ⟨1, peer 2, 3, [⟨0, 1⟩]⟩]

/-- The registry with this overlay. -/
def paired : Registry :=
  { (start (peer 9)).afterAll arrivals with overlay := some pair }

theorem afterAll_pairing :
    ((start (peer 9)).afterAll arrivals).installs pairing = true ∧
      ((start (peer 9)).afterAll arrivals).after pairing = paired := by
  set r := (start (peer 9)).afterAll arrivals
  have hvalid : Overlay.validate r.counted.length ⟨1, 1⟩ = .ok () := by decide +kernel
  have hpeers : (r.counted.map Prod.fst).Nodup := by decide +kernel
  have hattempts : (Overlay.attempts {} (Overlay.bare ⟨1, 1⟩ (Overlay.numbered r.counted))
      ({} : BuildSettings).maxAttempts Sample.occasion.draws).toOption.map Prod.fst =
        some pair := by
    decide +kernel
  obtain ⟨_, hbuilt⟩ := Overlay.exists_build_of_attempts hvalid (by decide) hpeers hattempts
  constructor
  · rw [pairing, installs, execute, buildOverlay, hbuilt]
    rfl
  · rw [pairing, after, execute, buildOverlay, hbuilt]
    rfl

theorem builtAfter_pairing : BuiltAfter (peer 9) arrivals (arrivals ++ pairing :: aftermath) := by
  refine ⟨1, 1, Sample.occasion, aftermath, rfl, afterAll_pairing.1, ?_⟩
  have hkeeps : paired.keepsOverlay aftermath = true := by decide +kernel
  exact afterAll_pairing.2 ▸ hkeeps

theorem afterAll_aftermath :
    (start (peer 9)).afterAll (arrivals ++ pairing :: aftermath) = paired.afterAll aftermath := by
  rw [afterAll_append, ← afterAll_pairing.2]
  rfl

/-- What came last left the overlay, and the registry is running. -/
theorem ready_aftermath :
    ((start (peer 9)).afterAll (arrivals ++ pairing :: aftermath)).overlay = some pair ∧
      ((start (peer 9)).afterAll (arrivals ++ pairing :: aftermath)).stopped = false := by
  rw [afterAll_aftermath]
  decide +kernel

theorem issues_aftermath :
    (((start (peer 9)).afterAll (arrivals ++ pairing :: aftermath)).issuesIn Inventory.patience
      pair.vertices.toList Sample.occasion.draws).map (issue pair) =
        [.send (peer 1) (.initiateConnections [peer 2] "1200000000000000000"),
          .send (peer 2) (.initiateConnections [] "0300000000000000000")] := by
  rw [afterAll_aftermath]
  decide +kernel

/-- The few digits come back with the zeros that they stand for, the others as they were. -/
theorem issued_inventories_pair :
    let calls := arrivals ++ pairing :: aftermath
    let r := (start (peer 9)).afterAll calls
    (r.overlay = some pair ∧ r.stopped = false ∧ BuiltAfter (peer 9) arrivals calls) ∧
      (r.execute Sample.occasion .connectPeers).outgoing =
        [.send (peer 1) (.initiateConnections [peer 2] "1200000000000000000"),
          .send (peer 2) (.initiateConnections [] "0300000000000000000")] ∧
      ∀ a ∈ r.issuesIn 0 pair.vertices.toList Sample.occasion.draws,
        r.Suits a.1 a.2 ∧ ⟨a.1.peer, a.2⟩ ∈ r.peers := by
  obtain ⟨hoverlay, hrunning⟩ := ready_aftermath
  obtain ⟨hout, -, hissues⟩ := issued_inventories (peer 9) _ hoverlay hrunning Sample.occasion
  obtain ⟨-, hsuits, hregistered⟩ := hissues 0
  exact ⟨⟨hoverlay, hrunning, builtAfter_pairing⟩, hout.trans issues_aftermath, fun a ha =>
    ⟨hsuits a ha, (hregistered arrivals builtAfter_pairing a ha).1⟩⟩

/-- A text of few digits is not issued as it was registered: the overlay was built last, and yet
    the first peer is sent its two digits with seventeen zeros, and never without. -/
theorem not_issued_as_registered :
    let calls := arrivals ++ pairing :: aftermath
    let r := (start (peer 9)).afterAll calls
    (r.overlay = some pair ∧ r.stopped = false ∧ BuiltAfter (peer 9) arrivals calls) ∧
      Registered (peer 9) arrivals (peer 1) "12" ∧
      .send (peer 1) (.initiateConnections [peer 2] "1200000000000000000") ∈
        (r.execute Sample.occasion .connectPeers).outgoing ∧
      ∀ neighbors, .send (peer 1) (.initiateConnections neighbors "12") ∉
        (r.execute Sample.occasion .connectPeers).outgoing := by
  obtain ⟨hoverlay, hrunning⟩ := ready_aftermath
  obtain ⟨-, hordered, -⟩ := (sound_afterAll (peer 9) _).overlay pair hoverlay
  obtain ⟨-, hout⟩ :=
    execute_connectPeers hordered.distinct hoverlay hrunning Sample.occasion
  have hout := hout.trans issues_aftermath
  have haccepted : ((start (peer 9)).register (peer 1) "12").1 = true := by decide +kernel
  refine ⟨⟨hoverlay, hrunning, builtAfter_pairing⟩, ⟨[], 0, _, rfl, haccepted⟩, ?_,
    fun neighbors h => ?_⟩
  · rw [hout]
    exact List.mem_cons_self
  · simp [hout] at h

end Sample

end OverlayCensus.Registry
