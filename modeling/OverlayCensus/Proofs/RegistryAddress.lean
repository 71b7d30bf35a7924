/-
  OverlayCensus — the registry that a peer is told of.

  A peer is told of the registry by a variable or by its arguments.  A variable is read like any
  written address, but the first argument is taken for the host as it is, whatever it holds.

  * `ofVariables_eq_ok_iff`, `validate_eq_ok_iff`: the configurations that variables give;
  * `of_withArguments`: what arguments change;
  * `readable_iff_of_accepted`: the registries that can be passed on;
  * `registry_of_accepted`: the registry of a peer, in a variable, in messages and in frames.
-/
import Mathlib
import OverlayCensus.Config
import OverlayCensus.Proofs.Framing
import OverlayCensus.Proofs.Outcomes

namespace OverlayCensus.PeerConfig

variable {lookup : String → Option String} {arguments : List String} {c c' base : PeerConfig}
  {s : String} {a : PeerAddress}

/-! ## What is accepted -/

/-- A peer can run with the configuration. -/
structure Fit (c : PeerConfig) : Prop where
  port_ne : c.registry.port ≠ 0
  skip : c.skip.isProbability = true
  gossipSeconds_ne : c.gossipSeconds ≠ 0

theorem validate_eq_ok_iff : c.validate = .ok c' ↔ c.Fit ∧ c = c' := by
  constructor
  · intro h
    rw [validate] at h
    split_ifs at h with hport hskip hseconds
    cases h
    exact ⟨⟨hport, by simpa using hskip, hseconds⟩, rfl⟩
  · rintro ⟨hfit, rfl⟩
    rw [validate, if_neg hfit.port_ne, if_neg (by simp [hfit.skip]), if_neg hfit.gossipSeconds_ne]

/-- The variables, or the defaults of those that are not set, give the configuration. -/
structure Given (lookup : String → Option String) (c : PeerConfig) : Prop where
  listen : ListenAddress.parse ((lookup "CHORUS_LISTEN_ADDR").getD defaultPeerListenAddress) =
    .ok c.listen
  registry : PeerAddress.ofText? ((lookup "CHORUS_REGISTRY_ADDR").getD defaultRegistryAddress) =
    some c.registry
  deviceCount : readVariable lookup readSize "CHORUS_DEVICE_COUNT" 0 = .ok c.deviceCount
  tableCapacity : readVariable lookup readSize "CHORUS_CACHE_SIZE"
    ({} : EngineSettings).tableCapacity = .ok c.tableCapacity
  queryCapacity : readVariable lookup readSize "CHORUS_QUERY_CACHE_SIZE"
    ({} : EngineSettings).queryCapacity = .ok c.queryCapacity
  gossipSeconds : readVariable lookup readSize "CHORUS_GOSSIP_INTERVAL_SECS" 30 =
    .ok c.gossipSeconds
  skip : readVariable lookup Binary64.ofText? "CHORUS_SKIP_PROBABILITY"
    ({} : EngineSettings).skip = .ok c.skip
  fit : c.Fit

/-- Behind the registry's address the configuration is read on if it is one. -/
theorem readRegistry_eq_ok_iff (next : PeerAddress → Except ConfigError PeerConfig) :
    (match PeerAddress.parse s with
      | .ok a => Except.ok a >>= next
      | .error cause => Except.error (ConfigError.invalidRegistryAddress cause) >>= next) = .ok c ↔
    ∃ a, PeerAddress.ofText? s = some a ∧ next a = .ok c := by
  rw [PeerAddress.parse]
  cases PeerAddress.ofText? s with
  | some a => simp [ok_bind]
  | none => simp [error_bind]

/-- **The configurations that variables give.** -/
theorem ofVariables_eq_ok_iff : ofVariables lookup = .ok c ↔ Given lookup c := by
  constructor
  · intro h
    obtain ⟨listen, hlisten, h⟩ := bind_eq_ok.1 h
    obtain ⟨registry, hregistry, h⟩ := (readRegistry_eq_ok_iff _).1 h
    obtain ⟨deviceCount, hdevices, h⟩ := bind_eq_ok.1 h
    obtain ⟨tableCapacity, htable, h⟩ := bind_eq_ok.1 h
    obtain ⟨queryCapacity, hquery, h⟩ := bind_eq_ok.1 h
    obtain ⟨gossipSeconds, hseconds, h⟩ := bind_eq_ok.1 h
    obtain ⟨skip, hskip, h⟩ := bind_eq_ok.1 h
    obtain ⟨hfit, rfl⟩ := validate_eq_ok_iff.1 h
    exact ⟨hlisten, hregistry, hdevices, htable, hquery, hseconds, hskip, hfit⟩
  · intro h
    refine bind_eq_ok.2 ⟨_, h.listen, (readRegistry_eq_ok_iff _).2 ⟨_, h.registry, ?_⟩⟩
    refine bind_eq_ok.2 ⟨_, h.deviceCount, bind_eq_ok.2 ⟨_, h.tableCapacity, ?_⟩⟩
    refine bind_eq_ok.2 ⟨_, h.queryCapacity, bind_eq_ok.2 ⟨_, h.gossipSeconds, ?_⟩⟩
    exact bind_eq_ok.2 ⟨_, h.skip, validate_eq_ok_iff.2 ⟨h.fit, rfl⟩⟩

/-- **What arguments change**: without any, nothing; else the first one is the host of the
    registry, as it is. -/
theorem of_withArguments (h : c.withArguments arguments = .ok c') :
    c'.Fit ∧ (arguments = [] → c' = c) ∧ ∀ host ∈ arguments.head?, c'.registry.host = host := by
  unfold withArguments at h
  split at h
  · obtain ⟨hfit, rfl⟩ := validate_eq_ok_iff.1 h
    exact ⟨hfit, fun _ => rfl, nofun⟩
  · obtain ⟨port, -, h⟩ := bind_eq_ok.1 h
    obtain ⟨devices, -, h⟩ := bind_eq_ok.1 h
    obtain ⟨capacity, -, h⟩ := bind_eq_ok.1 h
    obtain ⟨hfit, rfl⟩ := validate_eq_ok_iff.1 h
    exact ⟨hfit, nofun, fun host hhost => Option.some.inj hhost⟩
  · cases h

/-! ## The registry -/

/-- A host that stands in front of a port as it is. -/
def Hosted (host : String) : Prop :=
  host ≠ "" ∧ ∀ ch ∈ host.toList.head?, Text.isBlank ch = false

/-- **The registries that can be passed on** are all that variables give, and of those that
    arguments give the ones whose host is not empty and does not start with a blank. -/
theorem readable_iff_of_accepted
    (h : (ofVariables lookup >>= fun base => base.withArguments arguments) = .ok c) :
    c.registry.Readable ↔ ∀ host ∈ arguments.head?, Hosted host := by
  obtain ⟨base, hbase, h⟩ := bind_eq_ok.1 h
  obtain ⟨hfit, hnone, hsome⟩ := of_withArguments h
  cases arguments with
  | nil =>
    rw [hnone rfl]
    have hreadable := PeerAddress.readable_of_ofText? (ofVariables_eq_ok_iff.1 hbase).registry
    exact ⟨fun _ => nofun, fun _ => hreadable⟩
  | cons host rest =>
    have hhost : c.registry.host = host := hsome host rfl
    constructor
    · rintro hreadable _ ⟨⟩
      exact hhost ▸ ⟨hreadable.host_ne, hreadable.host_start⟩
    · intro hhosted
      obtain ⟨hne, hstart⟩ := hhosted host rfl
      exact ⟨hhost ▸ hne, hhost ▸ hstart, hfit.port_ne⟩

/-- The variables with another registry. -/
def withRegistry (lookup : String → Option String) (key : String) (name : String) : Option String :=
  if name = "CHORUS_REGISTRY_ADDR" then some key else lookup name

/-- A peer with a readable registry can be told of it by a variable. -/
theorem ofVariables_withRegistry (hbase : ofVariables lookup = .ok base) (ha : a.Readable) :
    ofVariables (withRegistry lookup a.key) = .ok { base with registry := a } := by
  have h := ofVariables_eq_ok_iff.1 hbase
  exact ofVariables_eq_ok_iff.2 ⟨h.listen, PeerAddress.ofText?_key ha, h.deviceCount,
    h.tableCapacity, h.queryCapacity, h.gossipSeconds, h.skip,
    ⟨ha.port_ne, h.fit.skip, h.fit.gossipSeconds_ne⟩⟩

/-- A message about readable addresses is found again behind its frame. -/
theorem read_write_message {m : Message} (hfits : m.Fits) (ha : ∀ a ∈ m.addresses, a.Readable)
    (hlength : m.encode.length ≤ Frame.maxLength) :
    ∃ bytes, Frame.write m.encode = .ok bytes ∧ ∀ rest, ∃ payload,
      Frame.read (bytes ++ rest) = .frame payload rest ∧ Message.decode payload = .ok m :=
  ⟨Frame.frame m.encode, if_neg (not_lt.2 hlength), fun rest =>
    ⟨m.encode, Frame.read_frame hlength rest, Message.decode_encode hfits ha⟩⟩

/-- **The registry of a peer** that was accepted has a port other than 0.  Its key is read as the
    same registry exactly if the argument for its host, where there is one, is not empty and does
    not start with a blank.  Then the key as a variable gives the same registry beside the other
    variables, and messages that name the registry, and no peer that cannot be read, come out of
    their frames as they were. -/
theorem registry_of_accepted
    (h : (ofVariables lookup >>= fun base => base.withArguments arguments) = .ok c) :
    c.registry.port ≠ 0 ∧
      (PeerAddress.ofText? c.registry.key = some c.registry ↔
        ∀ host ∈ arguments.head?, Hosted host) ∧
      ((∀ host ∈ arguments.head?, Hosted host) →
        c.registry.host ≠ "" ∧
        (∃ base, ofVariables lookup = .ok base ∧
          ofVariables (withRegistry lookup c.registry.key) =
            .ok { base with registry := c.registry }) ∧
        ∀ m : Message, m.Fits → (∀ a ∈ m.addresses, a = c.registry ∨ a.Readable) →
          m.encode.length ≤ Frame.maxLength →
          ∃ bytes, Frame.write m.encode = .ok bytes ∧ ∀ rest, ∃ payload,
            Frame.read (bytes ++ rest) = .frame payload rest ∧
              Message.decode payload = .ok m) := by
  have hreadable := readable_iff_of_accepted h
  obtain ⟨base, hbase, hc⟩ := bind_eq_ok.1 h
  refine ⟨(of_withArguments hc).1.port_ne, ?_, fun hhosted => ?_⟩
  · rw [← hreadable]
    exact ⟨PeerAddress.readable_of_ofText?, PeerAddress.ofText?_key⟩
  · have hregistry := hreadable.2 hhosted
    refine ⟨hregistry.host_ne, ⟨base, hbase, ofVariables_withRegistry hbase hregistry⟩, ?_⟩
    intro m hfits hm hlength
    refine read_write_message hfits (fun a ha => ?_) hlength
    rcases hm a ha with rfl | hreadable
    · exact hregistry
    · exact hreadable

/-- Arguments with a blank and a sign in front of the port: the registry that they name can be
    given in a variable and introduced in a frame. -/
theorem registry_of_accepted_coordinator :
    ∃ c, (ofVariables (fun _ => none) >>= fun base =>
        base.withArguments ["coordinator", " +9100", "0", "12"]) = .ok c ∧
      c.registry = ⟨"coordinator", 9100⟩ ∧
      PeerAddress.ofText? c.registry.key = some c.registry ∧
      (∃ base : PeerConfig, ofVariables (withRegistry (fun _ => none) c.registry.key) =
        .ok { base with registry := c.registry }) ∧
      ∃ bytes payload, Frame.write (Message.introduction c.registry).encode = .ok bytes ∧
        Frame.read (bytes ++ []) = .frame payload [] ∧
        Message.decode payload = .ok (.introduction c.registry) := by
  have h : (ofVariables (fun _ => none) >>= fun base =>
      base.withArguments ["coordinator", " +9100", "0", "12"]) =
        .ok ⟨⟨"127.0.0.1", 0⟩, ⟨"coordinator", 9100⟩, 0, 12, 40, 30,
          ({} : EngineSettings).skip⟩ := by
    decide +kernel
  have hhosted : ∀ host ∈ ["coordinator", " +9100", "0", "12"].head?, Hosted host := by
    rintro _ ⟨⟩
    exact ⟨by decide, by simp [Text.isBlank, Text.blankRanges]⟩
  obtain ⟨-, hread, hthen⟩ := registry_of_accepted h
  obtain ⟨-, ⟨base, -, hvariable⟩, hframe⟩ := hthen hhosted
  obtain ⟨bytes, hwrite, hbytes⟩ := hframe (.introduction ⟨"coordinator", 9100⟩)
    (by decide +kernel) (by decide +kernel) (by decide +kernel)
  obtain ⟨payload, hpayload, hdecode⟩ := hbytes []
  exact ⟨_, h, rfl, hread.2 hhosted, ⟨base, hvariable⟩, bytes, payload, hwrite, hpayload, hdecode⟩

/-- **Not every registry that is accepted can be passed on**: an empty argument is taken for its
    host, and its key is refused as an address. -/
theorem registry_of_accepted_hostless :
    ∃ c, (ofVariables (fun _ => none) >>= fun base =>
        base.withArguments ["", "9000", "1", "1"]) = .ok c ∧
      c.registry.host = "" ∧ PeerAddress.ofText? c.registry.key = none := by
  refine ⟨⟨⟨"127.0.0.1", 0⟩, ⟨"", 9000⟩, 1, 1, 40, 30, ({} : EngineSettings).skip⟩, ?_, rfl, ?_⟩
  · decide +kernel
  · decide +kernel

end OverlayCensus.PeerConfig
