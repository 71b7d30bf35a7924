/-
  OverlayCensus — the configuration of the registry and of peers.

  Settings come from named variables, each with a default, and positional arguments
  override some of them.

  * `RegistryConfig.ofVariables` and `PeerConfig.ofVariables` read the variables,
    `withArguments` applies arguments;
  * `PeerConfig.validate` holds for every configuration that either returns;
  * `ConfigError` are the causes of refusal.
-/
import OverlayCensus.CoreInstances
import OverlayCensus.Engine
import OverlayCensus.PeerAddress

namespace OverlayCensus

attribute [local instance] corePow

/-- Why a configuration is refused. -/
inductive ConfigError where
  | invalidListenAddress (text : String)
  | invalidRegistryAddress (cause : InvalidAddress)
  /-- The value of a variable or argument, blanks included. -/
  | invalidValue (name value : String)
  | registryUsage
  | peerUsage
  | registryPortZero
  | skipOutOfRange (skip : Binary64)
  | gossipIntervalZero
deriving DecidableEq

/-- The wording of a refused configuration. -/
def ConfigError.message (e : ConfigError) : String :=
  "Configuration error: " ++ match e with
    | invalidListenAddress s => "invalid listen address: " ++ s
    | invalidRegistryAddress cause => "CHORUS_REGISTRY_ADDR: " ++ cause.message
    | invalidValue name value => "invalid " ++ name ++ ": " ++ value
    | registryUsage => "usage: chorus-registry [port]"
    | peerUsage =>
      "usage: chorus-peer [<registry-host> <registry-port> <device-count> <cache-size>]"
    | registryPortZero => "registry port must be non-zero"
    | skipOutOfRange p => "skip probability " ++ p.render ++ " is outside 0..=1"
    | gossipIntervalZero => "gossip interval must be non-zero"

/-! ## Values -/

/-- A 16-bit number. -/
def readPortNumber (s : String) : Option UInt16 :=
  (Decimal.readNat (2 ^ (16 : Nat)) s.toList).map Nat.toUInt16

/-- A 64-bit number. -/
def readSize (s : String) : Option Nat :=
  Decimal.readNat (2 ^ (64 : Nat)) s.toList

/-- The value of a text, blanks allowed at its ends. -/
def readValue {α : Type} (read : String → Option α) (name value : String) :
    Except ConfigError α :=
  match read (Text.trim value) with
  | some a => .ok a
  | none => .error (.invalidValue name value)

/-- The value of a variable, or its default. -/
def readVariable {α : Type} (lookup : String → Option String) (read : String → Option α)
    (name : String) (default : α) : Except ConfigError α :=
  match lookup name with
  | some value => readValue read name value
  | none => .ok default

/-- A host and a port to listen on.  Port 0 asks for any free one. -/
structure ListenAddress where
  host : String
  port : UInt16
deriving DecidableEq, Repr

/-- Reads a host and a port. -/
def ListenAddress.parse (s : String) : Except ConfigError ListenAddress :=
  match Text.splitLast ':' (Text.trimChars s.toList) with
  | some (c :: host, port) =>
    match Decimal.readNat (2 ^ (16 : Nat)) port with
    | some p => .ok ⟨String.ofList (c :: host), p.toUInt16⟩
    | none => .error (.invalidListenAddress s)
  | _ => .error (.invalidListenAddress s)

/-- Where the registry listens by default. -/
def defaultRegistryAddress : String := "127.0.0.1:9000"

/-- Where a peer listens by default. -/
def defaultPeerListenAddress : String := "127.0.0.1:0"

/-! ## The registry -/

/-- The configuration of the registry. -/
structure RegistryConfig where
  listen : ListenAddress := ⟨"127.0.0.1", 9000⟩
deriving DecidableEq, Repr

namespace RegistryConfig

/-- The configuration that variables give. -/
def ofVariables (lookup : String → Option String) : Except ConfigError RegistryConfig := do
  let listen ← ListenAddress.parse ((lookup "CHORUS_LISTEN_ADDR").getD defaultRegistryAddress)
  return ⟨listen⟩

/-- Applies the arguments: none, or a port. -/
def withArguments (c : RegistryConfig) : List String → Except ConfigError RegistryConfig
  | [] => .ok c
  | [port] => do
    let port ← readValue readPortNumber "port" port
    return ⟨{ c.listen with port := port }⟩
  | _ => .error .registryUsage

end RegistryConfig

/-! ## Peers -/

/-- The configuration of a peer. -/
structure PeerConfig where
  listen : ListenAddress
  registry : PeerAddress
  /-- The number of devices; 0 draws one. -/
  deviceCount : Nat
  /-- The capacity of each gossip table. -/
  tableCapacity : Nat
  /-- The capacity of the query log. -/
  queryCapacity : Nat
  /-- The seconds between rounds of gossip. -/
  gossipSeconds : Nat
  /-- The probability of skipping a location that would push out another. -/
  skip : Binary64
deriving DecidableEq

namespace PeerConfig

/-- Refuses a configuration that a peer cannot run with. -/
def validate (c : PeerConfig) : Except ConfigError PeerConfig :=
  if c.registry.port = 0 then .error .registryPortZero
  else if !c.skip.isProbability then .error (.skipOutOfRange c.skip)
  else if c.gossipSeconds = 0 then .error .gossipIntervalZero
  else .ok c

/-- The configuration that variables give. -/
def ofVariables (lookup : String → Option String) : Except ConfigError PeerConfig := do
  let standard : EngineSettings := {}
  let listen ← ListenAddress.parse ((lookup "CHORUS_LISTEN_ADDR").getD defaultPeerListenAddress)
  let registry ←
    match PeerAddress.parse ((lookup "CHORUS_REGISTRY_ADDR").getD defaultRegistryAddress) with
    | .ok a => .ok a
    | .error cause => .error (.invalidRegistryAddress cause)
  let deviceCount ← readVariable lookup readSize "CHORUS_DEVICE_COUNT" 0
  let tableCapacity ← readVariable lookup readSize "CHORUS_CACHE_SIZE" standard.tableCapacity
  let queryCapacity ←
    readVariable lookup readSize "CHORUS_QUERY_CACHE_SIZE" standard.queryCapacity
  let gossipSeconds ← readVariable lookup readSize "CHORUS_GOSSIP_INTERVAL_SECS" 30
  let skip ← readVariable lookup Binary64.ofText? "CHORUS_SKIP_PROBABILITY" standard.skip
  validate ⟨listen, registry, deviceCount, tableCapacity, queryCapacity, gossipSeconds, skip⟩

/-- Applies the arguments: none, or the host and port of the registry, a device
    count and a table capacity. -/
def withArguments (c : PeerConfig) : List String → Except ConfigError PeerConfig
  | [] => c.validate
  | [host, port, devices, capacity] => do
    let port ← readValue readPortNumber "registry-port" port
    let devices ← readValue readSize "device-count" devices
    let capacity ← readValue readSize "cache-size" capacity
    validate
      { c with registry := ⟨host, port⟩, deviceCount := devices, tableCapacity := capacity }
  | _ => .error .peerUsage

/-- The sizes of the engine's tables. -/
def engineSettings (c : PeerConfig) : EngineSettings :=
  ⟨c.queryCapacity, c.tableCapacity, c.skip⟩

end PeerConfig

end OverlayCensus
