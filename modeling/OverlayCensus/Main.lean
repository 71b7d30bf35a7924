/-
  OverlayCensus — the operator's console.

  `registry [port]` runs a registry, and `peer [<registry-host> <registry-port>
  <device-count> <cache-size>]` a peer; both read their settings from the environment
  first.  Every line that is read is a command, and its answer is written.

  Connections are kept by whoever runs the console.  A line `< HEX` brings a message,
  a line `> HOST:PORT HEX` says that one is to be sent, and a line `> HOST:PORT` that a
  connection is to be opened.
-/
import OverlayCensus.Message.Wire
import OverlayCensus.Peer
import OverlayCensus.Registry

namespace OverlayCensus.Console

/-! ## Surroundings -/

/-- The values of named variables. -/
def environment (names : List String) : IO (String → Option String) := do
  let values ← names.mapM fun name => do return (name, ← IO.getEnv name)
  return fun name => (values.lookup name).join

/-- Random draws that no other call of this has given. -/
def freshDraws : IO Draws := do
  let bytes ← IO.getRandomBytes 8
  return .ofSeed (bytes.foldl (fun seed b => seed * 256 + b.toUInt64) 0)

/-- An identifier that is random but for the six bits that say so. -/
def freshId : IO Uuid := do
  let bytes := (← IO.getRandomBytes 16).toList
  let marked := bytes.mapIdx fun i b =>
    if i = 6 then b &&& 0x0F ||| 0x40 else if i = 8 then b &&& 0x3F ||| 0x80 else b
  return .ofBytes marked

/-- Why a file could not be used. -/
def storageFault : IO.Error → StorageFault
  | .noFileOrDirectory .. => .notFound
  | .permissionDenied .. => .permissionDenied
  | .inappropriateType _ 20 _ => .notDirectory
  | .inappropriateType .. => .isDirectory
  | .resourceExhausted _ 28 _ => .noSpace
  | .invalidArgument _ 36 _ => .nameTooLong
  | e => .other e.toString

/-- The bytes of a file. -/
def readFile (path : String) : IO (Except StorageFault (List UInt8)) := do
  try
    return .ok (← IO.FS.readBinFile path).toList
  catch e => return .error (storageFault e)

/-- What prevents writing a file, if anything does. -/
def obstacle (path : String) : IO (Option StorageFault) := do
  try
    let _ ← IO.FS.Handle.mk path .append
    return none
  catch e => return some (storageFault e)

/-- What a command needs from outside.  Only the file that it names is looked at. -/
def occasion (r : Registry) (c : RegistryCommand) : IO Occasion := do
  let file ← match c with
    | .importOverlay path => readFile path
    | _ => pure (.error .notFound)
  let prevented ← match c with
    | .exportOverlay path => if r.overlay.isSome then obstacle path else pure none
    | .exportResults path => obstacle path
    | _ => pure none
  return {
    now := ← IO.monoMsNow
    draws := ← freshDraws
    id := ← freshId
    read := fun _ => file
    obstacle := fun _ => prevented }

/-- Carries out a command and writes its files.  If that fails, the failure is what the
    command finds in its way. -/
def carryOut (r : Registry) (c : RegistryCommand) : IO Outcome := do
  let surroundings ← occasion r c
  let outcome := r.execute surroundings c
  try
    for (path, text) in outcome.written do
      let file ← IO.FS.Handle.mk path .write
      file.putStr text
      file.flush
    return outcome
  catch e =>
    let fault := storageFault e
    return r.execute { surroundings with obstacle := fun _ => some fault } c

/-! ## Lines -/

/-- The line for something to be done on the network. -/
def outgoingLine : Outgoing → String
  | .send peer m | .sendOnce peer m =>
    "> " ++ peer.key ++ " " ++ String.ofList (Hex.renderBytes m.encode)
  | .dial peer => "> " ++ peer.key

/-- The bytes that a line brings, if it brings any. -/
def arrived? (line : String) : Option (List UInt8) :=
  match Text.trimChars line.toList with
  | '<' :: digits => Hex.readBytes? (Text.trimChars digits)
  | _ => none

/-- What an operator talks to. -/
structure Party (σ : Type) where
  receive : σ → Message → IO (σ × List Outgoing)
  /-- Carries out the command on a line: what there is to say, and to send. -/
  obey : σ → String → IO (σ × String × List Outgoing)
  stopped : σ → Bool

/-- A registry. -/
def registryParty : Party Registry where
  receive r m := do return (r.receive m (← IO.monoMsNow), [])
  obey r line := do
    match RegistryCommand.ofText line with
    | .error e => return (r, e.message, [])
    | .ok c =>
      let outcome ← carryOut r c
      match outcome.answer with
      | .ok text => return (outcome.registry, text, outcome.outgoing)
      | .error e => return (outcome.registry, e.message, outcome.outgoing)
  stopped r := r.stopped

/-- A peer. -/
def peerParty : Party Peer where
  receive p m := do return p.receive ((← freshDraws).next.1.toNat) m
  obey p line := do
    match PeerCommand.ofText line with
    | .error e => return (p, e.message, [])
    | .ok c => return (p, p.execute c, [])
  stopped p := p.isStopped

/-- Handles a line: a message, a command, or nothing at all. -/
def handleLine {σ : Type} (party : Party σ) (s : σ) (line : String) : IO σ := do
  match arrived? line with
  | some bytes =>
    match Message.decode bytes with
    | .error e =>
      IO.println e.message
      return s
    | .ok m =>
      let (s, out) ← party.receive s m
      out.forM fun o => IO.println (outgoingLine o)
      return s
  | none =>
    if (Text.trim line).isEmpty then return s
    let (s, text, out) ← party.obey s line
    IO.println text
    out.forM fun o => IO.println (outgoingLine o)
    return s

/-- Handles lines until they end or the party has stopped. -/
partial def serve {σ : Type} (party : Party σ) (s : σ) : IO Unit := do
  if party.stopped s then return
  let line ← (← IO.getStdin).getLine
  if line.isEmpty then return
  serve party (← handleLine party s line)

/-! ## Programs -/

/-- A configuration, or the end of the program. -/
def configured {α : Type} : Except ConfigError α → IO α
  | .ok c => pure c
  | .error e => throw (IO.userError e.message)

/-- Runs a registry. -/
def runRegistry (args : List String) : IO Unit := do
  let base ← configured (RegistryConfig.ofVariables (← environment ["CHORUS_LISTEN_ADDR"]))
  let config ← configured (base.withArguments args)
  let identity : PeerAddress := ⟨config.listen.host, config.listen.port⟩
  IO.println ("Registry at " ++ identity.key ++ ", type 'help' for commands")
  serve registryParty (.start identity)

/-- Runs a peer. -/
def runPeer (args : List String) : IO Unit := do
  let names :=
    ["CHORUS_LISTEN_ADDR", "CHORUS_REGISTRY_ADDR", "CHORUS_DEVICE_COUNT", "CHORUS_CACHE_SIZE",
     "CHORUS_QUERY_CACHE_SIZE", "CHORUS_GOSSIP_INTERVAL_SECS", "CHORUS_SKIP_PROBABILITY"]
  let base ← configured (PeerConfig.ofVariables (← environment names))
  let config ← configured (base.withArguments args)
  let (peer, out) := Peer.start ⟨config.listen.host, config.listen.port⟩ config (← freshDraws)
  out.forM fun o => IO.println (outgoingLine o)
  serve peerParty peer

end OverlayCensus.Console

/-- Runs the party that the first argument names. -/
def main : List String → IO UInt32
  | "registry" :: args => do
    OverlayCensus.Console.runRegistry args
    return 0
  | "peer" :: args => do
    OverlayCensus.Console.runPeer args
    return 0
  | _ => do
    IO.eprintln "usage: overlaycensus registry|peer [argument...]"
    return 1
