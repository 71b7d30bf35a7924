/-
  OverlayCensus — the registry.

  Peers register here.  The registry builds an overlay over them or imports one,
  hands every peer its neighbours, starts queries at random peers and collects what
  comes back.

  * `receive` handles one message, `execute` a command;
  * what a command needs from outside is its `Occasion`: the time, random draws, a
    fresh id and the files it can read and write; `executeOn` takes these from a store;
  * the `Outcome` of a command is the registry after it, its answer or refusal, and
    what there is to do on the network and to files.
-/
import OverlayCensus.Command
import OverlayCensus.Device.Inventory
import OverlayCensus.Links
import OverlayCensus.Overlay.Builder
import OverlayCensus.Overlay.File
import OverlayCensus.Storage

namespace OverlayCensus

/-- A peer that has registered, with its devices. -/
structure Registration where
  identity : PeerAddress
  inventory : Inventory
deriving DecidableEq, Repr

/-- How far the latest check of the overlay has come. -/
structure OverlayCheck where
  expected : Nat
  responses : Nat
  /-- The responses that agree with the overlay. -/
  successes : Nat
deriving DecidableEq, Repr

/-- Why a command is refused. -/
inductive RegistryError where
  | overlay (error : OverlayError)
  | overlayFile (fault : StorageFault)
  /-- A record of the overlay file cannot be read or written. -/
  | overlayRecord (fault : StorageFault)
  | resultsFile (fault : StorageFault)
  /-- A record of the results file cannot be written. -/
  | resultsRecord (fault : StorageFault)
  | noOverlay
  | noPeers
deriving DecidableEq, Repr

/-- The wording of a refused command. -/
def RegistryError.message : RegistryError → String
  | overlay e => "Topology error: " ++ e.message
  | overlayFile f => "Topology error: IO error: " ++ f.message
  | overlayRecord f => "Topology error: csv error: " ++ f.message
  | resultsFile f => "Protocol error: IO error: " ++ f.message
  | resultsRecord f => "Protocol error: csv error: " ++ f.message
  | noOverlay => "Command error: no overlay; run buildoverlay or importoverlay first"
  | noPeers => "Command error: no registered peers"

/-- The state of the registry. -/
structure Registry where
  identity : PeerAddress
  /-- In the order in which they registered. -/
  peers : List Registration
  overlay : Option Overlay
  check : OverlayCheck
  results : Results
  stopped : Bool

/-- What a command needs from outside. -/
structure Occasion where
  /-- The time in milliseconds. -/
  now : Nat
  draws : Draws
  /-- An id that no query has had. -/
  id : Uuid
  read : String → Except StorageFault (List UInt8)
  /-- What prevents writing a file, if anything does. -/
  obstacle : String → Option StorageFault

/-- What comes of a command. -/
structure Outcome where
  registry : Registry
  answer : Except RegistryError String
  outgoing : List Outgoing
  /-- Files to write, with their contents. -/
  written : List (String × String)

namespace Registry

/-- A new registry. -/
def start (identity : PeerAddress) : Registry :=
  ⟨identity, [], none, ⟨0, 0, 0⟩, .empty, false⟩

/-! ## Messages -/

/-- Adds a peer; tells whether it was accepted.  Refused are the registry's own
    address, a device string that is none, and a peer that has registered. -/
def register (r : Registry) (identity : PeerAddress) (devices : String) : Bool × Registry :=
  if identity = r.identity then (false, r)
  else
    match Inventory.ofText? devices with
    | none => (false, r)
    | some inventory =>
      if r.peers.any fun p => p.identity = identity then (false, r)
      else (true, { r with peers := r.peers ++ [⟨identity, inventory⟩] })

/-- Compares a peer's report of its neighbours with the overlay.  A report without
    an overlay, or from a peer outside it, does not count. -/
def recordCheck (r : Registry) (peer : PeerAddress) (reported : List PeerAddress) : Registry :=
  match r.overlay with
  | none => r
  | some o =>
    match o.neighbors peer with
    | .error _ => r
    | .ok expected =>
      let agrees := PeerSet.ofList (expected.map Prod.fst) = PeerSet.ofList reported
      { r with check :=
        { r.check with
          responses := r.check.responses + 1
          successes := if agrees then r.check.successes + 1 else r.check.successes } }

/-- Handles one message. -/
def receive (r : Registry) (m : Message) (now : Nat) : Registry :=
  match m with
  | .register identity devices => (r.register identity devices).2
  | .listPeersResponse peer neighbors => r.recordCheck peer neighbors
  | m => { r with results := (r.results.observeMessage m now).2 }

/-! ## Commands -/

/-- An answer that leaves the registry as it is. -/
def say (r : Registry) (text : String) : Outcome :=
  ⟨r, .ok text, [], []⟩

/-- A refusal, which leaves the registry as it is. -/
def refuse (r : Registry) (e : RegistryError) : Outcome :=
  ⟨r, .error e, [], []⟩

/-- What there is to send, unless the registry has stopped. -/
def unlessStopped (r : Registry) (out : List Outgoing) : List Outgoing :=
  if r.stopped then [] else out

/-- The size of an overlay, in words. -/
def sizeText (o : Overlay) : String :=
  Decimal.render o.size ++ " vertices, " ++ Decimal.render o.edgeCount ++ " edges"

/-- The registered peers with their device counts. -/
def counted (r : Registry) : List (PeerAddress × UInt32) :=
  r.peers.map fun p => (p.identity, p.inventory.deviceCount.toUInt32)

/-- Builds an overlay over the registered peers. -/
def buildOverlay (r : Registry) (band : DegreeBand) (d : Draws) : Outcome :=
  match Overlay.build {} r.counted band d with
  | .ok (o, _) => { r with overlay := some o }.say ("Built overlay: " ++ sizeText o)
  | .error e => r.refuse (.overlay e)

/-- Reads an overlay from a file and puts the registered peers at its vertices.  A
    directory opens like a file, and only its reading fails. -/
def importOverlay (r : Registry) (file : Except StorageFault (List UInt8)) : Outcome :=
  match file with
  | .error .isDirectory => r.refuse (.overlayRecord .isDirectory)
  | .error f => r.refuse (.overlayFile f)
  | .ok bytes =>
    match Overlay.ofFile bytes with
    | .error e => r.refuse (.overlay e)
    | .ok read =>
      match read.retarget (r.peers.map Registration.identity) with
      | .error e => r.refuse (.overlay e)
      | .ok o => { r with overlay := some o }.say ("Imported overlay: " ++ sizeText o)

/-- Whether a fault comes up while the records of a text are written, and not when its
    file is opened or closed.  A lone block is written when all records are done, but of
    several the first one is written before that, and finds no space. -/
def strikesRecord (text : String) (fault : StorageFault) : Bool :=
  fault = .noSpace && Storage.block < text.utf8ByteSize

/-- Writes the overlay to a file. -/
def exportOverlay (r : Registry) (path : String) (obstacle : Option StorageFault) : Outcome :=
  match r.overlay with
  | none => r.refuse .noOverlay
  | some o =>
    match obstacle with
    | some f =>
      r.refuse (if strikesRecord o.toFile f then .overlayRecord f else .overlayFile f)
    | none => { r.say ("Overlay written to " ++ path) with written := [(path, o.toFile)] }

/-- The inventory that a vertex is assigned: the one that its peer registered, if
    that has as many devices as the vertex, or else a drawn one. -/
def assigned (r : Registry) (v : Vertex) (d : Draws) : Inventory × Draws :=
  match r.peers.find? fun p => p.identity = v.peer with
  | some p =>
    if p.inventory.deviceCount = v.devices.toNat then (p.inventory, d)
    else Inventory.withTotal v.devices.toNat d
  | none => Inventory.withTotal v.devices.toNat d

/-- The messages that tell vertices whom to dial, and the refusal that ends them if
    one does. -/
def connectionLists (r : Registry) (o : Overlay) :
    List Vertex → Draws → List Outgoing × Option OverlayError
  | [], _ => ([], none)
  | v :: vs, d =>
    match o.initiationList v.peer with
    | .error e => ([], some e)
    | .ok neighbors =>
      let (inventory, d) := r.assigned v d
      let (rest, refusal) := connectionLists r o vs d
      (.send v.peer (.initiateConnections neighbors inventory.render) :: rest, refusal)

/-- Tells every peer whom to dial and which devices it has. -/
def connectPeers (r : Registry) (d : Draws) : Outcome :=
  match r.overlay with
  | none => r.refuse .noOverlay
  | some o =>
    let (out, refusal) := r.connectionLists o o.vertices.toList d
    let outcome := match refusal with
      | none => r.say ("Sent connection lists to " ++ Decimal.render o.size ++ " peers")
      | some e => r.refuse (.overlay e)
    { outcome with outgoing := r.unlessStopped out }

/-- Starts a check: asks every peer of the overlay for its neighbours. -/
def checkPeers (r : Registry) : Outcome :=
  match r.overlay with
  | none => r.refuse .noOverlay
  | some o =>
    let text := "Requested neighbour lists from " ++ Decimal.render o.size ++ " peers"
    let requests := o.vertices.toList.map fun v => Outgoing.send v.peer .listPeersRequest
    { { r with check := ⟨o.size, 0, 0⟩ }.say text with outgoing := r.unlessStopped requests }

/-- Starts a query at a random peer: the peer, the registry and what to send. -/
def inject (r : Registry) (kind : QueryKind) (metric : String) (limit : Int32) (now : Nat)
    (d : Draws) (id : Uuid) : Option (PeerAddress × Registry × List Outgoing) :=
  match r.peers[(d.below r.peers.length).1]? with
  | none => none
  | some entry =>
    let r := { r with results := r.results.track id kind limit now }
    let message := Message.query kind (.fresh id r.identity metric limit)
    some (entry.identity, r, r.unlessStopped [.send entry.identity message])

/-- Starts a query, and says where. -/
def startQuery (r : Registry) (kind : QueryKind) (metric : String) (limit : Int32) (now : Nat)
    (d : Draws) (id : Uuid) : Outcome :=
  match r.inject kind metric limit now d id with
  | none => r.refuse .noPeers
  | some (entry, r, out) =>
    let text := "Started " ++ kind.label ++ " query " ++ id.render ++ " at " ++ entry.key
    { r.say text with outgoing := out }

/-- Writes the results to a file. -/
def exportResults (r : Registry) (path : String) (obstacle : Option StorageFault) : Outcome :=
  match obstacle with
  | some f =>
    r.refuse (if strikesRecord r.results.toCsv f then .resultsRecord f else .resultsFile f)
  | none =>
    let text := Decimal.render r.results.size ++ " results written to " ++ path
    { r.say text with written := [(path, r.results.toCsv)] }

/-- Stops sending. -/
def stop (r : Registry) : Registry :=
  { r with stopped := true }

/-- Stops every peer, and the registry. -/
def shutdown (r : Registry) : Outcome :=
  let text := "Shutdown sent to " ++ Decimal.render r.peers.length ++ " peers"
  let out := r.peers.map fun p => Outgoing.send p.identity .shutdown
  { r.stop.say text with outgoing := r.unlessStopped out }

/-- The registered peers, one a line. -/
def listing (r : Registry) : String :=
  Decimal.render r.peers.length ++ " registered peers" ++
    String.join (r.peers.map fun p =>
      "\n  " ++ p.identity.key ++ " (" ++ Decimal.render p.inventory.deviceCount ++ " devices)")

/-- Carries out a command. -/
def execute (r : Registry) (occasion : Occasion) : RegistryCommand → Outcome
  | .listPeers => r.say r.listing
  | .buildOverlay min max => r.buildOverlay ⟨min, max⟩ occasion.draws
  | .exportOverlay path => r.exportOverlay path (occasion.obstacle path)
  | .importOverlay path => r.importOverlay (occasion.read path)
  | .connectPeers => r.connectPeers occasion.draws
  | .checkPeers => r.checkPeers
  | .query kind metric limit =>
    r.startQuery kind metric limit occasion.now occasion.draws occasion.id
  | .printResults => r.say r.results.toJson
  | .exportResults path => r.exportResults path (occasion.obstacle path)
  | .clearResults => { r with results := .empty }.say "Results cleared"
  | .shutdown => r.shutdown
  | .help => r.say registryHelp

/-- Carries out a command that finds its files in a store, and the store after it. -/
def executeOn (r : Registry) (files : Storage) (now : Nat) (d : Draws) (id : Uuid)
    (c : RegistryCommand) : Outcome × Storage :=
  let outcome := r.execute ⟨now, d, id, files.read, files.obstacle⟩ c
  (outcome, outcome.written.foldl (fun files f => files.write f.1 (Utf8.encode f.2)) files)

end Registry

end OverlayCensus
