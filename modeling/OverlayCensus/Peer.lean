/-
  OverlayCensus — a peer.

  A peer registers, waits for the devices and neighbours that the registry assigns,
  links to the neighbours it has to dial, and from then on answers and forwards
  queries.

  * `start` is a new peer, `receive` handles one message; both yield the peer and
    what there is to do on the network;
  * `execute` answers an operator's command, `gossip` is a round of gossip.
-/
import OverlayCensus.Command
import OverlayCensus.Config
import OverlayCensus.Device.Inventory
import OverlayCensus.Links

namespace OverlayCensus

/-- The metrics of an inventory. -/
def Inventory.metrics (i : Inventory) : Metrics :=
  ⟨i.deviceCount, i.metricCount, i.metricNames⟩

/-- The state of a peer. -/
structure Peer where
  engine : Engine
  inventory : Inventory
  registry : PeerAddress
  links : Links

namespace Peer

/-- The name of a peer. -/
def identity (p : Peer) : PeerAddress :=
  p.engine.identity

/-- The neighbours, in order. -/
def neighbors (p : Peer) : List PeerAddress :=
  p.links.neighbors.toList

/-- Whether the peer has stopped. -/
def isStopped (p : Peer) : Bool :=
  p.links.closed

/-- The inventory that a configuration asks for. -/
def drawInventory (c : PeerConfig) (d : Draws) : Inventory × Draws :=
  if c.deviceCount = 0 then Inventory.random d else Inventory.withTotal c.deviceCount d

/-- A new peer, which registers.  The gossip tables stay empty until devices are
    assigned. -/
def start (identity : PeerAddress) (c : PeerConfig) (d : Draws) : Peer × List Outgoing :=
  let (inventory, d) := drawInventory c d
  let peer : Peer :=
    ⟨.new identity inventory.metrics c.engineSettings d, inventory, c.registry, .empty⟩
  (peer, [.send c.registry (.register identity inventory.render)])

/-- Tells both gossip tables to all neighbours. -/
def gossip (p : Peer) : List Outgoing :=
  p.links.transmit (p.engine.broadcast p.neighbors)

/-- Adopts devices, and enters their metrics into the gossip tables. -/
def adopt (p : Peer) (i : Inventory) : Peer :=
  { p with inventory := i, engine := ({ p.engine with metrics := i.metrics } : Engine).seed }

/-- Adds a neighbour. -/
def link (p : Peer) (q : PeerAddress) : Peer :=
  { p with links := (p.links.link q).2 }

/-- Adopts the assigned devices, links to the assigned neighbours and tells them
    both gossip tables.  A device string that is none leaves the devices as they
    are. -/
def initiateConnections (p : Peer) (assigned : List PeerAddress) (devices : String) :
    Peer × List Outgoing :=
  let p := match Inventory.ofText? devices with
    | some i => p.adopt i
    | none => p
  let p := assigned.foldl link p
  (p, p.links.unlessClosed (assigned.map .dial) ++ p.gossip)

/-- Stops sending. -/
def stop (p : Peer) : Peer :=
  { p with links := { p.links with closed := true } }

/-- Handles one message.  An introduction makes a neighbour of everyone but the
    registry and the peer itself; a message that is not for peers is ignored. -/
def receive (p : Peer) (pick : Nat) (m : Message) : Peer × List Outgoing :=
  match m with
  | .initiateConnections assigned devices => p.initiateConnections assigned devices
  | .introduction q =>
    if q = p.registry ∨ q = p.identity then (p, [])
    else
      let p := p.link q
      (p, p.gossip)
  | .listPeersRequest =>
    (p, p.links.unlessClosed [.send p.registry (.listPeersResponse p.identity p.neighbors)])
  | .shutdown => (p.stop, [])
  | m =>
    match p.engine.handle p.neighbors pick m with
    | some (engine, sent) => ({ p with engine := engine }, p.links.transmit sent)
    | none => (p, [])

/-! ## Commands -/

/-- A line under a heading. -/
def item (text : String) : String :=
  "\n  " ++ text

/-- The answer to a command. -/
def execute (p : Peer) : PeerCommand → String
  | .neighbors =>
    Decimal.render p.neighbors.length ++ " neighbours" ++
      String.join (p.neighbors.map fun q => item q.key)
  | .devices =>
    Decimal.render p.inventory.deviceCount ++ " devices (" ++ p.inventory.render ++ ")" ++
      String.join (p.inventory.present.map fun e => item (e.1.name ++ " x" ++ Decimal.render e.2))
  | .gossipTables =>
    let distances := p.engine.distances.entries.map fun e =>
      item (e.name ++ " distance " ++ Decimal.render e.distance.toNat ++ " via " ++
        String.intercalate ", " (e.holders.toList.map PeerAddress.key))
    let locations := p.engine.locations.entries.map fun l =>
      item (l.name ++ " at " ++ l.holder.key)
    "distances:" ++ String.join distances ++ "\nlocations:" ++ String.join locations
  | .help => peerHelp

end Peer

end OverlayCensus
