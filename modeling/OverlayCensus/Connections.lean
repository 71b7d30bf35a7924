/-
  OverlayCensus — the connections of a registry or a peer.

  A lasting connection is found by the address of its far end.  Whoever opens one
  introduces itself first, so that both ends find it in the same way; one that is
  opened for a single message stays unknown.

  * `perform` does what there is to be done on the network: it reuses the connection
    to a peer or opens one;
  * `accept`, `arrive` and `lose` are what happens to connections: one is opened from
    outside, a frame comes in, one ends or cannot be opened;
  * each of them tells the `NetworkAct`s that follow from it.
-/
import OverlayCensus.Links
import OverlayCensus.Message.Wire

namespace OverlayCensus

/-- What is left to be done with connections, which are numbered. -/
inductive NetworkAct where
  /-- Open a connection to a peer. -/
  | dial (line : Nat) (peer : PeerAddress)
  | write (line : Nat) (message : Message)
  /-- Open a connection for one message, and close it after that. -/
  | single (peer : PeerAddress) (message : Message)
  /-- Handle a message, and the peer at the far end if that is known. -/
  | deliver (sender : Option PeerAddress) (message : Message)
  | hangUp (line : Nat)
deriving DecidableEq, Repr

/-- Connections, of which some lead to known peers. -/
structure Connections where
  /-- The address under which connections are introduced. -/
  identity : PeerAddress
  /-- The connections in use, with their far ends as far as those are known. -/
  lines : List (Nat × Option PeerAddress)
  /-- The connection over which a peer is reached. -/
  routes : List (PeerAddress × Nat)
  /-- The number of the next connection. -/
  next : Nat
  closed : Bool
deriving DecidableEq, Repr

namespace Connections

/-- No connections yet. -/
def start (identity : PeerAddress) : Connections :=
  ⟨identity, [], [], 0, false⟩

/-! ## Looking -/

/-- The connection over which a peer is reached. -/
def route? (c : Connections) (p : PeerAddress) : Option Nat :=
  c.routes.lookup p

/-- Whether a peer is reached over a connection. -/
def isConnected (c : Connections) (p : PeerAddress) : Bool :=
  (c.route? p).isSome

/-- The peers that are reached over a connection, in order. -/
def peers (c : Connections) : List PeerAddress :=
  (PeerSet.ofList (c.routes.map Prod.fst)).toList

/-- The far end of a connection, if it is known. -/
def remote? (c : Connections) (line : Nat) : Option PeerAddress :=
  (c.lines.lookup line).join

/-! ## Sending -/

/-- Makes a peer reachable: opens a connection if there is none, and introduces
    itself on it. -/
def connect (c : Connections) (p : PeerAddress) : Connections × List NetworkAct :=
  if c.closed || c.isConnected p then (c, [])
  else
    ({ c with
        lines := (c.next, some p) :: c.lines
        routes := (p, c.next) :: c.routes
        next := c.next + 1 },
      [.dial c.next p, .write c.next (.introduction c.identity)])

/-- Sends over the lasting connection to a peer. -/
def send (c : Connections) (p : PeerAddress) (m : Message) : Connections × List NetworkAct :=
  if c.closed then (c, [])
  else
    let (c, acts) := c.connect p
    (c, acts ++ (c.route? p).toList.map fun line => .write line m)

/-- Sends over the lasting connection to a peer, or else over one of its own. -/
def sendOnce (c : Connections) (p : PeerAddress) (m : Message) : Connections × List NetworkAct :=
  if c.closed then (c, [])
  else
    match c.route? p with
    | some line => (c, [.write line m])
    | none => (c, [.single p m])

/-- Does what there is to be done on the network. -/
def perform (c : Connections) : Outgoing → Connections × List NetworkAct
  | .send p m => c.send p m
  | .sendOnce p m => c.sendOnce p m
  | .dial p => c.connect p

/-- Does several things in order. -/
def performAll (c : Connections) : List Outgoing → Connections × List NetworkAct
  | [] => (c, [])
  | o :: os =>
    let (c, acts) := c.perform o
    let (c, later) := c.performAll os
    (c, acts ++ later)

/-! ## Events -/

/-- A connection is opened from outside. -/
def accept (c : Connections) : Nat × Connections :=
  (c.next, { c with lines := (c.next, none) :: c.lines, next := c.next + 1 })

/-- A connection ends, or cannot be opened. -/
def lose (c : Connections) (line : Nat) : Connections :=
  { c with
    lines := c.lines.filter fun l => l.1 ≠ line
    routes := c.routes.filter fun r => r.2 ≠ line }

/-- The far end of a connection introduces itself.  From now on the peer is reached
    over this connection. -/
def introduce (c : Connections) (line : Nat) (p : PeerAddress) : Connections :=
  { c with
    lines := c.lines.map fun l => if l.1 = line then (line, some p) else l
    routes := (p, line) :: c.routes.filter fun r => r.1 ≠ p }

/-- A frame comes in.  One that holds no message ends its connection.  The first
    introduction on a connection with an unknown far end makes it known. -/
def arrive (c : Connections) (line : Nat) (payload : List UInt8) :
    Connections × List NetworkAct :=
  match Message.decode payload with
  | .error _ => (c.lose line, [.hangUp line])
  | .ok m =>
    let c := match m, c.remote? line with
      | .introduction p, none => c.introduce line p
      | _, _ => c
    (c, [.deliver (c.remote? line) m])

/-- Ends all connections, and sends nothing any more.  Connections opened from
    outside after that work. -/
def close (c : Connections) : Connections × List NetworkAct :=
  ({ c with lines := [], routes := [], closed := true }, c.lines.map fun l => .hangUp l.1)

end Connections

end OverlayCensus
