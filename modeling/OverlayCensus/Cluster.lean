/-
  OverlayCensus — a registry and its peers over their connections.

  A cluster is a registry and its peers, each with connections of its own, and the
  messages in flight.  Whoever opens a connection introduces itself on it, so the first
  message to a peer puts an introduction in flight beside itself.  Messages arrive in any
  order.

  * `Connections.post` does what there is to be done on the network, and yields what is
    in flight because of it; `Connections.greet` is what an arrival does to connections;
  * `Station.receive` is a peer that handles a message, `Station.gossip` a round of its
    gossip;
  * `deliver`, `gossip` and `execute` are the steps of a cluster: a message arrives, a
    peer gossips, the operator gives the registry a command.
-/
import OverlayCensus.Connections
import OverlayCensus.Network
import OverlayCensus.Peer
import OverlayCensus.Registry

namespace OverlayCensus

namespace Connections

/-- The message that an act puts in flight. -/
def envelope? (c : Connections) : NetworkAct → Option Envelope
  | .write line m => (c.remote? line).map fun p => ⟨p, m⟩
  | .single p m => some ⟨p, m⟩
  | .dial .. | .deliver .. | .hangUp _ => none

/-- Does several things in order; yields the messages in flight because of them. -/
def post (c : Connections) : List Outgoing → Connections × List Envelope
  | [] => (c, [])
  | o :: os =>
    let (c, acts) := c.perform o
    let (later, sent) := c.post os
    (later, acts.filterMap c.envelope? ++ sent)

/-- A message comes in.  An introduction comes over a connection that was opened for
    it, and makes its far end known. -/
def greet (c : Connections) : Message → Connections
  | .introduction p =>
    let (line, c) := c.accept
    c.introduce line p
  | _ => c

end Connections

/-- A peer and its connections. -/
structure Station where
  peer : Peer
  connections : Connections

namespace Station

/-- Handles one message, unless the peer has stopped.  Once it stops its connections
    end. -/
def receive (s : Station) (pick : Nat) (m : Message) : Station × List Envelope :=
  if s.peer.isStopped then (s, [])
  else
    let (peer, out) := s.peer.receive pick m
    let (c, sent) := (s.connections.greet m).post out
    (⟨peer, if peer.isStopped then c.close.1 else c⟩, sent)

/-- Tells both gossip tables to all neighbours. -/
def gossip (s : Station) : Station × List Envelope :=
  let (c, sent) := s.connections.post s.peer.gossip
  ({ s with connections := c }, sent)

end Station

/-- A registry and its peers, and the messages in flight, the first sent in front. -/
structure Cluster where
  registry : Registry
  /-- The connections of the registry. -/
  connections : Connections
  stations : List Station
  flight : List Envelope

namespace Cluster

/-- The station of a peer. -/
def station? (net : Cluster) (p : PeerAddress) : Option Station :=
  net.stations.find? fun s => s.peer.identity = p

/-- Replaces the station of a peer, and puts what it sends in flight. -/
def update (net : Cluster) (p : PeerAddress) (r : Station × List Envelope) : Cluster :=
  { net with
    stations := net.stations.map fun s => if s.peer.identity = p then r.1 else s
    flight := net.flight ++ r.2 }

/-- Hands a message that is no longer in flight to its addressee.  What comes to a
    registry that has stopped, or to nobody, is lost. -/
def receive (net : Cluster) (pick now : Nat) (m : Envelope) : Cluster :=
  if m.receiver = net.registry.identity then
    if net.registry.stopped then net
    else
      { net with
        registry := net.registry.receive m.message now
        connections := net.connections.greet m.message }
  else
    match net.station? m.receiver with
    | some s => net.update m.receiver (s.receive pick m.message)
    | none => net

/-- Delivers the message at a position among those in flight. -/
def deliver (net : Cluster) (i pick now : Nat) : Cluster :=
  match net.flight[i]? with
  | some m => ({ net with flight := net.flight.eraseIdx i } : Cluster).receive pick now m
  | none => net

/-- A round of gossip of one peer. -/
def gossip (net : Cluster) (p : PeerAddress) : Cluster :=
  match net.station? p with
  | some s => net.update p s.gossip
  | none => net

/-- Carries out a command at the registry.  Once it stops its connections end. -/
def execute (net : Cluster) (occasion : Occasion) (c : RegistryCommand) : Cluster :=
  let outcome := net.registry.execute occasion c
  let (connections, sent) := net.connections.post outcome.outgoing
  { net with
    registry := outcome.registry
    connections := if outcome.registry.stopped then connections.close.1 else connections
    flight := net.flight ++ sent }

end Cluster

end OverlayCensus
