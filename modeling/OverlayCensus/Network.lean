/-
  OverlayCensus — a network of engines.

  A network is a registry, engines with their neighbours, and the messages in
  flight.  A step delivers one message: the registry adds it to its results, an
  engine handles it and what it sends is put in flight, and a message to anyone
  else is lost.

  * `deliver` is the step for any message in flight and any random pick;
  * `run` delivers the messages first in, first out, each as its bytes read back;
  * `inject` starts a query, `exchange` makes every peer tell its tables.
-/
import OverlayCensus.Engine
import OverlayCensus.Message.Wire
import OverlayCensus.Results

namespace OverlayCensus

/-- Why a peer cannot handle what it received. -/
inductive HandlingError where
  | wire (error : WireError)
  | notPropagation (tag : MessageTag)
deriving DecidableEq, Repr

/-- The wording of a refused message. -/
def HandlingError.message : HandlingError → String
  | wire e => "wire error: " ++ e.message
  | notPropagation tag => tag.name ++ " is not a propagation message"

/-- An engine and the peers it is linked to. -/
structure Node where
  engine : Engine
  neighbors : List PeerAddress

/-- A message under way. -/
structure Envelope where
  receiver : PeerAddress
  message : Message
deriving DecidableEq, Repr

/-- The envelope of something to be sent. -/
def Parcel.envelope (p : Parcel) : Envelope := ⟨p.receiver, p.message⟩

/-- A registry, engines, and the messages in flight, the first sent in front. -/
structure Network where
  registry : PeerAddress
  nodes : List Node
  flight : List Envelope
  results : Results

namespace Network

/-! ## Nodes -/

/-- The node of a peer. -/
def node? (net : Network) (p : PeerAddress) : Option Node :=
  net.nodes.find? fun n => n.engine.identity = p

/-- Nodes with a change made to the one of a peer. -/
def changeNode (p : PeerAddress) (f : Node → Node) (nodes : List Node) : List Node :=
  nodes.map fun n => if n.engine.identity = p then f n else n

/-- Gives a peer another engine. -/
def setEngine (net : Network) (p : PeerAddress) (engine : Engine) : Network :=
  { net with nodes := changeNode p (fun n => { n with engine := engine }) net.nodes }

/-- Makes `b` a neighbour of `a`. -/
def linkTo (net : Network) (a b : PeerAddress) : Network :=
  { net with
    nodes := changeNode a (fun n => { n with neighbors := n.neighbors ++ [b] }) net.nodes }

/-- Makes two peers neighbours of each other. -/
def link (net : Network) (a b : PeerAddress) : Network :=
  (net.linkTo a b).linkTo b a

/-- Puts messages in flight behind all others. -/
def send (net : Network) (sent : List Parcel) : Network :=
  { net with flight := net.flight ++ sent.map Parcel.envelope }

/-! ## Steps -/

/-- A network after a step, and whether the step used its random pick. -/
structure Stepped where
  network : Network
  picked : Bool

/-- Hands a message that is no longer in flight to its addressee. -/
def receive (net : Network) (pick now : Nat) (m : Envelope) : Except HandlingError Stepped :=
  if m.receiver = net.registry then
    .ok ⟨{ net with results := (net.results.observeMessage m.message now).2 }, false⟩
  else
    match net.node? m.receiver with
    | none => .ok ⟨net, false⟩
    | some n =>
      match n.engine.handle n.neighbors pick m.message with
      | none => .error (.notPropagation m.message.tag)
      | some (engine, sent) =>
        .ok ⟨(net.setEngine m.receiver engine).send sent, Engine.usesPick sent⟩

/-- Delivers the message at a position among those in flight. -/
def deliver (net : Network) (i pick now : Nat) : Except HandlingError Stepped :=
  match net.flight[i]? with
  | none => .ok ⟨net, false⟩
  | some m => ({ net with flight := net.flight.eraseIdx i } : Network).receive pick now m

/-- Starts a query at a peer, or sends any other message to it.  The registry opens
    results for a query. -/
def inject (net : Network) (entry : PeerAddress) (m : Message) (now : Nat) : Network :=
  let results := match m with
    | .query kind q => net.results.track q.id kind q.limit now
    | _ => net.results
  { net with results := results, flight := net.flight ++ [⟨entry, m⟩] }

/-- Makes every peer, in the order of addresses, tell its tables to its
    neighbours. -/
def exchange (net : Network) : Network :=
  let ordered := net.nodes.mergeSort fun a b => !b.engine.identity.before a.engine.identity
  net.send (ordered.flatMap fun n => n.engine.broadcast n.neighbors)

/-! ## Runs -/

/-- What a run of deliveries leaves behind. -/
structure Run where
  network : Network
  draws : Draws
  /-- The delivered messages, the first one first. -/
  delivered : List Envelope
  /-- The refusal that ended the run, if one did. -/
  refusal : Option HandlingError

/-- Delivers the message in front until none is in flight, at most `max` of them.
    A delivered message is what its bytes read back as. -/
def run (net : Network) (now : Nat) : Nat → Draws → Run
  | 0, d => ⟨net, d, [], none⟩
  | max + 1, d =>
    match net.flight with
    | [] => ⟨net, d, [], none⟩
    | m :: rest =>
      let left : Network := { net with flight := rest }
      match Message.decode m.message.encode with
      | .error e => ⟨left, d, [], some (.wire e)⟩
      | .ok message =>
        let (word, later) := d.next
        match left.receive word.toNat now { m with message := message } with
        | .error e => ⟨left, d, [], some e⟩
        | .ok step =>
          let after := run step.network now max (if step.picked then later else d)
          { after with delivered := { m with message := message } :: after.delivered }

end Network

end OverlayCensus
