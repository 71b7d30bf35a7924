/-
  OverlayCensus — the links of a peer, and what goes out over them.

  A peer sends to its overlay neighbours over lasting connections and to anyone
  else over one for a single message.  Nothing is sent here: `Outgoing` is what is
  left to be done on the network, and once the links are closed that is nothing.
-/
import OverlayCensus.Engine
import OverlayCensus.PeerSet

namespace OverlayCensus

/-- Something to be done on the network. -/
inductive Outgoing where
  /-- Send over the lasting connection to a peer; it is opened if there is none. -/
  | send (peer : PeerAddress) (message : Message)
  /-- Send over the lasting connection to a peer, or else over one of its own. -/
  | sendOnce (peer : PeerAddress) (message : Message)
  /-- Open the lasting connection to a peer, if there is none. -/
  | dial (peer : PeerAddress)
deriving DecidableEq, Repr

/-- The neighbours of a peer, and whether it has stopped sending. -/
structure Links where
  neighbors : PeerSet
  closed : Bool
deriving DecidableEq

namespace Links

/-- No neighbours yet. -/
def empty : Links := ⟨.empty, false⟩

/-- Adds a neighbour; tells whether it is new. -/
def link (l : Links) (p : PeerAddress) : Bool × Links :=
  (p ∉ l.neighbors, { l with neighbors := l.neighbors.insert p })

/-- Whether a peer is a neighbour. -/
def isLinked (l : Links) (p : PeerAddress) : Bool :=
  p ∈ l.neighbors

/-- What there is to do, unless the links are closed. -/
def unlessClosed (l : Links) (out : List Outgoing) : List Outgoing :=
  if l.closed then [] else out

/-- How a message goes out.  Only one to a peer by name can leave the overlay. -/
def outgoing (l : Links) (p : Parcel) : Outgoing :=
  if p.route = .direct ∧ !l.isLinked p.receiver then .sendOnce p.receiver p.message
  else .send p.receiver p.message

/-- How messages go out. -/
def transmit (l : Links) (sent : List Parcel) : List Outgoing :=
  l.unlessClosed (sent.map l.outgoing)

end Links

end OverlayCensus
