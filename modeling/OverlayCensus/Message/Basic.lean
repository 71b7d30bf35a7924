/-
  OverlayCensus — what peers and the registry send to one another.

  * `Query` is one hop of a query: who asks, for which metric, how far it has come
    and may go, and the devices counted so far; `QueryKind` says how it travels;
  * `Message` is everything that is sent: queries, gossip about distances and
    locations, and the messages that build and take down an overlay.
-/
import OverlayCensus.PeerAddress
import OverlayCensus.Saturating
import OverlayCensus.Uuid

namespace OverlayCensus

/-- How a query travels. -/
inductive QueryKind where
  /-- To all neighbours. -/
  | flood
  /-- To one neighbour drawn at random. -/
  | randomWalk
  /-- Toward neighbours on a short way to the metric. -/
  | gossipDistance
  /-- To the peers known to hold the metric. -/
  | gossipLocation
deriving DecidableEq, Repr, Inhabited

/-- One hop of a query. -/
structure Query where
  id : Uuid
  /-- The peer that sends this hop. -/
  sender : PeerAddress
  /-- Where results go. -/
  originator : PeerAddress
  metric : String
  hop : Int32
  /-- A flood with the limit `unlimited` goes everywhere. -/
  limit : Int32
  /-- The devices counted so far. -/
  checked : Int32
  /-- Those of them that have the metric. -/
  matched : Int32
deriving DecidableEq, Repr

namespace Query

/-- The hop limit that means none; only floods honour it. -/
def unlimited : Int32 := -1

/-- A query that has not travelled yet. -/
def fresh (id : Uuid) (originator : PeerAddress) (metric : String) (limit : Int32) : Query :=
  ⟨id, originator, originator, metric, 0, limit, 0, 0⟩

/-- The next hop of a query, with the given totals. -/
def nextHop (q : Query) (sender : PeerAddress) (checked matched : Int32) : Query :=
  { q with
    sender := sender
    hop := Int32.satAdd q.hop 1
    checked := checked
    matched := matched }

/-- Whether the hop after this one may travel further. -/
def mayForward (q : Query) : Bool :=
  Int32.satAdd q.hop 1 < q.limit

end Query

/-- Everything that is sent. -/
inductive Message where
  | query (kind : QueryKind) (query : Query)
  /-- The distances that a peer advertises. -/
  | distances (sender : PeerAddress) (entries : List (String × UInt32))
  /-- The locations that a peer advertises. -/
  | locations (sender : PeerAddress) (entries : List (PeerAddress × String))
  /-- The first message on a connection: who opened it. -/
  | introduction (identity : PeerAddress)
  /-- A peer joins, with the devices of its inventory. -/
  | register (identity : PeerAddress) (devices : String)
  /-- The registry tells a peer whom to connect to, and its devices. -/
  | initiateConnections (neighbors : List PeerAddress) (devices : String)
  | shutdown
  | listPeersRequest
  | listPeersResponse (peer : PeerAddress) (neighbors : List PeerAddress)
deriving DecidableEq, Repr

/-- The kinds of messages, in the order of their numbers on the wire. -/
inductive MessageTag where
  | flood
  | randomWalk
  | gossipData
  | gossipEntries
  | gossipQuery
  | introduction
  | register
  | initiateConnections
  | shutdown
  | listPeersRequest
  | listPeersResponse
deriving DecidableEq, Repr

namespace MessageTag

/-- All kinds; the number of a kind is its position. -/
def all : List MessageTag :=
  [flood, randomWalk, gossipData, gossipEntries, gossipQuery, introduction, register,
   initiateConnections, shutdown, listPeersRequest, listPeersResponse]

/-- The number of a kind. -/
def code : MessageTag → UInt8
  | flood => 0
  | randomWalk => 1
  | gossipData => 2
  | gossipEntries => 3
  | gossipQuery => 4
  | introduction => 5
  | register => 6
  | initiateConnections => 7
  | shutdown => 8
  | listPeersRequest => 9
  | listPeersResponse => 10

/-- The kind with a number. -/
def ofCode? (n : UInt8) : Option MessageTag :=
  all[n.toNat]?

theorem ofCode?_code (t : MessageTag) : ofCode? t.code = some t := by
  cases t <;> rfl

/-- The name of a kind. -/
def name : MessageTag → String
  | flood => "Flood"
  | randomWalk => "RandomWalk"
  | gossipData => "GossipData"
  | gossipEntries => "GossipEntries"
  | gossipQuery => "GossipQuery"
  | introduction => "Introduction"
  | register => "Register"
  | initiateConnections => "InitiateConnections"
  | shutdown => "Shutdown"
  | listPeersRequest => "ListPeersRequest"
  | listPeersResponse => "ListPeersResponse"

end MessageTag

/-- The tag under which a query of a kind travels. -/
def QueryKind.tag : QueryKind → MessageTag
  | flood => .flood
  | randomWalk => .randomWalk
  | gossipDistance | gossipLocation => .gossipQuery

/-- The kind of a message. -/
def Message.tag : Message → MessageTag
  | query kind _ => kind.tag
  | distances .. => .gossipData
  | locations .. => .gossipEntries
  | introduction _ => .introduction
  | register .. => .register
  | initiateConnections .. => .initiateConnections
  | shutdown => .shutdown
  | listPeersRequest => .listPeersRequest
  | listPeersResponse .. => .listPeersResponse

end OverlayCensus
