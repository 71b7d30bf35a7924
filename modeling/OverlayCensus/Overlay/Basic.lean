/-
  OverlayCensus — the overlay: peers, links between them, and a degree band.

  Vertices are listed in the order of their ids, and a link names its far end by
  position in that list.  Links are undirected: each is stored at both ends with
  the same cost.

  * `ofVertices?` is an overlay without links, `connect` adds one link, `verify`
    checks the degree band;
  * `find?`, `neighbors` and `initiationList` answer questions about a peer,
    `edges` lists every link once, the lower id first;
  * `OverlayError` are the causes of refusal, `OverlayError.message` their wording.
-/
import OverlayCensus.CoreInstances
import OverlayCensus.PeerAddress
import OverlayCensus.Overlay.Error

namespace OverlayCensus

attribute [local instance] coreZero

/-- One end of a link as its other end sees it: a position and a cost. -/
structure Link where
  target : Nat
  cost : UInt32
deriving DecidableEq, Repr

/-- A peer in the overlay. -/
structure Vertex where
  id : Nat
  peer : PeerAddress
  devices : UInt32
  /-- Links in the order in which they were added. -/
  links : List Link
deriving DecidableEq, Repr

namespace Vertex

/-- The number of links. -/
def degree (v : Vertex) : Nat :=
  v.links.length

/-- The cost of the link to position `b`, if there is one. -/
def costTo? (v : Vertex) (b : Nat) : Option UInt32 :=
  (v.links.find? fun l => l.target = b).map Link.cost

/-- The sum of the costs of all links. -/
def costSum (v : Vertex) : Nat :=
  (v.links.map fun l => l.cost.toNat).sum

/-- The vertex with a link to position `b` added behind its others. -/
def addLink (v : Vertex) (b : Nat) (cost : UInt32) : Vertex :=
  { v with links := v.links ++ [⟨b, cost⟩] }

end Vertex

/-- A vertex without its links: what an edge list says of an end. -/
structure EdgeEnd where
  id : Nat
  peer : PeerAddress
  devices : UInt32
deriving DecidableEq, Repr

/-- The end that a vertex is to its links. -/
def Vertex.toEnd (v : Vertex) : EdgeEnd := ⟨v.id, v.peer, v.devices⟩

/-- The vertex of an end, without links. -/
def EdgeEnd.isolated (e : EdgeEnd) : Vertex := ⟨e.id, e.peer, e.devices, []⟩

/-- A detached edge.  An edge without a second end contributes its vertex but no
    link. -/
structure Edge where
  first : EdgeEnd
  second : Option EdgeEnd
  cost : UInt32
deriving DecidableEq, Repr

/-- Vertices, and the band in which every degree has to lie. -/
structure Overlay where
  band : DegreeBand
  vertices : Array Vertex
deriving DecidableEq, Repr

namespace Overlay

/-! ## Construction -/

/-- The overlay without vertices. -/
def empty (band : DegreeBand) : Overlay := ⟨band, #[]⟩

/-- The overlay of the given vertices without any link, refused if a peer is
    given twice. -/
def ofVertices? (band : DegreeBand) (ends : List EdgeEnd) : Except OverlayError Overlay :=
  match PeerAddress.firstRepeat (ends.map EdgeEnd.peer) with
  | some p => .error (.invalidRequest (.repeatedPeer p))
  | none => .ok ⟨band, (ends.map EdgeEnd.isolated).toArray⟩

/-- The number of vertices. -/
def size (o : Overlay) : Nat :=
  o.vertices.size

/-- The id of the vertex at a position. -/
def idAt (o : Overlay) (i : Nat) : Nat :=
  match o.vertices[i]? with
  | some v => v.id
  | none => i

/-- The links of the vertex at a position. -/
def linksAt (o : Overlay) (i : Nat) : List Link :=
  match o.vertices[i]? with
  | some v => v.links
  | none => []

/-- The degree of the vertex at a position. -/
def degreeAt (o : Overlay) (i : Nat) : Nat :=
  (o.linksAt i).length

/-- The cost of the link from one position to another, if there is one. -/
def costTo? (o : Overlay) (a b : Nat) : Option UInt32 :=
  o.vertices[a]?.bind fun v => v.costTo? b

/-- Whether two positions are linked, as seen from either. -/
def isConnected (o : Overlay) (a b : Nat) : Bool :=
  (o.costTo? a b).isSome || (o.costTo? b a).isSome

/-- Links two positions.  A vertex has no link to itself and at most one to
    another. -/
def connect (o : Overlay) (a b : Nat) (cost : UInt32) : Except OverlayError Overlay :=
  if a = b then .error (.selfLoop (o.idAt a))
  else if o.isConnected a b then .error (.alreadyConnected (o.idAt a) (o.idAt b))
  else
    let vertices := o.vertices.modify a fun v => v.addLink b cost
    .ok { o with vertices := vertices.modify b fun v => v.addLink a cost }

/-- Links several pairs of positions in order, up to the first refusal. -/
def connectAll (o : Overlay) : List (Nat × Nat × UInt32) → Except OverlayError Overlay
  | [] => .ok o
  | (a, b, cost) :: rest =>
    match o.connect a b cost with
    | .ok o => o.connectAll rest
    | .error e => .error e

/-- Refuses an overlay some degree of which lies outside the band, naming the
    first such vertex. -/
def verify (o : Overlay) : Except OverlayError Unit :=
  match o.vertices.find? fun v => !o.band.admits v.degree with
  | some v => .error (.degreeViolation v.id v.degree o.band)
  | none => .ok ()

/-! ## Questions -/

/-- The position of a peer. -/
def find? (o : Overlay) (p : PeerAddress) : Option Nat :=
  o.vertices.findIdx? fun v => v.peer = p

/-- The vertex of a peer. -/
def vertexOf (o : Overlay) (p : PeerAddress) : Except OverlayError Vertex :=
  match o.vertices.find? fun v => v.peer = p with
  | some v => .ok v
  | none => .error (.unknownPeer p)

/-- The far ends of a vertex's links. -/
def neighborVertices (o : Overlay) (v : Vertex) : List (Vertex × UInt32) :=
  v.links.filterMap fun l => o.vertices[l.target]?.map fun w => (w, l.cost)

/-- All neighbours of a peer with the costs of their links. -/
def neighbors (o : Overlay) (p : PeerAddress) : Except OverlayError (List (PeerAddress × UInt32)) :=
  match o.vertexOf p with
  | .ok v => .ok ((o.neighborVertices v).map fun n => (n.1.peer, n.2))
  | .error e => .error e

/-- The neighbours that a peer dials: those with a higher id.  Of the two ends of
    a link exactly one has the other on its list. -/
def initiationList (o : Overlay) (p : PeerAddress) : Except OverlayError (List PeerAddress) :=
  match o.vertexOf p with
  | .ok v => .ok (((o.neighborVertices v).filter fun n => v.id < n.1.id).map fun n => n.1.peer)
  | .error e => .error e

/-- Every link once, the end with the lower id first. -/
def edges (o : Overlay) : List Edge :=
  o.vertices.toList.flatMap fun v =>
    ((o.neighborVertices v).filter fun n => v.id < n.1.id).map fun n =>
      ⟨v.toEnd, some n.1.toEnd, n.2⟩

/-- The number of links. -/
def edgeCount (o : Overlay) : Nat :=
  (o.vertices.toList.map Vertex.degree).sum / 2

end Overlay

end OverlayCensus
