/-
  OverlayCensus — overlays with an index of their peers.

  An overlay that finds a peer without a search: an index beside the vertices holds the
  position of every peer.  Vertices are added one by one and links are made in place, and
  each of the two keeps its own part up to date.

  * `addVertex` adds a vertex and indexes its peer, `connect` makes a link at both of its
    ends; it may be refused, and tells so beside the arena as it is then;
  * `ofEdges`, `ofFile`, `retarget` and `build` are made of these two.
-/
import Std.Data.HashMap
import OverlayCensus.Overlay.Builder
import OverlayCensus.Overlay.File

namespace OverlayCensus

/-- An overlay with an index. -/
structure Arena where
  overlay : Overlay
  /-- The position of every peer. -/
  index : Std.HashMap PeerAddress Nat

namespace Arena

/-- The arena without vertices. -/
def empty (band : DegreeBand) : Arena :=
  ⟨.empty band, ∅⟩

/-- The position of a peer. -/
def find? (m : Arena) (p : PeerAddress) : Option Nat :=
  m.index[p]?

/-! ## Vertices -/

/-- Adds a vertex without links behind the others, unless its peer has one. -/
def addVertex (m : Arena) (e : EdgeEnd) : Except OverlayError Arena :=
  if m.index.contains e.peer then .error (.invalidRequest (.repeatedPeer e.peer))
  else
    .ok { overlay := { m.overlay with vertices := m.overlay.vertices.push e.isolated }
          index := m.index.insert e.peer m.overlay.size }

/-- Adds vertices in order, up to the first refusal. -/
def addVertices (m : Arena) : List EdgeEnd → Except OverlayError Arena
  | [] => .ok m
  | e :: rest =>
    match m.addVertex e with
    | .ok m => m.addVertices rest
    | .error e => .error e

/-! ## Links -/

/-- The arena with a link added at one end. -/
def addLink (m : Arena) (a b : Nat) (cost : UInt32) : Arena :=
  { m with overlay.vertices := m.overlay.vertices.modify a fun v => v.addLink b cost }

/-- Links two positions in place; tells whether it was refused. -/
def connect (m : Arena) (a b : Nat) (cost : UInt32) : Except OverlayError Unit × Arena :=
  if a = b then (.error (.selfLoop (m.overlay.idAt a)), m)
  else if m.overlay.isConnected a b then
    (.error (.alreadyConnected (m.overlay.idAt a) (m.overlay.idAt b)), m)
  else (.ok (), (m.addLink a b cost).addLink b a cost)

/-- Links several pairs of positions in order, up to the first refusal. -/
def connectAll (m : Arena) : List (Nat × Nat × UInt32) → Except OverlayError Arena
  | [] => .ok m
  | (a, b, cost) :: rest =>
    match m.connect a b cost with
    | (.ok (), m) => m.connectAll rest
    | (.error e, _) => .error e

/-! ## Constructions -/

/-- The arena of vertices and of links between them, which depend on the positions of the
    vertices, if all degrees lie in the band. -/
def assemble (band : DegreeBand) (ends : List EdgeEnd)
    (links : Overlay → List (Nat × Nat × UInt32)) : Except OverlayError Arena := do
  let bare ← (empty band).addVertices ends
  let linked ← bare.connectAll (links bare.overlay)
  linked.overlay.verify
  return linked

/-- The arena of an edge list. -/
def ofEdges (band : DegreeBand) (es : List Edge) : Except OverlayError Arena :=
  let ends := Overlay.sortedEnds es
  match Overlay.conflict? ends with
  | some reason => .error (.invalidRequest reason)
  | none => assemble band (Overlay.oncePerId ends) fun bare => bare.joins es

/-- The arena of a file's bytes. -/
def ofFile (bytes : List UInt8) : Except OverlayError Arena :=
  match Csv.rawRecords bytes with
  | [] => .error (.malformed 1 .noHeader)
  | header :: rows => do
    let record ← Overlay.readRecord 0 header
    let band ← Overlay.readBand record
    let edges ← Overlay.readEdges 1 rows
    ofEdges band edges

/-- The arena with the peers of a list at its vertices, in order. -/
def retarget (m : Arena) (peers : List PeerAddress) : Except OverlayError Arena :=
  if peers.length = m.overlay.size then
    assemble m.overlay.band
      ((m.overlay.vertices.toList.zip peers).map fun v => ⟨v.1.id, v.2, v.1.devices⟩)
      fun _ => m.overlay.linksUpward
  else .error (.sizeMismatch m.overlay.size peers.length)

/-- An arena over peers with known device counts, and the draws that are left.  Attempts make
    links only, so they work on the vertices and leave the index as it is. -/
def build (settings : BuildSettings) (peers : List (PeerAddress × UInt32)) (band : DegreeBand)
    (d : Draws) : Except OverlayError (Arena × Draws) :=
  match Overlay.validate peers.length band with
  | .error reason => .error (.invalidRequest reason)
  | .ok () =>
    if settings.maxAttempts = 0 then .error (.constructionFailed 0)
    else
      match (empty band).addVertices (Overlay.numbered peers) with
      | .ok bare =>
        match Overlay.attempts settings bare.overlay settings.maxAttempts d with
        | .ok (o, d) => .ok ({ bare with overlay := o }, d)
        | .error e => .error e
      | .error e => .error e

/-- An arena over peers with drawn device counts. -/
def buildOver (settings : BuildSettings) (peers : List PeerAddress) (band : DegreeBand)
    (d : Draws) : Except OverlayError (Arena × Draws) :=
  let (counted, d) := Overlay.drawDevices settings.devices peers d
  build settings counted band d

/-- An arena over made-up peers. -/
def buildSynthetic (settings : BuildSettings) (count : Nat) (band : DegreeBand) (d : Draws) :
    Except OverlayError (Arena × Draws) :=
  buildOver settings (Overlay.syntheticPeers count) band d

end Arena

end OverlayCensus
