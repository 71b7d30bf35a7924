/-
  OverlayCensus — overlays from edge lists, and onto other peers.

  * `ofEdges` builds the overlay that an edge list describes: one vertex per id,
    in increasing order of ids, and one link per edge with two ends;
  * `retarget` puts other peers at the vertices of an overlay and keeps ids,
    device counts, links and costs.
-/
import OverlayCensus.Overlay.Basic

namespace OverlayCensus.Overlay

/-! ## Edge lists -/

/-- The ends of an edge, the first one first. -/
def edgeEnds (e : Edge) : List EdgeEnd :=
  e.first :: e.second.toList

/-- All ends of an edge list in increasing order of ids, ends of one id in the
    order of the list. -/
def sortedEnds (es : List Edge) : List EdgeEnd :=
  (es.flatMap edgeEnds).mergeSort fun a b => a.id ≤ b.id

/-- The first two ends next to each other that describe one id differently. -/
def conflict? : List EdgeEnd → Option InvalidRequest
  | a :: b :: rest =>
    if a.id = b.id ∧ a ≠ b then some (.conflict a.id a.peer a.devices b.peer b.devices)
    else conflict? (b :: rest)
  | _ => none

/-- The first of each run of ends with one id. -/
def oncePerId : List EdgeEnd → List EdgeEnd
  | a :: b :: rest =>
    if a.id = b.id then
      match oncePerId (b :: rest) with
      | _ :: others => a :: others
      | [] => [a]
    else a :: oncePerId (b :: rest)
  | ends => ends

/-- The position of the vertex with an id. -/
def positionOf (o : Overlay) (id : Nat) : Nat :=
  o.vertices.findIdx fun v => v.id = id

/-- The pairs of positions that the edges with two ends join, with their costs. -/
def joins (o : Overlay) (es : List Edge) : List (Nat × Nat × UInt32) :=
  es.filterMap fun e =>
    e.second.map fun s => (o.positionOf e.first.id, o.positionOf s.id, e.cost)

/-- The overlay of an edge list.  Refused are two descriptions of one id, one peer
    at two ids, a link of a vertex to itself, two links between the same vertices
    and a degree outside the band, in this order. -/
def ofEdges (band : DegreeBand) (es : List Edge) : Except OverlayError Overlay :=
  let ends := sortedEnds es
  match conflict? ends with
  | some reason => .error (.invalidRequest reason)
  | none => do
    let bare ← ofVertices? band (oncePerId ends)
    let linked ← bare.connectAll (bare.joins es)
    linked.verify
    return linked

/-! ## Other peers -/

/-- The links of an overlay by position, each once, from its lower position. -/
def linksUpward (o : Overlay) : List (Nat × Nat × UInt32) :=
  o.vertices.toList.zipIdx.flatMap fun v =>
    (v.1.links.filter fun l => v.2 < l.target).map fun l => (v.2, l.target, l.cost)

/-- The overlay with the peers of a list at its vertices, in order. -/
def retarget (o : Overlay) (peers : List PeerAddress) : Except OverlayError Overlay :=
  if peers.length = o.size then do
    let ends := (o.vertices.toList.zip peers).map fun v => ⟨v.1.id, v.2, v.1.devices⟩
    let bare ← ofVertices? o.band ends
    let linked ← bare.connectAll o.linksUpward
    linked.verify
    return linked
  else .error (.sizeMismatch o.size peers.length)

end OverlayCensus.Overlay
