/-
  OverlayCensus — random construction of overlays.

  An attempt lays a ring through the vertices in the order of their ids, which
  makes the overlay hang together, and then raises every vertex to the minimum
  degree by random links that push no far end past the maximum.  An attempt that
  leaves some vertex short is thrown away, and the next one starts again from the
  bare vertices with the draws that are left.

  * `validate` refuses requests that no overlay can satisfy;
  * `build` works over peers whose device counts are known, `buildOver` draws the
    counts first, `buildSynthetic` makes up the peers too.
-/
import OverlayCensus.Draws
import OverlayCensus.Overlay.Basic

namespace OverlayCensus

/-- A closed range of 32-bit numbers to draw from. -/
structure DrawRange where
  lo : UInt32
  hi : UInt32
deriving DecidableEq, Repr

/-- The settings of a construction. -/
structure BuildSettings where
  /-- Attempts before giving up. -/
  maxAttempts : Nat := 1000
  costs : DrawRange := ⟨1, 10⟩
  devices : DrawRange := ⟨3, 30⟩
deriving DecidableEq, Repr

namespace Overlay

/-- Refuses a degree band that no overlay of `count` vertices can satisfy: it has
    to start above zero and not to be empty, every vertex needs enough others for
    the maximum, more than two vertices only hang together with a maximum of two,
    and with an odd sum of minimum degrees no overlay is regular. -/
def validate (count : Nat) (band : DegreeBand) : Except InvalidRequest Unit :=
  if band.min < 1 then .error .minimumZero
  else if band.max < band.min then .error (.emptyBand band)
  else if count ≤ band.max then .error (.tooFewVertices band.max count)
  else if 2 < count ∧ band.max < 2 then .error (.disconnected count band.max)
  else if band.min * count % 2 ≠ 0 then .error (.oddDegreeSum band.min count)
  else .ok ()

/-! ## One attempt -/

/-- The pairs of neighbouring positions on a ring of `n`.  Two positions have one
    pair only. -/
def ringPairs (n : Nat) : List (Nat × Nat) :=
  (List.range (n - 1)).map (fun i => (i, i + 1)) ++ if 2 < n then [(n - 1, 0)] else []

/-- Links pairs of positions in order, at drawn costs. -/
def connectPairs (costs : DrawRange) :
    List (Nat × Nat) → Overlay → Draws → Except OverlayError (Overlay × Draws)
  | [], o, d => .ok (o, d)
  | (a, b) :: rest, o, d =>
    let (cost, d) := d.between costs.lo costs.hi
    match o.connect a b cost with
    | .ok o => connectPairs costs rest o d
    | .error e => .error e

/-- Links the vertex at `source` to drawn others until it has the minimum degree,
    with at most `tries` draws.  A draw is wasted on the vertex itself, on one that
    is linked to it already and on one that has the maximum degree. -/
def raiseVertex (costs : DrawRange) (source : Nat) :
    Nat → Overlay → Draws → Except OverlayError (Overlay × Draws)
  | 0, o, d => .ok (o, d)
  | tries + 1, o, d =>
    if o.degreeAt source < o.band.min then
      let (target, d) := d.below o.size
      if target = source ∨ o.isConnected source target ∨ o.band.max ≤ o.degreeAt target then
        raiseVertex costs source tries o d
      else
        let (cost, d) := d.between costs.lo costs.hi
        match o.connect source target cost with
        | .ok o => raiseVertex costs source tries o d
        | .error e => .error e
    else .ok (o, d)

/-- Raises the vertices at the given positions in order, each with the same number
    of tries. -/
def raiseAll (costs : DrawRange) (tries : Nat) :
    List Nat → Overlay → Draws → Except OverlayError (Overlay × Draws)
  | [], o, d => .ok (o, d)
  | source :: rest, o, d =>
    match raiseVertex costs source tries o d with
    | .ok (o, d) => raiseAll costs tries rest o d
    | .error e => .error e

/-- One attempt: the ring, then the random links. -/
def attempt (costs : DrawRange) (bare : Overlay) (d : Draws) :
    Except OverlayError (Overlay × Draws) :=
  match connectPairs costs (ringPairs bare.size) bare d with
  | .ok (ring, d) =>
    raiseAll costs (bare.band.min * bare.size * 10) (List.range bare.size) ring d
  | .error e => .error e

/-! ## Whole constructions -/

/-- The first of at most `left` attempts whose degrees all lie in the band. -/
def attempts (settings : BuildSettings) (bare : Overlay) :
    Nat → Draws → Except OverlayError (Overlay × Draws)
  | 0, _ => .error (.constructionFailed settings.maxAttempts)
  | left + 1, d =>
    match attempt settings.costs bare d with
    | .ok (o, d) =>
      match o.verify with
      | .ok () => .ok (o, d)
      | .error _ => attempts settings bare left d
    | .error e => .error e

/-- The vertices of a list of peers with device counts: the position is the id. -/
def numbered (peers : List (PeerAddress × UInt32)) : List EdgeEnd :=
  peers.zipIdx.map fun p => ⟨p.2, p.1.1, p.1.2⟩

/-- An overlay over peers with known device counts, and the draws that are left. -/
def build (settings : BuildSettings) (peers : List (PeerAddress × UInt32)) (band : DegreeBand)
    (d : Draws) : Except OverlayError (Overlay × Draws) :=
  match validate peers.length band with
  | .error reason => .error (.invalidRequest reason)
  | .ok () =>
    if settings.maxAttempts = 0 then .error (.constructionFailed 0)
    else
      match ofVertices? band (numbered peers) with
      | .ok bare => attempts settings bare settings.maxAttempts d
      | .error e => .error e

/-- Draws a device count for every peer, in order. -/
def drawDevices (range : DrawRange) :
    List PeerAddress → Draws → List (PeerAddress × UInt32) × Draws
  | [], d => ([], d)
  | p :: ps, d =>
    let (n, d) := d.between range.lo range.hi
    let (rest, d) := drawDevices range ps d
    ((p, n) :: rest, d)

/-- An overlay over peers with drawn device counts. -/
def buildOver (settings : BuildSettings) (peers : List PeerAddress) (band : DegreeBand)
    (d : Draws) : Except OverlayError (Overlay × Draws) :=
  let (counted, d) := drawDevices settings.devices peers d
  build settings counted band d

/-- The made-up peers of a construction without real ones: ports count up from
    1025 and wrap. -/
def syntheticPeers (count : Nat) : List PeerAddress :=
  (List.range count).map fun i => ⟨"vertex", 1025 + i.toUInt16⟩

/-- An overlay over made-up peers. -/
def buildSynthetic (settings : BuildSettings) (count : Nat) (band : DegreeBand) (d : Draws) :
    Except OverlayError (Overlay × Draws) :=
  buildOver settings (syntheticPeers count) band d

end Overlay

end OverlayCensus
