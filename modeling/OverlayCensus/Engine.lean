/-
  OverlayCensus — what a peer does with the messages it receives.

  An engine holds the log of the queries it has seen and the two gossip tables of
  its peer.  Handling a message is a function of the engine, its neighbours and one
  random pick; it yields the engine afterwards and the messages to send.

  Totals travel with a query.  A peer adds its own devices when it sees a query for
  the first time, and passes later arrivals back to the originator as they came.

  * `onFlood`, `onRandomWalk`, `onGossipQuery`, `onDistances` and `onLocations` are
    the rules for each kind of message, and `handle` chooses among them;
  * `seed` enters the peer's own metrics into the gossip tables, `broadcast` tells
    the tables to all neighbours.
-/
import OverlayCensus.Gossip.DistanceTable
import OverlayCensus.Gossip.LocationTable
import OverlayCensus.Gossip.QueryLog
import OverlayCensus.Message.Basic

namespace OverlayCensus

/-- What a peer's devices report. -/
structure Metrics where
  deviceCount : Nat
  metricCount : String → Nat
  metricNames : List String

/-- The way a message takes. -/
inductive Route where
  /-- To a peer by name. -/
  | direct
  /-- To every neighbour. -/
  | everyone
  /-- To a neighbour drawn at random. -/
  | random
deriving DecidableEq, Repr

/-- A message to be sent. -/
structure Parcel where
  route : Route
  receiver : PeerAddress
  message : Message
deriving DecidableEq, Repr

/-- The sizes of an engine's tables. -/
structure EngineSettings where
  queryCapacity : Nat := 40
  tableCapacity : Nat := 100
  /-- The probability of skipping a location that would push out another; by
      default one in a hundred. -/
  skip : Binary64 := ⟨0x3F847AE147AE147B⟩
deriving DecidableEq

/-- The state of one peer's part in queries and gossip. -/
structure Engine where
  identity : PeerAddress
  metrics : Metrics
  queries : QueryLog
  distances : DistanceTable
  locations : LocationTable
  /-- The queries to which the peer has added its devices, the last one first. -/
  contributions : List Uuid

namespace Engine

/-- An engine with empty tables.  The coins decide which locations are skipped. -/
def new (identity : PeerAddress) (metrics : Metrics) (settings : EngineSettings)
    (coins : Draws) : Engine where
  identity := identity
  metrics := metrics
  queries := .empty settings.queryCapacity
  distances := .empty settings.tableCapacity
  locations := .empty settings.tableCapacity settings.skip coins
  contributions := []

/-! ## Gossip of its own -/

/-- Enters the peer's own metrics into both tables, in order. -/
def enterOwn (e : Engine) : List String → Engine
  | [] => e
  | name :: rest =>
    enterOwn
      { e with
        distances := (e.distances.merge name 0 e.identity).2
        locations := (e.locations.merge ⟨e.identity, name⟩).2 }
      rest

/-- Replaces what both tables say about the peer itself by its present metrics. -/
def seed (e : Engine) : Engine :=
  enterOwn
    { e with
      distances := (e.distances.forgetHolder e.identity).2
      locations := (e.locations.forgetHolder e.identity).2 }
    e.metrics.metricNames

/-- The message that advertises the distances. -/
def distancesMessage (e : Engine) : Message :=
  .distances e.identity e.distances.advertisement

/-- The message that advertises the locations. -/
def locationsMessage (e : Engine) : Message :=
  .locations e.identity (e.locations.entries.map fun l => (l.holder, l.name))

/-! ## Sending -/

/-- A message to every neighbour that is not in `exclude`. -/
def toAll (neighbors exclude : List PeerAddress) (m : Message) : List Parcel :=
  (neighbors.filter fun p => p ∉ exclude).map fun p => ⟨.everyone, p, m⟩

/-- The neighbours that a random message may go to. -/
def candidates (neighbors : List PeerAddress) (sender : PeerAddress) : List PeerAddress :=
  neighbors.filter fun p => p ≠ sender

/-- The candidate at position `pick`, counted around. -/
def choose (candidates : List PeerAddress) (pick : Nat) : Option PeerAddress :=
  candidates[pick % candidates.length]?

/-- The answer to a query's originator. -/
def reply (kind : QueryKind) (q : Query) : Parcel :=
  ⟨.direct, q.originator, .query kind q⟩

/-- Both advertisements, to every neighbour. -/
def broadcast (e : Engine) (neighbors : List PeerAddress) : List Parcel :=
  toAll neighbors [] e.distancesMessage ++ toAll neighbors [] e.locationsMessage

/-! ## Queries -/

/-- A natural number as a signed 32-bit one; a larger one becomes the largest. -/
def count (n : Nat) : Int32 :=
  Int32.nearest n

/-- The next hop of a query with its totals as they came. -/
def passOn (e : Engine) (q : Query) : Query :=
  q.nextHop e.identity q.checked q.matched

/-- The next hop of a query with the peer's own devices added. -/
def accumulated (e : Engine) (q : Query) : Query :=
  q.nextHop e.identity (Int32.satAdd q.checked (count e.metrics.deviceCount))
    (Int32.satAdd q.matched (count (e.metrics.metricCount q.metric)))

/-- The engine after it has added its devices to a query. -/
def contribute (e : Engine) (q : Query) : Engine :=
  { e with contributions := q.id :: e.contributions }

/-- Notes a query in the log; tells whether it is new. -/
def mark (e : Engine) (q : Query) : Bool × Engine :=
  let (new, queries) := e.queries.mark q.id q.metric q.sender
  (new, { e with queries := queries })

/-- A flood.  One random neighbour receives the totals with the peer's devices, all
    others but the sender the totals as they came; at the end of the way the
    originator receives them. -/
def onFlood (e : Engine) (neighbors : List PeerAddress) (pick : Nat) (q : Query) :
    Engine × List Parcel :=
  let (new, e) := e.mark q
  if !new then (e, [reply .flood (e.passOn q)])
  else
    let full := e.accumulated q
    let e := e.contribute q
    if q.limit ≠ Query.unlimited ∧ !q.mayForward then (e, [reply .flood full])
    else
      match choose (candidates neighbors q.sender) pick with
      | some carrier =>
        (e, ⟨.random, carrier, .query .flood full⟩ ::
          toAll neighbors [q.sender, carrier] (.query .flood (e.passOn q)))
      | none => (e, [reply .flood full])

/-- A random walk: one copy, one neighbour per hop.  At a dead end it goes back
    where it came from, if that is a neighbour. -/
def onRandomWalk (e : Engine) (neighbors : List PeerAddress) (pick : Nat) (q : Query) :
    Engine × List Parcel :=
  let (new, e) := e.mark q
  let next := if new then e.accumulated q else e.passOn q
  let e := if new then e.contribute q else e
  if !q.mayForward then (e, [reply .randomWalk next])
  else
    match choose (candidates neighbors q.sender) pick with
    | some peer => (e, [⟨.random, peer, .query .randomWalk next⟩])
    | none =>
      if q.sender ∈ neighbors then (e, [⟨.direct, q.sender, .query .randomWalk next⟩])
      else (e, [reply .randomWalk next])

/-- The hops that a query has left, as a distance. -/
def hopsLeft (q : Query) : UInt32 :=
  (clampInt (q.limit.toInt - q.hop.toInt)).toNat.toUInt32

/-- The peers that the table of a gossip query names, and the engine after the
    table has been asked. -/
def routes (e : Engine) (kind : QueryKind) (q : Query) : List PeerAddress × Engine :=
  match kind with
  | .gossipDistance =>
    let (holders, distances) := e.distances.holdersWithin q.metric (hopsLeft q)
    (holders, { e with distances := distances })
  | _ => (e.locations.holdersOf q.metric, e)

/-- The peers to which a gossip query goes on: each of those named once, but
    neither the peer itself nor the sender. -/
def targets (e : Engine) (q : Query) (named : List PeerAddress) : List PeerAddress :=
  (named.filter fun p => p ≠ e.identity ∧ p ≠ q.sender).eraseDups

/-- A gossip query.  The first target receives the totals with the peer's devices
    and the others empty totals, so that what came is delivered once. -/
def onGossipQuery (e : Engine) (kind : QueryKind) (q : Query) : Engine × List Parcel :=
  let (new, e) := e.mark q
  if !new then (e, [reply kind (e.passOn q)])
  else
    let full := e.accumulated q
    let e := e.contribute q
    if !q.mayForward then (e, [reply kind full])
    else
      let (named, e) := e.routes kind q
      match e.targets q named with
      | [] => (e, [reply kind full])
      | first :: rest =>
        (e, ⟨.direct, first, .query kind full⟩ ::
          rest.map fun p => ⟨.direct, p, .query kind (q.nextHop e.identity 0 0)⟩)

/-! ## Gossip -/

/-- Merges the distances that a neighbour advertises; if the table changed, tells
    all others. -/
def onDistances (e : Engine) (neighbors : List PeerAddress) (sender : PeerAddress)
    (entries : List (String × UInt32)) : Engine × List Parcel :=
  let (changed, distances) := e.distances.mergeAdvertised sender entries
  let e := { e with distances := distances }
  (e, if changed then toAll neighbors [sender] e.distancesMessage else [])

/-- Merges the locations that a neighbour advertises; if the table changed, tells
    all others. -/
def onLocations (e : Engine) (neighbors : List PeerAddress) (sender : PeerAddress)
    (entries : List (PeerAddress × String)) : Engine × List Parcel :=
  let (changed, locations) := e.locations.mergeAll (entries.map fun l => ⟨l.1, l.2⟩)
  let e := { e with locations := locations }
  (e, if changed then toAll neighbors [sender] e.locationsMessage else [])

/-! ## All messages -/

/-- Handles a message that an engine is there for, and refuses any other. -/
def handle (e : Engine) (neighbors : List PeerAddress) (pick : Nat) :
    Message → Option (Engine × List Parcel)
  | .query .flood q => some (e.onFlood neighbors pick q)
  | .query .randomWalk q => some (e.onRandomWalk neighbors pick q)
  | .query kind q => some (e.onGossipQuery kind q)
  | .distances sender entries => some (e.onDistances neighbors sender entries)
  | .locations sender entries => some (e.onLocations neighbors sender entries)
  | _ => none

/-- Whether the sending of messages has used a random pick. -/
def usesPick (sent : List Parcel) : Bool :=
  sent.any fun p => p.route = .random

end Engine

/-- Metrics given by a table.  Of two counts of one name the first one counts, but
    the name is told as often as it stands there. -/
def Metrics.ofCounts (total : Nat) (counts : List (String × Nat)) : Metrics where
  deviceCount := total
  metricCount name := ((counts.find? fun c => c.1 = name).map Prod.snd).getD 0
  metricNames := counts.map Prod.fst

end OverlayCensus
