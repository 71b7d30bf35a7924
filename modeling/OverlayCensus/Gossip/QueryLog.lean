/-
  OverlayCensus — the log of queries that a peer has seen.

  The log is a cache of query ids with the peers that sent them.  A query is new as
  long as its id is not in the log, so an id that has been pushed out counts as new
  again.
-/
import OverlayCensus.Cache
import OverlayCensus.PeerSet
import OverlayCensus.Uuid

namespace OverlayCensus

/-- A set of peers under a name. -/
structure Roster where
  name : String
  members : PeerSet
deriving DecidableEq

/-- Adds a member; tells whether it is new. -/
def Roster.insert (r : Roster) (p : PeerAddress) : Bool × Roster :=
  (p ∉ r.members, { r with members := r.members.insert p })

/-- Adds a member to the roster under a key, which is opened under the given name
    if there is none; tells whether anything changed. -/
def Cache.putMember {κ : Type} [DecidableEq κ] (c : Cache κ Roster) (k : κ) (name : String)
    (p : PeerAddress) : Bool × Cache κ Roster :=
  c.upsert k ⟨name, .single p⟩ fun r => r.insert p

/-- Query ids, the metric each query asks for and the peers that sent it. -/
structure QueryLog where
  cache : Cache Uuid Roster

namespace QueryLog

/-- The log without queries. -/
def empty (capacity : Nat) : QueryLog := ⟨.empty capacity⟩

/-- Notes that a peer sent a query; tells whether the query is new. -/
def mark (log : QueryLog) (id : Uuid) (metric : String) (sender : PeerAddress) :
    Bool × QueryLog :=
  (!log.cache.contains id, ⟨(log.cache.putMember id metric sender).2⟩)

/-- Whether a query is in the log. -/
def contains (log : QueryLog) (id : Uuid) : Bool :=
  log.cache.contains id

/-- The peers that sent a query, in order. -/
def senders (log : QueryLog) (id : Uuid) : List PeerAddress :=
  match log.cache.get? id with
  | some r => r.members.toList
  | none => []

/-- The number of queries in the log. -/
def size (log : QueryLog) : Nat :=
  log.cache.size

end QueryLog

end OverlayCensus
