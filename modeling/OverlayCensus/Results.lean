/-
  OverlayCensus — what the originator of queries learns.

  Every hop of a query that comes back to its originator is a partial result.  The
  results of a query are added up, and its deepest hop is kept.

  * `track` opens the results of a query when it starts, `observe` adds a partial
    result, `observeMessage` one that a message carries;
  * `snapshot` lists all results, `toCsv` and `toJson` write them.
-/
import OverlayCensus.Csv
import OverlayCensus.Decimal
import OverlayCensus.Message.Basic

namespace OverlayCensus

/-- The name under which an operator asks for a kind of query. -/
def QueryKind.label : QueryKind → String
  | flood => "flood"
  | randomWalk => "randomwalk"
  | gossipDistance => "gossiptype0"
  | gossipLocation => "gossiptype1"

/-- The name of a kind of query in written results. -/
def QueryKind.title : QueryKind → String
  | flood => "Flood"
  | randomWalk => "RandomWalk"
  | gossipDistance => "GossipDistance"
  | gossipLocation => "GossipLocation"

/-- The results of one query.  Times are in milliseconds.  The sums stand for numbers of 64 bits:
    they are these below `2 ^ 31` partial results, whose sums fit (`Results.results_of_calls`). -/
structure Tally where
  kind : QueryKind
  limit : Int32
  /-- The sum of the hops of all partial results. -/
  totalHops : Int
  totalChecked : Int
  totalMatched : Int
  maxHop : Int32
  startedAt : Nat
  /-- When the last partial result came, if one has come. -/
  updatedAt : Option Nat
deriving DecidableEq, Repr

/-- The results of a query of which nothing has come back. -/
def Tally.start (kind : QueryKind) (limit : Int32) (now : Nat) : Tally :=
  ⟨kind, limit, 0, 0, 0, 0, now, none⟩

/-- One partial result. -/
structure Observation where
  hop : Int32
  checked : Int32
  matched : Int32
  limit : Int32
  kind : QueryKind
deriving DecidableEq, Repr

/-- The results with a partial result added. -/
def Tally.add (t : Tally) (o : Observation) (now : Nat) : Tally :=
  { t with
    totalHops := t.totalHops + o.hop.toInt
    totalChecked := t.totalChecked + o.checked.toInt
    totalMatched := t.totalMatched + o.matched.toInt
    maxHop := if t.maxHop < o.hop then o.hop else t.maxHop
    updatedAt := some now }

/-- The partial result that a message carries, and its query. -/
def Observation.ofMessage? : Message → Option (Uuid × Observation)
  | .query kind q => some (q.id, ⟨q.hop, q.checked, q.matched, q.limit, kind⟩)
  | _ => none

/-- The results of all queries, in the order in which they were opened. -/
structure Results where
  rows : List (Uuid × Tally)
deriving DecidableEq, Repr

namespace Results

/-- No results. -/
def empty : Results := ⟨[]⟩

/-- The results of a query. -/
def get? (r : Results) (id : Uuid) : Option Tally :=
  (r.rows.find? fun row => row.1 = id).map Prod.snd

/-- The number of queries. -/
def size (r : Results) : Nat :=
  r.rows.length

/-- Rows with a change made to the one of a query. -/
def change (id : Uuid) (f : Tally → Tally) : List (Uuid × Tally) → List (Uuid × Tally)
  | [] => []
  | row :: rows => if row.1 = id then (id, f row.2) :: rows else row :: change id f rows

/-- Opens the results of a query.  If they are open already, they stay as they
    are. -/
def track (r : Results) (id : Uuid) (kind : QueryKind) (limit : Int32) (now : Nat) : Results :=
  match r.get? id with
  | some _ => r
  | none => ⟨r.rows ++ [(id, .start kind limit now)]⟩

/-- Adds a partial result.  One of a query that is not tracked opens its results. -/
def observe (r : Results) (id : Uuid) (o : Observation) (now : Nat) : Results :=
  ⟨change id (fun t => t.add o now) (r.track id o.kind o.limit now).rows⟩

/-- Adds the partial result of a message; tells whether it carries one. -/
def observeMessage (r : Results) (m : Message) (now : Nat) : Bool × Results :=
  match Observation.ofMessage? m with
  | some (id, o) => (true, r.observe id o now)
  | none => (false, r)

/-- Whether one row was opened before another; of two opened at the same time the
    lower id comes first. -/
def startedBefore (a b : Uuid × Tally) : Bool :=
  a.2.startedAt < b.2.startedAt ||
    (a.2.startedAt == b.2.startedAt && a.1.toNat ≤ b.1.toNat)

/-- All results, the oldest first. -/
def snapshot (r : Results) : List (Uuid × Tally) :=
  r.rows.mergeSort startedBefore

/-! ## Written results -/

/-- The columns of a results file. -/
def header : List String :=
  ["ID", "Total Hops", "Total Devices", "Devices with Metric", "Max Hops", "Hop Limit",
   "Time Start", "Time End", "Type"]

/-- The record of one query. -/
def csvRow (row : Uuid × Tally) : List String :=
  let t := row.2
  [row.1.render, Decimal.renderInt t.totalHops, Decimal.renderInt t.totalChecked,
   Decimal.renderInt t.totalMatched, Decimal.renderInt t.maxHop.toInt,
   Decimal.renderInt t.limit.toInt, Decimal.render t.startedAt,
   (t.updatedAt.map Decimal.render).getD "", t.kind.label]

/-- All results as a file of comma-separated values. -/
def toCsv (r : Results) : String :=
  Csv.render (header :: r.snapshot.map csvRow)

/-- The lines of one query in the printed results, the last one without a comma. -/
def jsonRow (row : Uuid × Tally) : String :=
  let t := row.2
  let line := fun (name value : String) => "    \"" ++ name ++ "\": " ++ value
  let lines :=
    [line "id" ("\"" ++ row.1.render ++ "\""),
     line "query_type" ("\"" ++ t.kind.title ++ "\""),
     line "hop_limit" (Decimal.renderInt t.limit.toInt),
     line "total_hops" (Decimal.renderInt t.totalHops),
     line "total_devices_checked" (Decimal.renderInt t.totalChecked),
     line "total_devices_with_metric" (Decimal.renderInt t.totalMatched),
     line "max_hop" (Decimal.renderInt t.maxHop.toInt),
     line "started_at" (Decimal.render t.startedAt),
     line "last_updated_at" ((t.updatedAt.map Decimal.render).getD "null")]
  "  \x7b\n" ++ String.intercalate ",\n" lines ++ "\n  \x7d"

/-- All results as printed for the operator. -/
def toJson (r : Results) : String :=
  match r.snapshot with
  | [] => "[]"
  | rows => "[\n" ++ String.intercalate ",\n" (rows.map jsonRow) ++ "\n]"

end Results

end OverlayCensus
