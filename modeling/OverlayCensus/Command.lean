/-
  OverlayCensus — the commands of an operator.

  * `RegistryCommand.ofText` and `PeerCommand.ofText` read a line,
    `RegistryCommand.words` gives the words of a command;
  * `CommandError` are the causes of refusal;
  * `registryHelp` and `peerHelp` are the help texts.
-/
import OverlayCensus.CoreInstances
import OverlayCensus.Decimal
import OverlayCensus.Results
import OverlayCensus.Text.Blank

namespace OverlayCensus

attribute [local instance] corePow

/-- Why a line is no command. -/
inductive CommandError where
  | empty
  | unrecognized (line : String)
  | notANumber (word : String)
  | badHopLimit (word : String)
deriving DecidableEq, Repr

/-- The wording of a refused line. -/
def CommandError.message : CommandError → String
  | empty => "Command error: empty command"
  | unrecognized line => "Command error: unrecognized command '" ++ line ++ "', try 'help'"
  | notANumber word => "Command error: expected a number, got '" ++ word ++ "'"
  | badHopLimit word => "Command error: hop limit must be positive or -1, got '" ++ word ++ "'"

/-! ## Commands of the registry -/

/-- What an operator can ask of the registry. -/
inductive RegistryCommand where
  | listPeers
  | buildOverlay (min max : Nat)
  | exportOverlay (path : String)
  | importOverlay (path : String)
  | connectPeers
  | checkPeers
  | query (kind : QueryKind) (metric : String) (limit : Int32)
  | printResults
  | exportResults (path : String)
  | clearResults
  | shutdown
  | help
deriving DecidableEq, Repr

namespace RegistryCommand

/-- A 64-bit number in a command. -/
def readNumber (word : String) : Except CommandError Nat :=
  match Decimal.readNat (2 ^ (64 : Nat)) word.toList with
  | some n => .ok n
  | none => .error (.notANumber word)

/-- A hop limit in a command: positive, or the one that means none. -/
def readLimit (word : String) : Except CommandError Int32 :=
  match Decimal.readInt (-2 ^ (31 : Nat)) (2 ^ (31 : Nat) - 1) word.toList with
  | some n =>
    if n = Query.unlimited.toInt ∨ 0 < n then .ok (Int32.ofInt n) else .error (.badHopLimit word)
  | none => .error (.badHopLimit word)

/-- The kind of query that a word asks for. -/
def kindOf? (word : String) : Option QueryKind :=
  [.flood, .randomWalk, .gossipDistance, .gossipLocation].find? fun k => k.label = word

/-- The command of a list of words; `line` is reported if they are none. -/
def ofWords (line : String) : List String → Except CommandError RegistryCommand
  | [] => .error .empty
  | ["listpeers"] => .ok .listPeers
  | ["connectpeers"] => .ok .connectPeers
  | ["checkpeers"] => .ok .checkPeers
  | ["print-results"] => .ok .printResults
  | ["clear-results"] => .ok .clearResults
  | ["shutdown"] => .ok .shutdown
  | ["help"] => .ok .help
  | ["exportoverlay", path] => .ok (.exportOverlay path)
  | ["importoverlay", path] => .ok (.importOverlay path)
  | ["export-results", path] => .ok (.exportResults path)
  | ["buildoverlay", min, max] => do
    let min ← readNumber min
    let max ← readNumber max
    return .buildOverlay min max
  | [word, metric, limit] =>
    match kindOf? word with
    | some kind => do
      let limit ← readLimit limit
      return .query kind metric limit
    | none => .error (.unrecognized (Text.trim line))
  | _ => .error (.unrecognized (Text.trim line))

/-- Reads a line. -/
def ofText (line : String) : Except CommandError RegistryCommand :=
  ofWords line (Text.words line)

/-- The words of a command. -/
def words : RegistryCommand → List String
  | listPeers => ["listpeers"]
  | buildOverlay min max => ["buildoverlay", Decimal.render min, Decimal.render max]
  | exportOverlay path => ["exportoverlay", path]
  | importOverlay path => ["importoverlay", path]
  | connectPeers => ["connectpeers"]
  | checkPeers => ["checkpeers"]
  | query kind metric limit => [kind.label, metric, Decimal.renderInt limit.toInt]
  | printResults => ["print-results"]
  | exportResults path => ["export-results", path]
  | clearResults => ["clear-results"]
  | shutdown => ["shutdown"]
  | help => ["help"]

end RegistryCommand

/-- The help text of the registry. -/
def registryHelp : String := String.intercalate "\n"
  ["listpeers                          list registered peers",
   "buildoverlay <min> <max>           build an overlay over the registered peers",
   "exportoverlay <path>               write the overlay as CSV",
   "importoverlay <path>               load an overlay and map it onto the registered peers",
   "connectpeers                       send every peer its connection list",
   "checkpeers                         ask every peer for its neighbours and compare",
   "flood <metric> <hop-limit>         start a bounded flood query",
   "randomwalk <metric> <hop-limit>    start a random walk query",
   "gossiptype0 <metric> <hop-limit>   start a distance-table gossip query",
   "gossiptype1 <metric> <hop-limit>   start a location-table gossip query",
   "print-results                      print collected query results as JSON",
   "export-results <path>              write collected query results as CSV",
   "clear-results                      forget collected query results",
   "shutdown                           stop every peer and the registry",
   "help                               show this text",
   "",
   "A hop limit of -1 means unlimited."]

/-! ## Commands of a peer -/

/-- What an operator can ask of a peer. -/
inductive PeerCommand where
  | neighbors
  | devices
  | gossipTables
  | help
deriving DecidableEq, Repr

namespace PeerCommand

/-- The line of a command. -/
def line : PeerCommand → String
  | neighbors => "neighbors"
  | devices => "devices"
  | gossipTables => "gossip-tables"
  | help => "help"

/-- Reads a line, blanks allowed at its ends. -/
def ofText (s : String) : Except CommandError PeerCommand :=
  let word := Text.trim s
  match [neighbors, devices, gossipTables, help].find? fun c => c.line = word with
  | some c => .ok c
  | none => .error (.unrecognized word)

end PeerCommand

/-- The help text of a peer. -/
def peerHelp : String := String.intercalate "\n"
  ["neighbors       list overlay neighbours",
   "devices         list attached devices",
   "gossip-tables   print the distance and location tables",
   "help            show this text"]

end OverlayCensus
