/-
  OverlayCensus — the grammar of the commands of an operator.

  * `Form`: the words of a command, with its numbers written in any way that is read;
    `ofWords_eq_ok_iff`: a list of words is a command iff it has a form;
  * `form_words`: the words of a command are one of its forms, if it can be asked for
    (`Askable`);
  * `ofText_grammar`: which lines are read as which commands.
-/
import Mathlib
import OverlayCensus.Command
import OverlayCensus.Proofs.Numerals
import OverlayCensus.Proofs.Outcomes
import OverlayCensus.Proofs.Words

namespace OverlayCensus.RegistryCommand

/-- How a degree is written. -/
structure Degree (w : String) (n : ℕ) : Prop where
  unsigned : Decimal.Unsigned w.toList n
  lt : n < 2 ^ 64

/-- A hop limit that can be asked for: a positive one, or the one that means none. -/
def Allowed (limit : Int32) : Prop :=
  limit = Query.unlimited ∨ 0 < limit

/-- **The forms of commands.** -/
inductive Form : List String → RegistryCommand → Prop
  | listPeers : Form ["listpeers"] .listPeers
  | buildOverlay {lo hi : String} {min max : ℕ} : Degree lo min → Degree hi max →
      Form ["buildoverlay", lo, hi] (.buildOverlay min max)
  | exportOverlay (path : String) : Form ["exportoverlay", path] (.exportOverlay path)
  | importOverlay (path : String) : Form ["importoverlay", path] (.importOverlay path)
  | connectPeers : Form ["connectpeers"] .connectPeers
  | checkPeers : Form ["checkpeers"] .checkPeers
  | query (kind : QueryKind) (metric : String) {hops : String} {limit : Int32} :
      Decimal.Signed hops.toList limit.toInt → Allowed limit →
        Form [kind.label, metric, hops] (.query kind metric limit)
  | printResults : Form ["print-results"] .printResults
  | exportResults (path : String) : Form ["export-results", path] (.exportResults path)
  | clearResults : Form ["clear-results"] .clearResults
  | shutdown : Form ["shutdown"] .shutdown
  | help : Form ["help"] .help

variable {line w : String} {ws : List String} {c : RegistryCommand} {n : ℕ} {limit : Int32}

/-! ## Numbers -/

theorem readNumber_eq_ok_iff : readNumber w = .ok n ↔ Degree w n := by
  have hread : Decimal.readNat (2 ^ 64) w.toList = some n ↔ Degree w n :=
    Decimal.readNat_eq_some_iff.trans ⟨fun h => ⟨h.1, h.2⟩, fun h => ⟨h.1, h.2⟩⟩
  rw [← hread, readNumber]
  split <;> simp_all

theorem allowed_iff : Allowed limit ↔ limit.toInt = Query.unlimited.toInt ∨ 0 < limit.toInt := by
  rw [Allowed, ← Int32.toInt_inj, Int32.lt_iff_toInt_lt, Int32.toInt_zero]

theorem readLimit_eq_ok_iff :
    readLimit w = .ok limit ↔ Decimal.Signed w.toList limit.toInt ∧ Allowed limit := by
  rw [allowed_iff]
  constructor
  · intro h
    unfold readLimit at h
    split at h
    · next z hread =>
      obtain ⟨hsigned, hlo, hhi⟩ := Decimal.readInt_eq_some_iff.1 hread
      have hz : (Int32.ofInt z).toInt = z := Int32.toInt_ofInt_of_le hlo (by omega)
      split_ifs at h with hallowed
      cases h
      exact ⟨hz.symm ▸ hsigned, hz.symm ▸ hallowed⟩
    · cases h
  · rintro ⟨hsigned, hallowed⟩
    have hread : Decimal.readInt (-2 ^ 31) (2 ^ 31 - 1) w.toList = some limit.toInt :=
      Decimal.readInt_eq_some_iff.2 ⟨hsigned, limit.le_toInt, limit.toInt_le⟩
    unfold readLimit
    split
    · next z hz =>
      obtain rfl := Option.some.inj (hz.symm.trans hread)
      rw [if_pos hallowed, Int32.ofInt_toInt]
    · next hnone => cases hnone.symm.trans hread

/-! ## Words -/

theorem ofWords_buildOverlay (line lo hi : String) :
    ofWords line ["buildoverlay", lo, hi] = do
      let min ← readNumber lo
      let max ← readNumber hi
      return .buildOverlay min max :=
  rfl

theorem ofWords_query (line : String) (kind : QueryKind) (metric hops : String) :
    ofWords line [kind.label, metric, hops] = do
      let limit ← readLimit hops
      return .query kind metric limit := by
  cases kind <;> rfl

/-- A keyword names one kind of query. -/
theorem label_of_kindOf? {word : String} {kind : QueryKind} (h : kindOf? word = some kind) :
    kind.label = word := by
  simpa using List.find?_some h

/-- **Words are a command** iff they have one of the forms. -/
theorem ofWords_eq_ok_iff : ofWords line ws = .ok c ↔ Form ws c := by
  constructor
  · intro h
    unfold ofWords at h
    split at h
    case h_1 => cases h
    case h_2 => cases h; exact .listPeers
    case h_3 => cases h; exact .connectPeers
    case h_4 => cases h; exact .checkPeers
    case h_5 => cases h; exact .printResults
    case h_6 => cases h; exact .clearResults
    case h_7 => cases h; exact .shutdown
    case h_8 => cases h; exact .help
    case h_9 path => cases h; exact .exportOverlay path
    case h_10 path => cases h; exact .importOverlay path
    case h_11 path => cases h; exact .exportResults path
    case h_12 lo hi =>
      obtain ⟨min, hmin, h⟩ := bind_eq_ok.1 h
      obtain ⟨max, hmax, h⟩ := bind_eq_ok.1 h
      cases h
      exact .buildOverlay (readNumber_eq_ok_iff.1 hmin) (readNumber_eq_ok_iff.1 hmax)
    case h_13 word metric hops _ =>
      split at h
      · next kind hkind =>
        obtain ⟨limit, hlimit, h⟩ := bind_eq_ok.1 h
        cases h
        obtain ⟨hsigned, hallowed⟩ := readLimit_eq_ok_iff.1 hlimit
        exact label_of_kindOf? hkind ▸ .query kind metric hsigned hallowed
      · cases h
    case h_14 => cases h
  · intro h
    cases h with
    | buildOverlay hmin hmax =>
      rw [ofWords_buildOverlay, readNumber_eq_ok_iff.2 hmin, readNumber_eq_ok_iff.2 hmax]
      rfl
    | query kind metric hsigned hallowed =>
      rw [ofWords_query, readLimit_eq_ok_iff.2 ⟨hsigned, hallowed⟩]
      rfl
    | _ => rfl

/-! ## Lines -/

/-- What an operator can ask for: paths and metrics that are words, and hop limits that are
    allowed.  Degrees have 64 bits. -/
def Askable : RegistryCommand → Prop
  | buildOverlay min max => min < 2 ^ 64 ∧ max < 2 ^ 64
  | exportOverlay path | importOverlay path | exportResults path => Text.IsWord path
  | query _ metric limit => Text.IsWord metric ∧ Allowed limit
  | listPeers | connectPeers | checkPeers | printResults | clearResults | shutdown | help => True

theorem degree_render (h : n < 2 ^ 64) : Degree (Decimal.render n) n :=
  ⟨Decimal.toList_render n ▸ .bare (Decimal.numeral_digits n), h⟩

/-- **The words of a command** are one of its forms. -/
theorem form_words (h : c.Askable) : Form c.words c := by
  cases c with
  | buildOverlay min max => exact .buildOverlay (degree_render h.1) (degree_render h.2)
  | exportOverlay path => exact .exportOverlay path
  | importOverlay path => exact .importOverlay path
  | exportResults path => exact .exportResults path
  | query kind metric limit => exact .query kind metric (Decimal.signed_renderInt _) h.2
  | listPeers => exact .listPeers
  | connectPeers => exact .connectPeers
  | checkPeers => exact .checkPeers
  | printResults => exact .printResults
  | clearResults => exact .clearResults
  | shutdown => exact .shutdown
  | help => exact .help

theorem ofText_eq_ok_iff (h : Text.Spaced ws line.toList) : ofText line = .ok c ↔ Form ws c := by
  rw [ofText, Text.words_of_spaced h, ofWords_eq_ok_iff]

/-- A refusal says that a command is wrong, and what is wrong with it. -/
theorem exists_cause (e : CommandError) : ∃ cause, e.message = "Command error: " ++ cause := by
  cases e with
  | empty => exact ⟨"empty command", rfl⟩
  | unrecognized line =>
    refine ⟨"unrecognized command '" ++ line ++ "', try 'help'", ?_⟩
    change "Command error: unrecognized command '" ++ line ++ "', try 'help'" = _
    simp [← String.toList_inj]
  | notANumber word =>
    refine ⟨"expected a number, got '" ++ word ++ "'", ?_⟩
    change "Command error: expected a number, got '" ++ word ++ "'" = _
    simp [← String.toList_inj]
  | badHopLimit word =>
    refine ⟨"hop limit must be positive or -1, got '" ++ word ++ "'", ?_⟩
    change "Command error: hop limit must be positive or -1, got '" ++ word ++ "'" = _
    simp [← String.toList_inj]

/-- **The grammar of commands.**  A line is a command exactly if its words have one of the forms,
    and then it is the command of that form.  Whatever can be asked for is asked for by writing
    its words, with any blanks between them and around them.  All other lines are refused as
    wrong commands. -/
theorem ofText_grammar (line : String) :
    (∀ c, ofText line = .ok c ↔ ∃ ws, Text.Spaced ws line.toList ∧ Form ws c) ∧
      (∀ c : RegistryCommand, c.Askable → Text.Spaced c.words line.toList → ofText line = .ok c) ∧
      ((∀ ws c, Text.Spaced ws line.toList → ¬ Form ws c) →
        ∃ e cause, ofText line = .error e ∧ e.message = "Command error: " ++ cause) := by
  have hwords : Text.Spaced (Text.words line) line.toList := Text.words_eq_iff.1 rfl
  refine ⟨fun c => ⟨fun h => ⟨_, hwords, (ofText_eq_ok_iff hwords).1 h⟩, ?_⟩, ?_, fun hnone => ?_⟩
  · rintro ⟨ws, hws, hform⟩
    exact (ofText_eq_ok_iff hws).2 hform
  · exact fun c hc hws => (ofText_eq_ok_iff hws).2 (form_words hc)
  · cases h : ofText line with
    | ok c => exact absurd ((ofText_eq_ok_iff hwords).1 h) (hnone _ c hwords)
    | error e =>
      obtain ⟨cause, hcause⟩ := exists_cause e
      exact ⟨e, cause, rfl, hcause⟩

/-- A query with an ideographic blank in front and a sign before its limit, a request whose words
    stand on two lines, and a query that may take no hop. -/
theorem ofText_grammar_blanks :
    ofText "\u3000gossiptype1\tNETFLIX  +5 " = .ok (.query .gossipLocation "NETFLIX" 5) ∧
      ofText "buildoverlay 2\n\u20034\n" = .ok (.buildOverlay 2 4) ∧
      ∃ e cause, ofText "flood NETFLIX 0" = .error e ∧ e.message = "Command error: " ++ cause := by
  have hwords : ofWords "" ["gossiptype1", "NETFLIX", "+5"] =
      .ok (.query .gossipLocation "NETFLIX" 5) := by decide
  have hrefused : ofText "flood NETFLIX 0" = .error (.badHopLimit "0") := by decide
  refine ⟨((ofText_grammar _).1 _).2
      ⟨_, Text.words_eq_iff.1 (by decide), ofWords_eq_ok_iff.1 hwords⟩,
    (ofText_grammar _).2.1 _ ⟨by norm_num, by norm_num⟩ (Text.words_eq_iff.1 (by decide +kernel)),
    (ofText_grammar _).2.2 fun ws c hws hform => ?_⟩
  cases hrefused.symm.trans ((ofText_eq_ok_iff hws).2 hform)

end OverlayCensus.RegistryCommand
