import Abacus.Expr.Render
import Abacus.Evaluation.Error

/-!
The journal: a record of what evaluation and sessions do.

* `Journal.Level`: how much is recorded; each level includes what the level before it records.
* `Journal.Entry`: one recorded step, kept as data. `level`, `origin`, `message` and `fields` say
  how it is reported, and its texts are made only then.
* `Journal`: the entries recorded so far, in order. `Journal.log` adds an entry if the journal's
  level includes it and else changes nothing.
-/

namespace Abacus

namespace Journal

/-- How much a journal records. -/
inductive Level where
  | info
  | debug
  | trace
deriving DecidableEq

/-- The levels in order, from the one that records least. -/
def Level.depth : Level → Nat
  | info => 0
  | debug => 1
  | trace => 2

/-- Whether a journal of this level records an entry of the other. -/
def Level.includes (journal entry : Level) : Bool := decide (entry.depth ≤ journal.depth)

/-- The part of the calculator that an entry comes from. -/
inductive Origin where
  | scope
  | evaluation
  | session
deriving DecidableEq

/-- A recorded step. -/
inductive Entry where
  /-- The evaluation of an expression starts. -/
  | enter (kind : Expr.Kind)
  /-- The evaluation that started last and has not ended ends. -/
  | exit
  /-- A name is about to be bound. -/
  | setSymbol (name : String) (value : Double)
  /-- A name has been looked up. -/
  | getSymbol (name : String) (bound : Bool)
  /-- A symbol has no value. -/
  | unboundSymbol (name : String)
  /-- A session starts with so many names bound. -/
  | newSession (bindings : Nat)
  /-- The session's evaluation with this index has a value. -/
  | resolved (index : Nat) (root : Expr) (value : Double)
  /-- The session's evaluation with this index has failed. -/
  | resolutionFailed (index : Nat) (root : Expr) (cause : EvalError)
deriving DecidableEq

/-- A reported detail of an entry. -/
inductive Detail where
  | text (value : String)
  | flag (value : Bool)
  | count (value : Nat)
deriving DecidableEq

namespace Entry

/-- The least level that records an entry. -/
def level : Entry → Level
  | enter _ | exit | setSymbol .. | getSymbol .. => .trace
  | unboundSymbol _ | newSession _ | resolved .. | resolutionFailed .. => .debug

/-- Where an entry comes from. -/
def origin : Entry → Origin
  | setSymbol .. | getSymbol .. => .scope
  | enter _ | exit | unboundSymbol _ => .evaluation
  | newSession _ | resolved .. | resolutionFailed .. => .session

/-- The wording of an entry. The start and the end of an evaluation share a word. -/
def message : Entry → String
  | enter _ | exit => "resolve"
  | setSymbol .. => "set symbol"
  | getSymbol .. => "get symbol"
  | unboundSymbol _ => "unbound symbol"
  | newSession _ => "new session"
  | resolved .. => "resolved"
  | resolutionFailed .. => "resolution failed"

/-- The details of an entry, in the order in which they are reported. -/
def fields : Entry → List (String × Detail)
  | enter kind => [("kind", .text kind.name)]
  | exit => []
  | setSymbol name value => [("name", .text name), ("value", .text value.text)]
  | getSymbol name bound => [("name", .text name), ("bound", .flag bound)]
  | unboundSymbol name => [("name", .text name)]
  | newSession bindings => [("bindings", .count bindings)]
  | resolved index root value =>
    [("index", .count index), ("root", .text root.render), ("value", .text value.text)]
  | resolutionFailed index root cause =>
    [("index", .count index), ("root", .text root.render), ("err", .text cause.message)]

end Entry

end Journal

/-- The entries recorded so far. -/
structure Journal where
  level : Journal.Level
  entries : Array Journal.Entry := #[]

namespace Journal

/-- The journal that records nothing. -/
def silent : Journal := { level := .info }

/-- Records an entry if the level includes it. -/
def log (j : Journal) (e : Entry) : Journal :=
  if j.level.includes e.level then { j with entries := j.entries.push e } else j

@[simp] theorem level_log (j : Journal) (e : Entry) : (j.log e).level = j.level := by
  unfold log; split <;> rfl

/-- Logging appends what the level lets through. -/
theorem toList_entries_log (j : Journal) (e : Entry) :
    (j.log e).entries.toList =
      j.entries.toList ++ [e].filter (fun e => j.level.includes e.level) := by
  unfold log; split <;> simp [*]

@[simp] theorem log_silent (e : Entry) : silent.log e = silent := by
  cases e <;> rfl

end Journal

end Abacus
