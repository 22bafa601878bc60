import Mathlib.Tactic.Common
import Abacus.Proofs.Evaluation.Record

/-!
What can be read from the reports of a journal.

A journal is reported entry by entry, by the wording and the details of each entry. Whoever reads
the reports sees nothing else of the journal.

* `Journal.Report`, `Entry.report`: a report, and the report of an entry.
* `Journal.Event`, `Report.event?`: what a report says of an evaluation, if it is one of the reports
  that evaluations make. It is what the entry stands for (`Entry.event?_report`).
* `Report.access?`, `Report.written?`, `Report.kind?`: the access that a report tells of, the name
  and the text that are written, and the name of the kind of the node whose span is opened.
* `Expr.Kind.ofName?`: the kind with a name. No two kinds share one (`Expr.Kind.ofName?_name`).
-/

namespace Abacus

namespace Journal

/-- A reported entry: its wording and its details. -/
abbrev Report := String × List (String × Detail)

/-- What a report says of an evaluation. -/
inductive Event where
  /-- The span of a node is opened. -/
  | enter (kind : String)
  /-- The span that was opened last is closed. -/
  | exit
  /-- A name is about to be bound to the value with the given text. -/
  | set (name text : String)
  /-- A name has been looked up. -/
  | get (name : String) (bound : Bool)
  /-- A symbol has no value. -/
  | unbound (name : String)
deriving DecidableEq

namespace Event

/-- The access to the scope that an event tells of. -/
def access? : Event → Option Access
  | get name _ => some (.read name)
  | set name _ => some (.write name)
  | enter _ | exit | unbound _ => none

/-- The name that an event says is bound, and the text of its value. -/
def written? : Event → Option (String × String)
  | set name text => some (name, text)
  | enter _ | exit | get .. | unbound _ => none

/-- The name of the kind of the node whose span an event opens. -/
def kind? : Event → Option String
  | enter kind => some kind
  | exit | set .. | get .. | unbound _ => none

end Event

namespace Report

/-- The event that a report tells of, read from its wording and its details. -/
def event? : Report → Option Event
  | ("resolve", [("kind", .text kind)]) => some (.enter kind)
  | ("resolve", []) => some .exit
  | ("set symbol", [("name", .text name), ("value", .text text)]) => some (.set name text)
  | ("get symbol", [("name", .text name), ("bound", .flag bound)]) => some (.get name bound)
  | ("unbound symbol", [("name", .text name)]) => some (.unbound name)
  | _ => none

/-- Whether a report is worded as one of an access to the scope. -/
def isTraffic (r : Report) : Bool := r.1 = "set symbol" || r.1 = "get symbol"

/-- The access to the scope that a report tells of. -/
def access? (r : Report) : Option Access := r.event?.bind Event.access?

/-- The name that a report says is bound, and the text of its value. -/
def written? (r : Report) : Option (String × String) := r.event?.bind Event.written?

/-- The name of the kind of the node whose span a report opens. -/
def kind? (r : Report) : Option String := r.event?.bind Event.kind?

end Report

namespace Entry

/-- How an entry is reported. -/
def report (x : Entry) : Report := (x.message, x.fields)

/-- The event that an entry records. -/
def event? : Entry → Option Event
  | enter kind => some (.enter kind.name)
  | exit => some .exit
  | setSymbol name value => some (.set name value.text)
  | getSymbol name bound => some (.get name bound)
  | unboundSymbol name => some (.unbound name)
  | newSession _ | resolved .. | resolutionFailed .. => none

/-- The event that an entry records can be read from its report. -/
lemma event?_report (x : Entry) : x.report.event? = x.event? := by
  cases x <;> rfl

lemma access?_report (x : Entry) : x.report.access? = x.access? := by
  rw [Report.access?, event?_report]
  cases x <;> rfl

/-- A report has the wording of an access exactly if the entry is one. -/
lemma isTraffic_report (x : Entry) : x.report.isTraffic = x.access?.isSome := by
  cases x <;> rfl

lemma report_eq_get_iff {x : Entry} {name : String} {bound : Bool} :
    x.report = ("get symbol", [("name", .text name), ("bound", .flag bound)])
      ↔ x = .getSymbol name bound := by
  cases x <;> simp [report, message, fields]

lemma report_eq_set_iff {x : Entry} {name text : String} :
    x.report = ("set symbol", [("name", .text name), ("value", .text text)])
      ↔ ∃ v, x.binding? = some (name, v) ∧ v.text = text := by
  cases x <;> simp [report, message, fields, binding?]

lemma written?_report (x : Entry) :
    x.report.written? = x.binding?.map (Prod.map id Double.text) := by
  rw [Report.written?, event?_report]
  cases x <;> rfl

end Entry

/-- The bindings of a record, with their values as texts, can be read from its reports. -/
lemma filterMap_written?_report (es : List Entry) :
    (es.map Entry.report).filterMap Report.written?
      = (writes es).map (Prod.map id Double.text) := by
  rw [List.filterMap_map, writes, List.map_filterMap]
  exact congrArg (es.filterMap ·) (funext Entry.written?_report)

/-- The names that a record writes are those that are reported as written. -/
lemma mem_map_report_iff {es : List Entry} {name : String} :
    (∃ text, ("set symbol", [("name", .text name), ("value", .text text)]) ∈ es.map Entry.report)
      ↔ name ∈ (writes es).map Prod.fst := by
  simp only [List.mem_map, Entry.report_eq_set_iff, writes, List.mem_filterMap]
  constructor
  · rintro ⟨text, x, hx, v, hv, rfl⟩
    exact ⟨(name, v), ⟨x, hx, hv⟩, rfl⟩
  · rintro ⟨⟨_, v⟩, ⟨x, hx, hv⟩, rfl⟩
    exact ⟨v.text, x, hx, v, hv, rfl⟩

/-- The accesses of a record can be read from its reports, which tell of no others. -/
lemma map_access?_report (es : List Entry) :
    ((es.map Entry.report).filter Report.isTraffic).map Report.access?
      = (es.filterMap Entry.access?).map some := by
  induction es with
  | nil => rfl
  | cons x es ih =>
      rw [List.map_cons, List.filter_cons, Entry.isTraffic_report]
      cases hx : x.access? with
      | none => simpa [hx] using ih
      | some a => simpa [hx, Entry.access?_report] using ih

end Journal

namespace Expr

/-- The kind with the given name. -/
def Kind.ofName? : String → Option Kind
  | "number" => some number
  | "symbol" => some symbol
  | "binary" => some binary
  | "assign" => some assign
  | _ => none

lemma Kind.ofName?_name (kind : Kind) : ofName? kind.name = some kind := by
  cases kind <;> rfl

end Expr

end Abacus
