import Mathlib.Tactic.Common
import Abacus.Proofs.Journal.Traffic

/-!
The journal on its three levels.

What is recorded has no influence on what is computed, and each level keeps a part of what the level
below it keeps.

* `Evaluates.filter_debug`: on the level `debug` an evaluation leaves a trace only if it fails, and
  then one entry, for the symbol that fails.
* `Session.outcomeReport`: what is reported of an evaluation with its outcome. A run of evaluations
  is reported one after the other (`exists_resolveAll_eq`), whatever journal it is recorded in.
* `Session.transcript_levels`: what this says of the logs of a session.
-/

namespace Abacus

open Journal

namespace Journal

/-- Whether an entry is of the level `debug`. -/
def Entry.isDebug (x : Entry) : Bool := x.level = .debug

lemma Level.includes_info (x : Entry) : Level.info.includes x.level = false := by
  cases x <;> rfl

lemma Level.includes_debug (x : Entry) : Level.debug.includes x.level = x.isDebug := by
  cases x <;> rfl

/-- On the highest level nothing is kept. -/
lemma toList_entries_logAll_info (es : List Entry) :
    ((⟨.info, #[]⟩ : Journal).logAll es).entries.toList = [] := by
  rw [toList_entries_logAll]
  simp [Level.includes_info]

/-- On the middle level the entries of that level are kept. -/
lemma toList_entries_logAll_debug (es : List Entry) :
    ((⟨.debug, #[]⟩ : Journal).logAll es).entries.toList = es.filter Entry.isDebug := by
  rw [toList_entries_logAll]
  simp [Level.includes_debug]

lemma filter_debug_span (kind : Expr.Kind) (inner : List Entry) :
    (span kind inner).filter Entry.isDebug = inner.filter Entry.isDebug := by
  have henter : ¬ (Entry.enter kind).isDebug = true := Bool.false_ne_true
  have hexit : ¬ Entry.exit.isDebug = true := Bool.false_ne_true
  rw [span, List.filter_cons_of_neg henter, List.filter_append, List.filter_cons_of_neg hexit,
    List.filter_nil, List.append_nil]

lemma filter_debug_settings (bs : List (String × Double)) :
    (settings bs).filter Entry.isDebug = [] := by
  rw [List.filter_eq_nil_iff]
  intro x hx
  obtain ⟨b, -, rfl⟩ := List.mem_map.mp hx
  exact Bool.false_ne_true

/-- The entry for the symbol that fails, if there is one. -/
def ofFailure : Except EvalError Double → List Entry
  | .ok _ => []
  | .error (.unboundSymbol name) => [.unboundSymbol name]

end Journal

/-- However deep the symbol stands that fails, it is recorded once, and nothing else is. -/
lemma Evaluates.filter_debug {ar : Arithmetic} {e : Expr} {s s' : Scope}
    {r : Except EvalError Double} {es : List Entry} (h : Evaluates ar e s r s' es) :
    es.filter Entry.isDebug = ofFailure r := by
  induction h with
  | number x s => rfl
  | bound found => rfl
  | unbound missing => rfl
  | leftFails op r left ih => rw [filter_debug_span, ih]
  | rightFails op left right ihl ihr =>
      rw [filter_debug_span, List.filter_append, ihl, ihr]
      rfl
  | applies op left right ihl ihr =>
      rw [filter_debug_span, List.filter_append, ihl, ihr]
      rfl
  | valueFails target value ih => rw [filter_debug_span, ih]
  | stores target value ih =>
      rw [filter_debug_span, List.filter_append, ih]
      rfl

namespace Session

/-- What is reported of the evaluation with the given index: its value, or the symbol that is
unbound and then the failure. -/
def outcomeReport (index : ℕ) (root : Expr) :
    Except EvalError Double → List Report
  | .ok v =>
    [("resolved",
      [("index", .count index), ("root", .text root.render), ("value", .text v.text)])]
  | .error (.unboundSymbol name) =>
    [("unbound symbol", [("name", .text name)]),
      ("resolution failed",
        [("index", .count index), ("root", .text root.render),
          ("err", .text (EvalError.unboundSymbol name).message)])]

/-- What is reported of the evaluations with successive indices, from the given one on. -/
def outcomeReports (index : ℕ) (roots : List Expr) (results : List (Except EvalError Double)) :
    List Report :=
  ((roots.zip results).zipIdx index).flatMap fun x => outcomeReport x.2 x.1.1 x.1.2

lemma outcomeReports_cons (index : ℕ) (root : Expr) (roots : List Expr)
    (r : Except EvalError Double) (results : List (Except EvalError Double)) :
    outcomeReports index (root :: roots) (r :: results)
      = outcomeReport index root r ++ outcomeReports (index + 1) roots results := rfl

/-- An evaluation of a session is reported with its outcome. -/
lemma map_report_of_evaluates {ar : Arithmetic} {root : Expr} {s s' : Scope}
    {r : Except EvalError Double} {es : List Entry} (h : Evaluates ar root s r s' es)
    (index : ℕ) :
    ((es ++ [Entry.ofResult index root r]).filter Entry.isDebug).map Entry.report
      = outcomeReport index root r := by
  rw [List.filter_append, h.filter_debug]
  rcases r with ⟨⟨name⟩⟩ | v <;> rfl

/-- A run of evaluations does the same whatever journal it is recorded in, and its outcomes are
reported in order. -/
lemma exists_resolveAll_eq (ar : Arithmetic) (s : Session) (roots : List Expr) :
    ∃ results s' es, (∀ j, s.resolveAll ar roots j = (results, s', j.logAll es))
      ∧ results.length = roots.length
      ∧ (es.filter Entry.isDebug).map Entry.report
          = outcomeReports (s.resolved + 1) roots results := by
  induction roots generalizing s with
  | nil => exact ⟨[], s, [], fun j => rfl, rfl, rfl⟩
  | cons root roots ih =>
      obtain ⟨r, t, es, h⟩ := exists_evaluates ar root s.scope
      obtain ⟨results, s', es', hrest, hlength, hreport⟩ := ih ⟨t, s.resolved + 1⟩
      refine ⟨r :: results, s', (es ++ [.ofResult (s.resolved + 1) root r]) ++ es', ?_, ?_, ?_⟩
      · intro j
        rw [resolveAll_cons_of_evaluates h, hrest, ← logAll_append]
      · rw [List.length_cons, List.length_cons, hlength]
      · rw [List.filter_append, List.map_append, map_report_of_evaluates h, hreport,
          outcomeReports_cons]

/-- The log of a session of the given level. -/
def log (ar : Arithmetic) (level : Journal.Level) (clauses : List Setup.Clause) (roots : List Expr) :
    List Entry :=
  (transcript ar level clauses roots).2.2.entries.toList

/-- A session does the same on every level, and what it records is the same up to what the level
keeps of it: its start, then the outcomes of its evaluations. -/
lemma exists_transcript_eq (ar : Arithmetic) (clauses : List Setup.Clause) (roots : List Expr) :
    ∃ results s es,
      (∀ level, transcript ar level clauses roots
        = (results, s, (⟨level, #[]⟩ : Journal).logAll es))
      ∧ results.length = roots.length
      ∧ (es.filter Entry.isDebug).map Entry.report
          = ("new session", [("bindings", .count (startScope clauses).size)])
            :: outcomeReports 1 roots results := by
  obtain ⟨scope, bs, hstart⟩ := exists_start_eq clauses
  obtain ⟨results, s, es, hresolve, hlength, hreport⟩ := exists_resolveAll_eq ar ⟨scope, 0⟩ roots
  refine ⟨results, s, settings bs ++ [.newSession scope.size] ++ es, ?_, hlength, ?_⟩
  · intro level
    simp only [transcript, hstart, hresolve]
    rw [← logAll_append]
  · rw [List.filter_append, List.filter_append, filter_debug_settings, List.map_append, hreport,
      startScope, hstart]
    rfl

/-- **Logging does not influence evaluation.** On every level a session gives the same results and
ends in the same state. The log of the level `info` is empty, and that of the level `debug` has the
entries of this level of the full log: the start of the session with the number of names that are
bound then, and for each evaluation in order either its value or the one symbol that is unbound and
then the failure, each with the index and the text of the expression. -/
theorem transcript_levels (ar : Arithmetic) (clauses : List Setup.Clause) (roots : List Expr) :
    (∀ level level',
      (transcript ar level clauses roots).1 = (transcript ar level' clauses roots).1
      ∧ (transcript ar level clauses roots).2.1 = (transcript ar level' clauses roots).2.1)
    ∧ log ar .info clauses roots = []
    ∧ log ar .debug clauses roots = (log ar .trace clauses roots).filter (·.level = .debug)
    ∧ (transcript ar .trace clauses roots).1.length = roots.length
    ∧ (log ar .debug clauses roots).map (fun x => (x.message, x.fields))
        = ("new session", [("bindings", .count (startScope clauses).names.card)])
          :: outcomeReports 1 roots (transcript ar .trace clauses roots).1 := by
  obtain ⟨results, s, es, htranscript, hlength, hreport⟩ := exists_transcript_eq ar clauses roots
  have hlog : ∀ level, log ar level clauses roots
      = ((⟨level, #[]⟩ : Journal).logAll es).entries.toList := by
    intro level
    rw [log, htranscript]
  refine ⟨fun level level' => ?_, ?_, ?_, ?_, ?_⟩
  · rw [htranscript, htranscript]
    exact ⟨rfl, rfl⟩
  · rw [hlog, toList_entries_logAll_info]
  · rw [hlog, hlog, toList_entries_logAll_debug, toList_entries_logAll_trace rfl]
    rfl
  · rw [htranscript, hlength]
  · rw [hlog, toList_entries_logAll_debug, htranscript, Scope.card_names]
    exact hreport

end Session

end Abacus
