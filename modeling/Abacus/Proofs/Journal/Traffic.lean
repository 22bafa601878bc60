import Mathlib.Tactic.Common
import Abacus.Session.Setup
import Abacus.Proofs.Journal.Report

/-!
The journal as a record of the traffic with the scope.

* `Records`: what a record says of the traffic with the scope. It leads from one scope to another,
  and has the accesses of the given nodes. `Session.records_resolve` shows this of the record of one
  evaluation and `Session.records_resolveAll` of that of a list of them.
* `Session.exists_start_eq`: a setup records bindings, and then the start of the session.
* `Session.reports`: what is reported of a session after its start. These are the reports of the
  record of its evaluations (`Session.exists_reports_eq`).
* `Session.transcript_traffic`: what can be read from these reports.
-/

namespace Abacus

open Journal

/-! ### The evaluations of a session -/

/-- What a record says: it leads from one scope to another, and has one access for each access of
the given nodes. -/
structure Records (s s' : Scope) (ns : List Node) (es : List Entry) : Prop where
  follows : s.followAll es = some s'
  accesses : es.filterMap Entry.access? = ns.filterMap Node.access?

lemma Records.append {s s' s'' : Scope} {ns ns' : List Node} {es es' : List Entry}
    (h : Records s s' ns es) (h' : Records s' s'' ns' es') :
    Records s s'' (ns ++ ns') (es ++ es') where
  follows := by rw [Scope.followAll_append, h.follows, Option.bind_some, h'.follows]
  accesses := by rw [List.filterMap_append, List.filterMap_append, h.accesses, h'.accesses]

namespace Session

/-- The nodes that the evaluations of a list of expressions visit, one after the other. -/
def visits (ar : Arithmetic) : Scope → List Expr → List Node
  | _, [] => []
  | s, root :: roots =>
    root.visited ar s ++ visits ar (root.resolve ar ⟨s, .silent⟩).2.scope roots

/-- A session's evaluation follows the rules, and its outcome is recorded after it. -/
lemma resolve_eq_of_evaluates {ar : Arithmetic} {s : Session} {root : Expr}
    {r : Except EvalError Double} {s' : Scope} {es : List Entry}
    (h : Evaluates ar root s.scope r s' es) (j : Journal) :
    s.resolve ar root j = (r, ⟨s', s.resolved + 1⟩,
      j.logAll (es ++ [.ofResult (s.resolved + 1) root r])) := by
  rw [resolve, h.resolve_eq, logAll_append]
  rfl

/-- The first of a session's evaluations, and those that follow it. -/
lemma resolveAll_cons_of_evaluates {ar : Arithmetic} {s : Session} {root : Expr}
    {r : Except EvalError Double} {s' : Scope} {es : List Entry}
    (h : Evaluates ar root s.scope r s' es) (roots : List Expr) (j : Journal) :
    s.resolveAll ar (root :: roots) j
      = (r :: (resolveAll ar ⟨s', s.resolved + 1⟩ roots
            (j.logAll (es ++ [.ofResult (s.resolved + 1) root r]))).1,
          (resolveAll ar ⟨s', s.resolved + 1⟩ roots
            (j.logAll (es ++ [.ofResult (s.resolved + 1) root r]))).2) := by
  rw [resolveAll, resolve_eq_of_evaluates h]

/-- One evaluation of a session, whether it fails or not. -/
lemma records_resolve (ar : Arithmetic) (s : Session) (root : Expr) (j : Journal) :
    (s.resolve ar root j).2.1.scope = (root.resolve ar ⟨s.scope, .silent⟩).2.scope
    ∧ ∃ es, (s.resolve ar root j).2.2 = j.logAll es
        ∧ Records s.scope (s.resolve ar root j).2.1.scope (root.visited ar s.scope) es := by
  obtain ⟨r, s', es, h⟩ := exists_evaluates ar root s.scope
  -- the entry that ends the record neither reads nor writes
  have hend : Records s' s' [] [.ofResult (s.resolved + 1) root r] := by
    rcases r with _ | _ <;> exact ⟨rfl, rfl⟩
  have hrecords : Records s.scope s' (root.visited ar s.scope) es :=
    ⟨h.followAll_eq, h.filterMap_access? [] []⟩
  rw [resolve_eq_of_evaluates h, h.resolve_eq]
  refine ⟨rfl, _, rfl, ?_⟩
  rw [← List.append_nil (root.visited ar s.scope)]
  exact hrecords.append hend

/-- The evaluations of a list of expressions. -/
lemma records_resolveAll (ar : Arithmetic) (s : Session) (roots : List Expr) (j : Journal) :
    ∃ es, (s.resolveAll ar roots j).2.2 = j.logAll es
      ∧ Records s.scope (s.resolveAll ar roots j).2.1.scope (visits ar s.scope roots) es := by
  induction roots generalizing s j with
  | nil => exact ⟨[], rfl, rfl, rfl⟩
  | cons root roots ih =>
      obtain ⟨hscope, es, hlog, hrecords⟩ := records_resolve ar s root j
      obtain ⟨es', hlog', hrecords'⟩ :=
        ih (s.resolve ar root j).2.1 (s.resolve ar root j).2.2
      refine ⟨es ++ es', ?_, ?_⟩
      · rw [logAll_append, ← hlog, ← hlog']
        rfl
      · rw [visits, ← hscope]
        exact hrecords.append hrecords'

end Session

/-! ### The start of a session -/

/-- The entries that bindings record. -/
def Journal.settings (bs : List (String × Double)) : List Entry :=
  bs.map fun b => .setSymbol b.1 b.2

lemma Env.setAll_eq (s : Scope) (j : Journal) (bs : List (String × Double)) :
    Env.setAll ⟨s, j⟩ bs = ⟨s.setAll bs, j.logAll (settings bs)⟩ := by
  induction bs generalizing s j with
  | nil => rfl
  | cons b bs ih => exact ih (s.set b.1 b.2) (j.log (.setSymbol b.1 b.2))

/-- The clauses of a setup record nothing but bindings, and do the same whatever journal they are
recorded in. -/
lemma Setup.exists_apply_eq (clauses : List Clause) (setup : Setup) :
    ∃ setup' bs, ∀ j, clauses.foldl Clause.apply (setup, j) = (setup', j.logAll (settings bs)) := by
  induction clauses generalizing setup with
  | nil => exact ⟨setup, [], fun j => rfl⟩
  | cons clause clauses ih =>
      cases clause with
      | binding name number =>
          obtain ⟨setup', bs, h⟩ := ih (setup.withBinding name number.toDouble)
          exact ⟨setup', bs, h⟩
      | scope bs =>
          obtain ⟨setup', bs', h⟩ := ih (setup.withScope (Scope.empty.setAll bs))
          refine ⟨setup', bs ++ bs', fun j => ?_⟩
          rw [List.foldl_cons, Clause.apply, Env.setAll_eq, h, settings, settings, settings,
            List.map_append, logAll_append]

namespace Session

/-- The start of a session is recorded last of all that its setup records. -/
lemma exists_start_eq (clauses : List Setup.Clause) :
    ∃ scope bs, ∀ j, start clauses j
      = (⟨scope, 0⟩, j.logAll (settings bs ++ [.newSession scope.size])) := by
  obtain ⟨setup, bs, h⟩ := Setup.exists_apply_eq clauses {}
  refine ⟨setup.scope.setAll setup.bindings, bs ++ setup.bindings, fun j => ?_⟩
  have hsettings : settings (bs ++ setup.bindings) = settings bs ++ settings setup.bindings :=
    List.map_append
  simp only [start, h, Setup.start]
  rw [Env.setAll_eq, hsettings, logAll_append, logAll_append]
  rfl

/-- The scope that a session starts with. -/
def startScope (clauses : List Setup.Clause) : Scope := (start clauses { level := .trace }).1.scope

/-- The reports that follow the first one of the start of a session. -/
def sinceStart (rs : List Report) : List Report := (rs.dropWhile (·.1 ≠ "new session")).tail

/-- All that is reported of a session after its start. -/
def reports (ar : Arithmetic) (clauses : List Setup.Clause) (roots : List Expr) : List Report :=
  sinceStart ((transcript ar .trace clauses roots).2.2.entries.toList.map Entry.report)

/-- What follows the bindings and the start of a session is what is reported after its start. -/
lemma sinceStart_append (bs : List (String × Double)) (n : ℕ) (rs : List Report) :
    sinceStart ((settings bs ++ [Entry.newSession n]).map Entry.report ++ rs) = rs := by
  have hbindings : ∀ r ∈ (settings bs).map Entry.report, decide (r.1 ≠ "new session") = true := by
    intro r hr
    simp only [settings, List.map_map, List.mem_map] at hr
    obtain ⟨b, -, rfl⟩ := hr
    rfl
  rw [sinceStart, List.map_append, List.append_assoc, List.dropWhile_append_of_pos hbindings]
  rfl

/-- What is reported of a session after its start leads from the scope that it starts with to the
scope that it ends with. -/
lemma exists_reports_eq (ar : Arithmetic) (clauses : List Setup.Clause) (roots : List Expr) :
    ∃ es, reports ar clauses roots = es.map Entry.report
      ∧ Records (startScope clauses) (transcript ar .trace clauses roots).2.1.scope
          (visits ar (startScope clauses) roots) es := by
  obtain ⟨scope, bs, hstart⟩ := exists_start_eq clauses
  obtain ⟨es, hlog, hrecords⟩ := records_resolveAll ar (start clauses { level := .trace }).1 roots
    (start clauses { level := .trace }).2
  refine ⟨es, ?_, hrecords⟩
  rw [reports, transcript, hlog, hstart, ← logAll_append, toList_entries_logAll_trace rfl]
  change sinceStart (List.map Entry.report (_ ++ es)) = _
  rw [List.map_append, sinceStart_append]

/-- **The log is a complete and truthful record of the traffic with the scope.** Whatever the setup
of a session and whichever of its evaluations fail, the reports after its start that are worded as
accesses are one for each symbol visited and each assignment completed, in the order of evaluation,
with its name. A look-up is reported as bound exactly if the name was bound at the start or is
reported as written before. The texts reported as written, over those of the values at the start,
are those of the values at the end. -/
theorem transcript_traffic (ar : Arithmetic) (clauses : List Setup.Clause) (roots : List Expr) :
    ((reports ar clauses roots).filter Report.isTraffic).map Report.access?
      = ((visits ar (startScope clauses) roots).filterMap Node.access?).map some
    ∧ (∀ before name bound after,
        reports ar clauses roots
          = before ++ ("get symbol", [("name", .text name), ("bound", .flag bound)]) :: after →
        (bound = true ↔ (startScope clauses).contains name = true
          ∨ ∃ text, ("set symbol", [("name", .text name), ("value", .text text)]) ∈ before))
    ∧ Scope.overwrite (startScope clauses).texts
        ((reports ar clauses roots).filterMap Report.written?)
      = (transcript ar .trace clauses roots).2.1.scope.texts := by
  obtain ⟨es, hreports, hrecords⟩ := exists_reports_eq ar clauses roots
  rw [hreports]
  refine ⟨?_, fun before name bound after hsplit => ?_, ?_⟩
  · rw [map_access?_report, hrecords.accesses]
  · obtain ⟨es₁, rest, rfl, rfl, hrest⟩ := List.map_eq_append_iff.mp hsplit
    obtain ⟨x, es₂, rfl, hx, -⟩ := List.map_eq_cons_iff.mp hrest
    obtain ⟨t, t', hbefore, hget⟩ := Scope.exists_follow_of_followAll hrecords.follows
    rw [Entry.report_eq_get_iff.mp hx, Scope.follow] at hget
    split_ifs at hget with hbound
    rw [hbound, Scope.eq_setAll_of_followAll hbefore, Scope.contains_setAll, mem_map_report_iff]
  · rw [filterMap_written?_report, ← Scope.texts_setAll,
      ← Scope.eq_setAll_of_followAll hrecords.follows]

/-- An assignment whose evaluation is followed by a failure, and a look-up of its target. -/
def failureAfterWrite : List Expr :=
  [.binary .add (.assign "y" (.symbol "x")) (.symbol "z"), .symbol "y"]

/-- The theorem at a session whose first evaluation writes a name and then fails, and whose second
one looks the name up. -/
theorem transcript_traffic_after_failure :
    (startScope [.binding "x" (.bool true)]).contains "y" = false
    ∧ ∃ before after,
        reports .ieee [.binding "x" (.bool true)] failureAfterWrite
          = before ++ ("get symbol", [("name", .text "y"), ("bound", .flag true)]) :: after
        ∧ ∃ text, ("set symbol", [("name", .text "y"), ("value", .text text)]) ∈ before := by
  have hunbound : (startScope [.binding "x" (.bool true)]).contains "y" = false := by
    decide +kernel
  have hlog : reports .ieee [.binding "x" (.bool true)] failureAfterWrite
      = (reports .ieee [.binding "x" (.bool true)] failureAfterWrite).take 14
        ++ ("get symbol", [("name", .text "y"), ("bound", .flag true)])
          :: (reports .ieee [.binding "x" (.bool true)] failureAfterWrite).drop 15 := by
    decide +kernel
  refine ⟨hunbound, _, _, hlog, ?_⟩
  have hbound := (transcript_traffic .ieee _ _).2.1 _ _ _ _ hlog
  refine (hbound.mp rfl).resolve_left ?_
  rw [hunbound]
  exact Bool.false_ne_true

end Session

end Abacus
