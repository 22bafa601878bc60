import Abacus.Evaluation.Resolve

/-!
Sessions: successive evaluations that share one scope.

* `Session`: a scope and the number of evaluations so far.
* `Session.resolve`: one evaluation. It counts whether it succeeds or not, and its outcome is
  recorded after everything that the evaluation itself records.
* `Session.resolveAll`: the evaluations of a list of expressions, one after the other.
-/

namespace Abacus

/-- A scope shared by successive evaluations. -/
structure Session where
  scope : Scope
  resolved : Nat := 0

/-- The entry that records the outcome of an evaluation. -/
def Journal.Entry.ofResult (index : Nat) (root : Expr) : Except EvalError Double → Journal.Entry
  | .ok v => .resolved index root v
  | .error e => .resolutionFailed index root e

namespace Session

/-- The result of an action on a session, the session after it, and the journal. -/
abbrev Step := Except EvalError Double × Session × Journal

/-- Evaluates an expression in the session's scope. -/
def resolve (ar : Arithmetic) (s : Session) (root : Expr) (j : Journal) : Step :=
  let index := s.resolved + 1
  let (result, env) := root.resolve ar ⟨s.scope, j⟩
  (result, ⟨env.scope, index⟩, env.journal.log (.ofResult index root result))

/-- Evaluates a list of expressions, one after the other. -/
def resolveAll (ar : Arithmetic) (s : Session) :
    List Expr → Journal → List (Except EvalError Double) × Session × Journal
  | [], j => ([], s, j)
  | root :: roots, j =>
    let (result, s, j) := s.resolve ar root j
    let (results, s, j) := s.resolveAll ar roots j
    (result :: results, s, j)

@[simp] theorem resolved_resolve (ar : Arithmetic) (s : Session) (root : Expr) (j : Journal) :
    (s.resolve ar root j).2.1.resolved = s.resolved + 1 := rfl

end Session

end Abacus
