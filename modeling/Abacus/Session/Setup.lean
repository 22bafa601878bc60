import Abacus.Session.Basic
import Abacus.HostNumber

/-!
Starting a session.

* `Setup`: how a session is to start, given clause by clause. The scope given last is the one it
  starts with, and the bindings are made in it afterwards, in the order in which they were given.
* `Setup.Clause`: a clause. The filling of a scope is recorded when its clause is applied, also if a
  later clause gives another scope.
* `Session.start`: the session that a list of clauses starts.
* `Session.transcript`: a session from its setup to its last evaluation.
-/

namespace Abacus

/-- How a session is to start. -/
structure Setup where
  scope : Scope := .empty
  bindings : List (String × Double) := []

namespace Setup

/-- Starts from a scope, in place of any scope given before. -/
def withScope (setup : Setup) (scope : Scope) : Setup := { setup with scope }

/-- Adds a binding to those made when the session starts. -/
def withBinding (setup : Setup) (name : String) (value : Double) : Setup :=
  { setup with bindings := setup.bindings ++ [(name, value)] }

/-- Starts the session. -/
def start (setup : Setup) (j : Journal) : Session × Journal :=
  let env := Env.setAll ⟨setup.scope, j⟩ setup.bindings
  (⟨env.scope, 0⟩, env.journal.log (.newSession env.scope.size))

/-- The session starts with the given scope, in which the bindings have been made. -/
@[simp] theorem start_fst (setup : Setup) (j : Journal) :
    (setup.start j).1 = ⟨setup.scope.setAll setup.bindings, 0⟩ := by
  simp [start]

/-- A clause of a session's setup. -/
inductive Clause where
  /-- Adds a binding. -/
  | binding (name : String) (number : HostNumber)
  /-- Starts from a fresh scope filled with bindings. -/
  | scope (bindings : List (String × Double))

/-- What a clause does to the setup and the journal. -/
def Clause.apply (state : Setup × Journal) : Clause → Setup × Journal
  | binding name number => (state.1.withBinding name number.toDouble, state.2)
  | scope bindings =>
    let env := Env.setAll ⟨.empty, state.2⟩ bindings
    (state.1.withScope env.scope, env.journal)

end Setup

namespace Session

/-- Applies the clauses in order, then starts the session. -/
def start (clauses : List Setup.Clause) (j : Journal) : Session × Journal :=
  let (setup, j) := clauses.foldl Setup.Clause.apply ({}, j)
  setup.start j

/-- Starts a session with a journal of the given level and evaluates a list of expressions in it. -/
def transcript (ar : Arithmetic) (level : Journal.Level) (clauses : List Setup.Clause)
    (roots : List Expr) : List (Except EvalError Double) × Session × Journal :=
  let (s, j) := start clauses { level }
  s.resolveAll ar roots j

end Session

end Abacus
