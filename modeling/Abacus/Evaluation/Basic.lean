import Abacus.Journal
import Abacus.Scope

/-!
Evaluation of expressions, stated by recursion on the expression.

* `Env`: what an evaluation works on, the scope and the journal.
* `Env.set`, `Env.get`, `Env.load`: binding, look-up, and the reading of a symbol, each with its
  journal entries.
* `Env.span`: an action between an `enter` and an `exit` entry. The `exit` is recorded whether the
  action succeeds or not.
* `Expr.eval`: the value of an expression. The left operand comes before the right one, the first
  failure ends the evaluation, and what was bound before it stays bound.
-/

namespace Abacus

/-- What an evaluation works on. -/
structure Env where
  scope : Scope
  journal : Journal

/-- The result of an evaluation, and what it leaves behind. -/
abbrev Outcome := Except EvalError Double × Env

namespace Env

/-- Records an entry. -/
def log (env : Env) (e : Journal.Entry) : Env := { env with journal := env.journal.log e }

@[simp] theorem scope_log (env : Env) (e : Journal.Entry) : (env.log e).scope = env.scope := rfl

@[simp] theorem journal_log (env : Env) (e : Journal.Entry) :
    (env.log e).journal = env.journal.log e := rfl

/-- Binds a name. The entry is recorded first. -/
def set (env : Env) (name : String) (value : Double) : Env :=
  let env := env.log (.setSymbol name value)
  { env with scope := env.scope.set name value }

@[simp] theorem scope_set (env : Env) (name : String) (value : Double) :
    (env.set name value).scope = env.scope.set name value := rfl

@[simp] theorem journal_set (env : Env) (name : String) (value : Double) :
    (env.set name value).journal = env.journal.log (.setSymbol name value) := rfl

/-- Binds the names of a list one after the other. -/
def setAll (env : Env) (bs : List (String × Double)) : Env :=
  bs.foldl (fun env b => env.set b.1 b.2) env

@[simp] theorem scope_setAll (env : Env) (bs : List (String × Double)) :
    (env.setAll bs).scope = env.scope.setAll bs := by
  induction bs generalizing env with
  | nil => rfl
  | cons b bs ih => exact ih (env.set b.1 b.2)

/-- Looks a name up. -/
def get (env : Env) (name : String) : Option Double × Env :=
  let found := env.scope.get? name
  (found, env.log (.getSymbol name found.isSome))

/-- Reads a symbol, which fails if it has no value. -/
def load (env : Env) (name : String) : Outcome :=
  let (found, env) := env.get name
  match found with
  | some v => (.ok v, env)
  | none => (.error (.unboundSymbol name), env.log (.unboundSymbol name))

/-- Reading a symbol leaves the scope as it is. -/
@[simp] theorem scope_load (env : Env) (name : String) : (env.load name).2.scope = env.scope := by
  simp only [load, get]
  split <;> rfl

/-- Runs an action between an `enter` and an `exit` entry. -/
def span (env : Env) (kind : Expr.Kind) (action : Env → Outcome) : Outcome :=
  let (result, env) := action (env.log (.enter kind))
  (result, env.log .exit)

end Env

/-- The value of an expression. -/
def Expr.eval (ar : Arithmetic) : Expr → Env → Outcome
  | number x, env => env.span .number fun env => (.ok x, env)
  | symbol name, env => env.span .symbol fun env => env.load name
  | binary op l r, env => env.span .binary fun env =>
    match l.eval ar env with
    | (.error e, env) => (.error e, env)
    | (.ok x, env) =>
      match r.eval ar env with
      | (.error e, env) => (.error e, env)
      | (.ok y, env) => (.ok (op.apply ar x y), env)
  | assign target e, env => env.span .assign fun env =>
    match e.eval ar env with
    | (.error e, env) => (.error e, env)
    | (.ok v, env) => (.ok v, env.set target v)

end Abacus
