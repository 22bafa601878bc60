import Abacus.Session.Setup

/-!
Several sessions side by side.

* `Workspace`: a list of sessions, one of which is current. Sessions are added at the end and
  never removed, so a session keeps its index.
* `Workspace.Command`, `Workspace.Reply`: what can be asked of the current session, and the answer.
* `Workspace.step`: carries out one command. Nothing is recorded here.
-/

namespace Abacus

/-- A list of sessions, one of which is current. -/
structure Workspace where
  sessions : Array Session
  current : Nat
  current_lt : current < sessions.size

namespace Workspace

/-- A request to a workspace. -/
inductive Command where
  /-- Evaluates an expression in the current session. -/
  | resolve (root : Expr)
  /-- Evaluates an expression in the current scope without counting it. -/
  | direct (root : Expr)
  /-- Reads a symbol. -/
  | symbol (name : String)
  /-- Evaluates a number. -/
  | value (number : HostNumber)
  /-- Binds a name. -/
  | set (name : String) (number : HostNumber)
  /-- Looks a name up. -/
  | get (name : String)
  /-- Asks whether a name is bound. -/
  | contains (name : String)
  /-- Lists the bindings. -/
  | bindings
  /-- Starts another session, which becomes the current one. -/
  | new (clauses : List Setup.Clause)
  /-- Starts another session from a copy of the current scope, which becomes the current one. -/
  | fork
  /-- Starts the current session anew from its scope and some bindings. -/
  | restart (bindings : List (String × HostNumber))
  /-- Makes another session current. -/
  | use (index : Nat)

/-- The answer to a command. -/
inductive Reply where
  | result (result : Except EvalError Double)
  | found (value : Option Double)
  | bound (answer : Bool)
  | listing (bindings : List (String × Double))
  | done

/-- A workspace with one session. -/
def start (clauses : List Setup.Clause) : Workspace :=
  ⟨#[(Session.start clauses .silent).1], 0, by simp⟩

/-- The current session. -/
def session (w : Workspace) : Session :=
  have := w.current_lt
  w.sessions[w.current]

/-- Puts a session in place of the current one. -/
def put (w : Workspace) (s : Session) : Workspace :=
  ⟨w.sessions.set w.current s w.current_lt, w.current, by simpa using w.current_lt⟩

/-- Adds a session and makes it current. -/
def add (w : Workspace) (s : Session) : Workspace :=
  ⟨w.sessions.push s, w.sessions.size, by simp⟩

/-- Makes the session with the given index current, if there is one. -/
def use (w : Workspace) (index : Nat) : Workspace :=
  if h : index < w.sessions.size then { w with current := index, current_lt := h } else w

@[simp] theorem session_put (w : Workspace) (s : Session) : (w.put s).session = s := by
  simp [session, put]

@[simp] theorem session_add (w : Workspace) (s : Session) : (w.add s).session = s := by
  simp [session, add]

/-- Puts a scope in place of the current session's, whose count stays. -/
def putScope (w : Workspace) (scope : Scope) : Workspace := w.put { w.session with scope }

/-- Carries out a command. -/
def step (ar : Arithmetic) (w : Workspace) : Command → Reply × Workspace
  | .resolve root =>
    let (result, s, _) := w.session.resolve ar root .silent
    (.result result, w.put s)
  | .direct root =>
    let (result, env) := root.resolve ar ⟨w.session.scope, .silent⟩
    (.result result, w.putScope env.scope)
  | .symbol name => (.result (Env.load ⟨w.session.scope, .silent⟩ name).1, w)
  | .value number => (.result (.ok number.toDouble), w)
  | .set name number =>
    (.result (.ok number.toDouble), w.putScope (w.session.scope.set name number.toDouble))
  | .get name => (.found (w.session.scope.get? name), w)
  | .contains name => (.bound (w.session.scope.contains name), w)
  | .bindings => (.listing w.session.scope.bindings, w)
  | .new clauses => (.done, w.add (Session.start clauses .silent).1)
  | .fork => (.done, w.add ((Setup.withScope {} w.session.scope).start .silent).1)
  | .restart bindings =>
    let setup := bindings.foldl (fun setup b => setup.withBinding b.1 b.2.toDouble)
      (Setup.withScope {} w.session.scope)
    (.done, w.put (setup.start .silent).1)
  | .use index => (.done, w.use index)

end Workspace

end Abacus
