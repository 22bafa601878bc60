import Mathlib.Tactic.Common
import Abacus.Evaluation.Resolve

/-!
Evaluation as the run of a stack machine.

An expression is laid out in post-order, each node after its operands, and the layout is the
program of a machine with an operand stack and a scope.

* `Instruction`, `Expr.code`: the instructions, and the post-order code of an expression.
* `Machine`, `Instruction.exec`, `Machine.run`: the machine. A load of an unbound name stops it,
  and an instruction that finds too few operands is an underflow, an ending of its own.
* `run_code_append`: the code of an expression, before any further code and over any operand
  stack, does what evaluation does; it either leaves the value on top of the stack or stops.
* `run_eq_stopped_iff`: a machine stops where a load finds its name unbound and all the code
  before it has run.
* `resolve_iff_run_code`: evaluation and the machine agree on values, on failures and on the scope
  they leave, whatever the arithmetic operations compute.
-/

namespace Abacus

/-- An instruction of the stack machine. -/
inductive Instruction where
  /-- Puts a number on the stack. -/
  | push (value : Double)
  /-- Puts the value of a name on the stack. -/
  | load (name : String)
  /-- Takes the right and then the left operand from the stack, and puts the result on it. -/
  | apply (op : Operator)
  /-- Binds a name to the value on top of the stack, which stays there. -/
  | store (target : String)
deriving DecidableEq

/-- The post-order code of an expression. -/
def Expr.code : Expr → List Instruction
  | number x => [.push x]
  | symbol name => [.load name]
  | binary op l r => l.code ++ r.code ++ [.apply op]
  | assign target e => e.code ++ [.store target]

/-- A state of the machine. -/
structure Machine where
  stack : List Double
  scope : Scope

namespace Machine

/-- How the machine ends. -/
inductive Ending where
  /-- All the code has run. -/
  | finished (m : Machine)
  /-- A load has found its name unbound. -/
  | stopped (name : String) (scope : Scope)
  /-- An instruction has found too few operands. -/
  | underflow

end Machine

/-- What one instruction does. -/
def Instruction.exec (ar : Arithmetic) : Instruction → Machine → Machine.Ending
  | push x, m => .finished ⟨x :: m.stack, m.scope⟩
  | load name, m =>
    match m.scope.get? name with
    | some v => .finished ⟨v :: m.stack, m.scope⟩
    | none => .stopped name m.scope
  | apply op, ⟨y :: x :: stack, scope⟩ => .finished ⟨op.apply ar x y :: stack, scope⟩
  | store target, ⟨v :: stack, scope⟩ => .finished ⟨v :: stack, scope.set target v⟩
  | apply _, _ | store _, _ => .underflow

namespace Machine

/-- Runs code to its end, or to the first instruction that does not finish. -/
def run (ar : Arithmetic) : List Instruction → Machine → Ending
  | [], m => .finished m
  | i :: code, m =>
    match i.exec ar m with
    | .finished m => run ar code m
    | .stopped name scope => .stopped name scope
    | .underflow => .underflow

/-- Hands the outcome of an evaluation to the code that follows. -/
def resume (ar : Arithmetic) (code : List Instruction) (stack : List Double) : Outcome → Ending
  | (.ok v, env) => run ar code ⟨v :: stack, env.scope⟩
  | (.error (.unboundSymbol name), env) => .stopped name env.scope

/-- The code of an expression runs like its evaluation, over any stack and before any code. -/
lemma run_code_append (ar : Arithmetic) (e : Expr) (code : List Instruction)
    (stack : List Double) (env : Env) :
    run ar (e.code ++ code) ⟨stack, env.scope⟩ = resume ar code stack (e.eval ar env) := by
  induction e generalizing code stack env with
  | number x => rfl
  | symbol name =>
      rw [Expr.code, List.singleton_append, run, Instruction.exec, Expr.eval, Env.span, Env.load,
        Env.get, Env.scope_log]
      cases env.scope.get? name <;> rfl
  | binary op l r ihl ihr =>
      rw [Expr.code, List.append_assoc, List.append_assoc, ← Env.scope_log env (.enter .binary),
        ihl, Expr.eval, Env.span]
      rcases l.eval ar (env.log (.enter .binary)) with ⟨cause | x, env⟩
      · rfl
      · -- the left value is on the stack: the right operand runs over it
        simp only [resume]
        rw [ihr]
        rcases r.eval ar env with ⟨cause | y, env⟩ <;> rfl
  | assign target e ih =>
      rw [Expr.code, List.append_assoc, ← Env.scope_log env (.enter .assign), ih, Expr.eval,
        Env.span]
      rcases e.eval ar (env.log (.enter .assign)) with ⟨cause | v, env⟩ <;> rfl

/-- The code of an expression alone. -/
lemma run_code (ar : Arithmetic) (e : Expr) (stack : List Double) (env : Env) :
    run ar e.code ⟨stack, env.scope⟩ = resume ar [] stack (e.resolve ar env) := by
  rw [Expr.resolve_eq_eval, ← run_code_append, List.append_nil]

/-- Code that runs to its end does its first instruction and then the rest. -/
lemma exists_exec_of_run_cons {ar : Arithmetic} {i : Instruction}
    {code : List Instruction} {m m' : Machine} (h : run ar (i :: code) m = .finished m') :
    ∃ m₁, i.exec ar m = .finished m₁ ∧ run ar code m₁ = .finished m' := by
  rw [run] at h
  cases hexec : i.exec ar m with
  | finished m₁ =>
      rw [hexec] at h
      exact ⟨m₁, rfl, h⟩
  | stopped name scope => simp [hexec] at h
  | underflow => simp [hexec] at h

/-- Code that runs to its end runs through its first part to the rest. -/
lemma exists_run_of_run_append {ar : Arithmetic} {code code' : List Instruction}
    {m m' : Machine} (h : run ar (code ++ code') m = .finished m') :
    ∃ m₁, run ar code m = .finished m₁ ∧ run ar code' m₁ = .finished m' := by
  induction code generalizing m with
  | nil => exact ⟨m, rfl, h⟩
  | cons i code ih =>
      obtain ⟨m₁, hexec, hrest⟩ := exists_exec_of_run_cons h
      obtain ⟨m₂, hcode, hcode'⟩ := ih hrest
      refine ⟨m₂, ?_, hcode'⟩
      rw [run, hexec]
      exact hcode

/-- Only a load stops the machine, and only where its name is unbound. -/
lemma exec_eq_stopped_iff {ar : Arithmetic} {i : Instruction} {m : Machine} {name : String}
    {scope : Scope} :
    i.exec ar m = .stopped name scope ↔
      i = .load name ∧ m.scope.get? name = none ∧ m.scope = scope := by
  fun_cases Instruction.exec ar i m with
  | case2 _ _ _ hsome =>
      constructor
      · exact fun h => nomatch h
      · rintro ⟨⟨⟩, hnone, -⟩
        rw [hsome] at hnone
        cases hnone
  | case3 _ _ hnone =>
      simp only [Ending.stopped.injEq, Instruction.load.injEq]
      constructor
      · rintro ⟨rfl, rfl⟩
        exact ⟨rfl, hnone, rfl⟩
      · rintro ⟨rfl, -, rfl⟩
        exact ⟨rfl, rfl⟩
  | _ => simp

/-- Code stops at its first instruction, or does it and stops later. -/
lemma run_cons_eq_stopped_iff {ar : Arithmetic} {i : Instruction} {code : List Instruction}
    {m : Machine} {name : String} {scope : Scope} :
    run ar (i :: code) m = .stopped name scope ↔
      i.exec ar m = .stopped name scope
      ∨ ∃ m', i.exec ar m = .finished m' ∧ run ar code m' = .stopped name scope := by
  rw [run]
  cases i.exec ar m <;> simp

/-- The machine stops where a load finds its name unbound and all the code before it has run; the
scope is the one that this code leaves. -/
lemma run_eq_stopped_iff {ar : Arithmetic} {code : List Instruction} {m : Machine}
    {name : String} {scope : Scope} :
    run ar code m = .stopped name scope ↔
      ∃ before after m', code = before ++ .load name :: after
        ∧ run ar before m = .finished m' ∧ m'.scope.get? name = none ∧ m'.scope = scope := by
  induction code generalizing m with
  | nil => simp [run]
  | cons i code ih =>
      rw [run_cons_eq_stopped_iff, exec_eq_stopped_iff]
      constructor
      · rintro (⟨rfl, hnone, hscope⟩ | ⟨m', hexec, hrun⟩)
        · exact ⟨[], code, m, rfl, rfl, hnone, hscope⟩
        · obtain ⟨before, after, m'', rfl, hbefore, hend⟩ := ih.mp hrun
          exact ⟨i :: before, after, m'', rfl, by rw [run, hexec]; exact hbefore, hend⟩
      · rintro ⟨before, after, m', hcode, hbefore, hend⟩
        cases before with
        | nil =>
            cases hcode
            cases hbefore
            exact Or.inl ⟨rfl, hend⟩
        | cons j before =>
            cases hcode
            rw [run] at hbefore
            cases hexec : i.exec ar m with
            | finished m'' =>
                rw [hexec] at hbefore
                exact Or.inr ⟨m'', rfl, ih.mpr ⟨before, after, m', rfl, hbefore, hend⟩⟩
            | stopped => simp [hexec] at hbefore
            | underflow => simp [hexec] at hbefore

/-- What the machine makes of an outcome when no code follows, case by case. -/
lemma resume_nil_cases (ar : Arithmetic) (stack : List Double) (o : Outcome) :
    (∃ v, o.1 = .ok v ∧ resume ar [] stack o = .finished ⟨v :: stack, o.2.scope⟩)
    ∨ ∃ name, o.1 = .error (.unboundSymbol name) ∧
        resume ar [] stack o = .stopped name o.2.scope := by
  rcases o with ⟨⟨⟨name⟩⟩ | v, env⟩
  · exact Or.inr ⟨name, rfl, rfl⟩
  · exact Or.inl ⟨v, rfl, rfl⟩

/-- **Evaluation is the run of the post-order code.** Over any operand stack the machine never
underflows. It finishes with a value on top of the stack exactly when evaluation has this value,
and stops at the load of a name exactly when evaluation fails for this name, and both leave the
same scope. The machine stops at the first load that fails: the code before it has run and nothing
after it takes effect. Nothing is asked of the arithmetic operations. -/
theorem resolve_iff_run_code (ar : Arithmetic) (e : Expr) (env : Env) (stack : List Double) :
    run ar e.code ⟨stack, env.scope⟩ ≠ .underflow
    ∧ (∀ v scope, (e.resolve ar env).1 = .ok v ∧ (e.resolve ar env).2.scope = scope ↔
        run ar e.code ⟨stack, env.scope⟩ = .finished ⟨v :: stack, scope⟩)
    ∧ (∀ name scope, (e.resolve ar env).1 = .error (.unboundSymbol name)
        ∧ (e.resolve ar env).2.scope = scope ↔
        run ar e.code ⟨stack, env.scope⟩ = .stopped name scope)
    ∧ (∀ name scope, run ar e.code ⟨stack, env.scope⟩ = .stopped name scope ↔
        ∃ before after m, e.code = before ++ .load name :: after
          ∧ run ar before ⟨stack, env.scope⟩ = .finished m
          ∧ m.scope.get? name = none ∧ m.scope = scope) := by
  refine ⟨?_, ?_, ?_, fun name scope => run_eq_stopped_iff⟩
  all_goals
    rw [run_code]
    rcases resume_nil_cases ar stack (e.resolve ar env) with
      ⟨v, hresult, hrun⟩ | ⟨name, hresult, hrun⟩
    all_goals
      rw [hrun]
      simp [hresult]

end Machine

end Abacus
