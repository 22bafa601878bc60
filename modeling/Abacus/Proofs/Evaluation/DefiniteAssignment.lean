import Mathlib.Tactic.Common
import Abacus.Proofs.Evaluation.Footprint

/-!
Which evaluations fail.

A read misses its name if the name is not bound in the scope that the evaluation starts in and no
assignment to it comes before the read in post-order. Whether an evaluation fails, and for which
name, is read off the accesses of its expression and the bound names of its scope.

* `Misses`, `FirstMiss`: a read that misses its name, and the first one that does.
* `Machine.contains_of_run`: after code has run, those names are bound that were bound before and
  those that it stores.
* `Machine.not_misses_of_run`: in code that runs to its end no load misses its name.
* `resolve_eq_error_iff`: an evaluation fails for the name of the first read that misses.
* `Expr.withoutNumbers`: what is left of an expression when its numbers are forgotten.
* `Expr.resolve_fails_iff_misses`: what this says of every evaluation.
-/

namespace Abacus

open Journal

/-- After some accesses a read misses its name if the name is not bound in the scope that they
started in and none of them writes it. -/
def Misses (s : Scope) (before : List Access) (name : String) : Prop :=
  s.contains name = false ∧ .write name ∉ before

/-- Among some accesses, the first read that misses its name is one of this name. -/
def FirstMiss (s : Scope) (as : List Access) (name : String) : Prop :=
  ∃ before after, as = before ++ .read name :: after ∧ Misses s before name
    ∧ ∀ before' name' after', before = before' ++ .read name' :: after' → ¬ Misses s before' name'

/-- There is only one first read that misses its name. -/
lemma FirstMiss.unique {s : Scope} {as : List Access} {name name' : String}
    (h : FirstMiss s as name) (h' : FirstMiss s as name') : name = name' := by
  obtain ⟨before, after, has, hmiss, hfirst⟩ := h
  obtain ⟨before', after', has', hmiss', hfirst'⟩ := h'
  rw [has, List.append_eq_append_iff] at has'
  -- one of the two reads comes before the other one, unless they are the same
  rcases has' with ⟨between, hbefore', hafter⟩ | ⟨between, hbefore, hafter⟩
  · rcases List.cons_eq_append_iff.mp hafter with ⟨-, heq⟩ | ⟨rest, rfl, -⟩
    · cases heq
      rfl
    · exact absurd hmiss (hfirst' before name rest hbefore')
  · rcases List.cons_eq_append_iff.mp hafter with ⟨-, heq⟩ | ⟨rest, rfl, -⟩
    · cases heq
      rfl
    · exact absurd hmiss' (hfirst before' name' rest hbefore)

/-- Only which names are bound matters, not to what. -/
lemma firstMiss_congr {s s' : Scope} (h : ∀ name, s'.contains name = s.contains name)
    (as : List Access) (name : String) : FirstMiss s' as name ↔ FirstMiss s as name := by
  simp only [FirstMiss, Misses, h]

namespace Machine

variable {ar : Arithmetic} {m m' : Machine} {name : String}

/-- What an instruction that finishes does to the scope: a load has found its name bound, a store
binds its target, and nothing else has to do with the scope. -/
lemma exec_cases {i : Instruction} (h : i.exec ar m = .finished m') :
    (∃ name, i = .load name ∧ m.scope.contains name = true ∧ m'.scope = m.scope)
    ∨ (∃ target v, i = .store target ∧ m'.scope = m.scope.set target v)
    ∨ i.access? = none ∧ m'.scope = m.scope := by
  obtain ⟨stack, scope⟩ := m
  cases i with
  | push x =>
      cases h
      exact .inr (.inr ⟨rfl, rfl⟩)
  | load name =>
      rw [Instruction.exec] at h
      cases found : scope.get? name with
      | some v =>
          rw [found] at h
          cases h
          refine .inl ⟨name, rfl, ?_, rfl⟩
          rw [Scope.contains_eq_isSome_get?, found, Option.isSome_some]
      | none =>
          rw [found] at h
          cases h
  | apply op =>
      rcases stack with _ | ⟨y, _ | ⟨x, stack⟩⟩
      · cases h
      · cases h
      · cases h
        exact .inr (.inr ⟨rfl, rfl⟩)
  | store target =>
      rcases stack with _ | ⟨v, stack⟩
      · cases h
      · cases h
        exact .inr (.inl ⟨target, v, rfl, rfl⟩)

/-- After code has run, those names are bound that were bound before and those that it stores. -/
lemma contains_of_run {code : List Instruction} (h : run ar code m = .finished m')
    (name : String) :
    m'.scope.contains name = true
      ↔ m.scope.contains name = true ∨ .write name ∈ code.filterMap Instruction.access? := by
  induction code generalizing m with
  | nil =>
      cases h
      simp
  | cons i code ih =>
      obtain ⟨m₁, hexec, hrest⟩ := exists_exec_of_run_cons h
      rw [ih hrest]
      rcases exec_cases hexec with ⟨n, rfl, -, hscope⟩ | ⟨target, v, rfl, hscope⟩ | ⟨hnone, hscope⟩
      · simp [hscope, Instruction.access?]
      · rw [hscope, Scope.contains_set]
        simp only [Instruction.access?, List.filterMap_cons, List.mem_cons, Access.write.injEq]
        rw [or_comm (a := target = name), or_assoc, eq_comm (a := target)]
      · rw [hscope, List.filterMap_cons_none hnone]

/-- In code that runs to its end no load misses its name. -/
lemma not_misses_of_run {code : List Instruction} {before after : List Access}
    (h : run ar code m = .finished m')
    (hcode : code.filterMap Instruction.access? = before ++ .read name :: after) :
    ¬ Misses m.scope before name := by
  rintro ⟨hunbound, hunwritten⟩
  obtain ⟨code₁, code₂, rfl, rfl, hread⟩ := List.filterMap_eq_append_iff.mp hcode
  obtain ⟨code₃, i, code₄, rfl, hnone, hi, -⟩ := List.filterMap_eq_cons_iff.mp hread
  -- The read is that of an instruction `i`, and the code before it has run to its end.
  rw [← List.append_assoc] at h
  obtain ⟨m₁, hbefore, hrest⟩ := exists_run_of_run_append h
  obtain ⟨m₂, hexec, -⟩ := exists_exec_of_run_cons hrest
  have hbound : m₁.scope.contains name = true := by
    rcases exec_cases hexec with ⟨n, rfl, hbound, -⟩ | ⟨target, v, rfl, -⟩ | ⟨hnone, -⟩
    · cases hi
      exact hbound
    · cases hi
    · rw [hnone] at hi
      cases hi
  rw [contains_of_run hbefore, hunbound, List.filterMap_append,
    List.filterMap_eq_nil_iff.mpr hnone, List.append_nil] at hbound
  exact hunwritten (hbound.resolve_left Bool.false_ne_true)

/-- Code that stops does so at the first load that misses its name. -/
lemma firstMiss_of_run {code : List Instruction} {scope : Scope}
    (h : run ar code m = .stopped name scope) :
    FirstMiss m.scope (code.filterMap Instruction.access?) name := by
  obtain ⟨before, after, m₁, rfl, hbefore, hnone, -⟩ := run_eq_stopped_iff.mp h
  refine ⟨before.filterMap Instruction.access?, after.filterMap Instruction.access?, ?_, ?_,
    fun before' name' after' hsplit => not_misses_of_run hbefore hsplit⟩
  · rw [List.filterMap_append]
    rfl
  · have hcontains := contains_of_run hbefore name
    rw [Scope.contains_eq_isSome_get?, hnone, Option.isSome_none] at hcontains
    simpa [Misses] using hcontains

end Machine

section Evaluation

variable {ar : Arithmetic} {e : Expr} {s s' : Scope} {es : List Entry} {name : String}

/-- Where an expression has a value, none of its reads misses. -/
lemma Evaluates.not_misses_of_ok {v : Double} (h : Evaluates ar e s (.ok v) s' es)
    {before after : List Access} (haccesses : e.accesses = before ++ .read name :: after) :
    ¬ Misses s before name := by
  rw [← Expr.filterMap_access?_code] at haccesses
  exact Machine.not_misses_of_run (h.run_code_of_ok []) haccesses

/-- An expression fails for the name of its first read that misses. -/
lemma Evaluates.firstMiss_of_error (h : Evaluates ar e s (.error (.unboundSymbol name)) s' es) :
    FirstMiss s e.accesses name := by
  rw [← Expr.filterMap_access?_code]
  exact Machine.firstMiss_of_run (h.run_code_of_error [])

namespace Expr

/-- An evaluation fails for a name exactly if the first read that misses is one of this name. -/
lemma resolve_eq_error_iff (ar : Arithmetic) (e : Expr) (env : Env) (cause : EvalError) :
    (e.resolve ar env).1 = .error cause
      ↔ ∃ name, cause = .unboundSymbol name ∧ FirstMiss env.scope e.accesses name := by
  obtain ⟨r, s', es, h⟩ := exists_evaluates ar e env.scope
  rw [h.resolve_eq]
  constructor
  · rintro rfl
    obtain ⟨name⟩ := cause
    exact ⟨name, rfl, h.firstMiss_of_error⟩
  · rintro ⟨name, rfl, hmiss⟩
    rcases r with ⟨⟨name'⟩⟩ | v
    · rw [hmiss.unique h.firstMiss_of_error]
    · obtain ⟨before, after, haccesses, hmiss, -⟩ := hmiss
      exact absurd hmiss (h.not_misses_of_ok haccesses)

/-! ### What does not matter -/

/-- The same expression with every number replaced by zero. -/
def withoutNumbers : Expr → Expr
  | number _ => number .zero
  | symbol name => symbol name
  | binary op l r => binary op l.withoutNumbers r.withoutNumbers
  | assign target e => assign target e.withoutNumbers

lemma accesses_withoutNumbers (e : Expr) : e.withoutNumbers.accesses = e.accesses := by
  induction e with
  | number x => rfl
  | symbol name => rfl
  | binary op l r ihl ihr => simp [withoutNumbers, ihl, ihr]
  | assign target e ih => simp [withoutNumbers, ih]

/-- **Which evaluations fail.** An evaluation fails exactly if a symbol of its expression has a name
that is neither bound in the scope nor assigned before the symbol, in post-order, and it fails for
the name of the first such symbol. So whether it fails, and for which name, depends on which names
are bound but not on their values, and not on the numbers in the expression or on what the
arithmetic operations compute. -/
theorem resolve_fails_iff_misses (ar : Arithmetic) (e : Expr) (s : Scope) (j : Journal) :
    ((∃ cause, (e.resolve ar ⟨s, j⟩).1 = .error cause) ↔
      ∃ before name after, e.accesses = before ++ .read name :: after ∧ Misses s before name)
    ∧ (∀ cause, (e.resolve ar ⟨s, j⟩).1 = .error cause ↔
      ∃ name, cause = .unboundSymbol name ∧ FirstMiss s e.accesses name)
    ∧ ∀ (ar' : Arithmetic) (e' : Expr) (s' : Scope) (j' : Journal),
      e'.withoutNumbers = e.withoutNumbers →
      (∀ name, s'.contains name = s.contains name) →
      ∀ cause, (e'.resolve ar' ⟨s', j'⟩).1 = .error cause ↔
        (e.resolve ar ⟨s, j⟩).1 = .error cause := by
  refine ⟨⟨?_, ?_⟩, resolve_eq_error_iff ar e ⟨s, j⟩, ?_⟩
  · rintro ⟨cause, hcause⟩
    obtain ⟨name, -, before, after, haccesses, hmiss, -⟩ :=
      (resolve_eq_error_iff ar e ⟨s, j⟩ cause).mp hcause
    exact ⟨before, name, after, haccesses, hmiss⟩
  · rintro ⟨before, name, after, haccesses, hmiss⟩
    obtain ⟨r, s', es, h⟩ := exists_evaluates ar e s
    rw [h.resolve_eq]
    cases r with
    | error cause => exact ⟨cause, rfl⟩
    | ok v => exact absurd hmiss (h.not_misses_of_ok haccesses)
  · intro ar' e' s' j' hnumbers hnames cause
    have haccesses : e'.accesses = e.accesses := by
      rw [← accesses_withoutNumbers, hnumbers, accesses_withoutNumbers]
    rw [resolve_eq_error_iff, resolve_eq_error_iff, haccesses]
    simp only [firstMiss_congr hnames]

/-- Divides by a symbol that an assignment before it binds, and then reads another one twice. -/
def readsAfterAssignment (x : Double) : Expr :=
  .binary .add (.binary .div (.assign "x" (.number x)) (.symbol "x"))
    (.binary .add (.symbol "y") (.assign "y" (.symbol "z")))

/-- The theorem at an expression that fails for a symbol that is assigned only later, whatever its
number is and whatever a bound name stands for. -/
theorem resolve_fails_iff_misses_later_assignment :
    (readsAfterAssignment .nan).withoutNumbers = (readsAfterAssignment .zero).withoutNumbers
    ∧ ((readsAfterAssignment .zero).resolve .ieee ⟨Scope.empty.set "z" .one, .silent⟩).1
        = .error (.unboundSymbol "y")
    ∧ ((readsAfterAssignment .nan).resolve .ieee ⟨Scope.empty.set "z" .nan, .silent⟩).1
        = .error (.unboundSymbol "y") := by
  have hzero : ((readsAfterAssignment .zero).resolve .ieee
      ⟨Scope.empty.set "z" .one, .silent⟩).1 = .error (.unboundSymbol "y") := by
    decide +kernel
  refine ⟨rfl, hzero, ?_⟩
  have hnames : ∀ name, (Scope.empty.set "z" .nan).contains name
      = (Scope.empty.set "z" .one).contains name := by
    intro name
    rw [Bool.eq_iff_iff, Scope.contains_set, Scope.contains_set]
  exact ((resolve_fails_iff_misses .ieee (readsAfterAssignment .zero) _ .silent).2.2 .ieee
    (readsAfterAssignment .nan) _ .silent rfl hnames _).mpr hzero

end Expr

end Evaluation

end Abacus
