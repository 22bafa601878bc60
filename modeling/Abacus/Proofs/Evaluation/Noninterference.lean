import Mathlib.Tactic.Common
import Abacus.Proofs.Evaluation.Footprint

/-!
Evaluations in two scopes.

* `Expr.written`: the bindings that an evaluation writes, in their order, as its record has them.
* `Expr.resolve_noninterference`: scopes that agree on the inputs of an expression cannot be told
  apart by it, and it does the same to both.
-/

namespace Abacus

open Journal

/-- The bindings that the evaluation of an expression writes, one after the other. -/
def Expr.written (ar : Arithmetic) (e : Expr) (s : Scope) : List (String × Double) :=
  writes (e.record ar s)

variable {ar : Arithmetic} {e : Expr} {s s' : Scope} {r : Except EvalError Double}
  {es : List Entry}

lemma Evaluates.written_eq (h : Evaluates ar e s r s' es) : e.written ar s = writes es := by
  rw [Expr.written, h.record_eq]

namespace Expr

/-- **What is not an input does not interfere.** In two scopes that agree on the names that an
expression reads before it writes them, it has the same result, whether a value or a failure, and
writes the same bindings in the same order. The two scopes that it leaves are those it started in
after these bindings: a name that is written has the same value in both, and any other name has
the value that it had in each. -/
theorem resolve_noninterference (ar : Arithmetic) (e : Expr) (s t : Scope)
    (hagree : ∀ name, e.IsInput name → s.get? name = t.get? name) (j j' : Journal) :
    (e.resolve ar ⟨s, j⟩).1 = (e.resolve ar ⟨t, j'⟩).1
    ∧ e.written ar s = e.written ar t
    ∧ (e.resolve ar ⟨s, j⟩).2.scope = s.setAll (e.written ar s)
    ∧ (e.resolve ar ⟨t, j'⟩).2.scope = t.setAll (e.written ar t)
    ∧ (∀ name ∈ (e.written ar s).map Prod.fst, .write name ∈ e.accesses
      ∧ ∃ v, (e.resolve ar ⟨s, j⟩).2.scope.get? name = some v
        ∧ (e.resolve ar ⟨t, j'⟩).2.scope.get? name = some v)
    ∧ ∀ name ∉ (e.written ar s).map Prod.fst,
      (e.resolve ar ⟨s, j⟩).2.scope.get? name = s.get? name
      ∧ (e.resolve ar ⟨t, j'⟩).2.scope.get? name = t.get? name := by
  obtain ⟨r, s', es, h⟩ := exists_evaluates ar e s
  have h' := h.of_agree hagree
  rw [h.resolve_eq, h'.resolve_eq, h.written_eq, h'.written_eq, h.scope_eq]
  refine ⟨rfl, rfl, rfl, rfl, fun name hname => ⟨h.write_mem_of_mem_writes hname, ?_⟩,
    fun name hname => ⟨Scope.get?_setAll_of_notMem hname, Scope.get?_setAll_of_notMem hname⟩⟩
  obtain ⟨v, hv⟩ := Scope.exists_get?_setAll_eq hname
  exact ⟨v, hv s, hv t⟩

/-- Copies a name to another one, reads the copy and then fails for a third name. -/
def copyThenFail (source target missing : String) : Expr :=
  .binary .add (.assign target (.symbol source)) (.binary .mul (.symbol target) (.symbol missing))

/-- The copy is read, but is no input. -/
lemma eq_or_eq_of_isInput_copyThenFail {source target missing name : String}
    (h : (copyThenFail source target missing).IsInput name) : name = source ∨ name = missing := by
  obtain ⟨before, after, haccesses, hwrite⟩ := h
  simp only [copyThenFail, accesses_binary, accesses_assign, accesses_symbol,
    List.singleton_append] at haccesses
  rcases before with _ | ⟨first, _ | ⟨second, _ | ⟨third, before⟩⟩⟩
  · left
    simp_all
  · simp at haccesses
  · -- the copy is read after it has been written
    simp only [List.cons_append, List.nil_append, List.cons.injEq, Access.read.injEq] at haccesses
    obtain ⟨-, rfl, rfl, -⟩ := haccesses
    simp at hwrite
  · right
    simp_all [List.cons_eq_append_iff]

/-- The theorem at two scopes of which only one binds the name that is assigned, for an evaluation
that fails after the assignment. -/
theorem resolve_noninterference_overwritten :
    ∃ s t : Scope, s.get? "x" ≠ t.get? "x"
      ∧ (∀ name, (copyThenFail "y" "x" "u").IsInput name → s.get? name = t.get? name)
      ∧ ((copyThenFail "y" "x" "u").resolve .ieee ⟨s, .silent⟩).1 = .error (.unboundSymbol "u")
      ∧ ((copyThenFail "y" "x" "u").resolve .ieee ⟨t, .silent⟩).1 = .error (.unboundSymbol "u")
      ∧ ∃ v, ((copyThenFail "y" "x" "u").resolve .ieee ⟨s, .silent⟩).2.scope.get? "x" = some v
        ∧ ((copyThenFail "y" "x" "u").resolve .ieee ⟨t, .silent⟩).2.scope.get? "x" = some v := by
  have hagree : ∀ name, (copyThenFail "y" "x" "u").IsInput name →
      ((Scope.empty.set "y" .one).set "x" .zero).get? name
        = (Scope.empty.set "y" .one).get? name := by
    intro name hname
    rcases eq_or_eq_of_isInput_copyThenFail hname with rfl | rfl
    · simp [Scope.get?_set]
    · simp [Scope.get?_set]
  obtain ⟨hresult, -, -, -, hwritten, -⟩ :=
    resolve_noninterference .ieee (copyThenFail "y" "x" "u") _ _ hagree .silent .silent
  have hfails : ((copyThenFail "y" "x" "u").resolve .ieee
      ⟨(Scope.empty.set "y" .one).set "x" .zero, .silent⟩).1 = .error (.unboundSymbol "u") := by
    decide +kernel
  refine ⟨_, _, by simp [Scope.get?_set], hagree, hfails, hresult ▸ hfails, ?_⟩
  exact (hwritten "x" (by decide +kernel)).2

end Expr

end Abacus
