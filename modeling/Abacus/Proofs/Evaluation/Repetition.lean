import Mathlib.Tactic.Common
import Abacus.Proofs.Evaluation.Effect

/-!
Evaluating an expression again.

* `Expr.ReadsNoTarget`: no symbol of an expression reads a name that the expression assigns, so the
  expression does not read what an earlier evaluation of it has left.
* `Evaluates.again`: the evaluation that follows has the same result and the same record, and it
  leaves the scope that it starts in. After a failure, too, it writes what has been written already.
* `Expr.resolve_again`: what this says of two evaluations, one right after the other.
-/

namespace Abacus

open Journal

/-- No name is both a target and a symbol of the expression. -/
def Expr.ReadsNoTarget (e : Expr) : Prop :=
  ∀ name, .write name ∈ e.accesses → .read name ∉ e.accesses

variable {ar : Arithmetic} {e : Expr} {s s' : Scope} {r : Except EvalError Double}
  {es : List Entry}

/-- In the scope that an evaluation leaves, the expression is evaluated as before. -/
lemma Evaluates.again (h : Evaluates ar e s r s' es) (he : e.ReadsNoTarget) :
    Evaluates ar e s' r s' es := by
  -- the inputs are read, so none of them has been written
  have hagree : ∀ name, e.IsInput name → s.get? name = s'.get? name := by
    intro name hinput
    have hunassigned : .write name ∉ e.accesses := fun hwrite => he name hwrite hinput.read_mem
    exact (h.get?_eq_of_unassigned hunassigned).symm
  have hwritten : s'.setAll (writes es) = s' := by
    rw [h.scope_eq, Scope.setAll_setAll]
  have hagain := h.of_agree hagree
  rwa [hwritten] at hagain

namespace Expr

/-- **Evaluating again changes nothing.** Let no name be both assigned and read by an expression. If
it is evaluated a second time, in the scope that the first evaluation has left, it has the same
result, a value or a failure for the same name, and every name is bound as the first evaluation has
left it. This holds also if the first evaluation has failed after some assignments, and whatever the
arithmetic operations compute. -/
theorem resolve_again (ar : Arithmetic) (e : Expr) (he : e.ReadsNoTarget) (s : Scope)
    (j j' : Journal) :
    (e.resolve ar ⟨(e.resolve ar ⟨s, j⟩).2.scope, j'⟩).1 = (e.resolve ar ⟨s, j⟩).1
    ∧ (∀ name, (e.resolve ar ⟨(e.resolve ar ⟨s, j⟩).2.scope, j'⟩).2.scope.get? name
        = (e.resolve ar ⟨s, j⟩).2.scope.get? name)
    ∧ (e.resolve ar ⟨(e.resolve ar ⟨s, j⟩).2.scope, j'⟩).2.scope.bindings
        = (e.resolve ar ⟨s, j⟩).2.scope.bindings := by
  obtain ⟨r, s', es, h⟩ := exists_evaluates ar e s
  rw [h.resolve_eq, (h.again he).resolve_eq]
  exact ⟨rfl, fun name => rfl, rfl⟩

/-- The theorem at an evaluation that binds a name twice and then fails: the second evaluation binds
it twice again, and fails for the same name. -/
theorem resolve_again_after_rebinding :
    failsAfterRebinding.ReadsNoTarget
    ∧ ∃ s, s = (failsAfterRebinding.resolve .ieee ⟨.empty, .silent⟩).2.scope
      ∧ s.bindings = [("x", .zero)]
      ∧ (failsAfterRebinding.resolve .ieee ⟨s, .silent⟩).1 = .error (.unboundSymbol "z")
      ∧ (failsAfterRebinding.resolve .ieee ⟨s, .silent⟩).2.scope.bindings = [("x", .zero)] := by
  have hreads : failsAfterRebinding.ReadsNoTarget := by
    simp [ReadsNoTarget, failsAfterRebinding]
  have hbindings : (failsAfterRebinding.resolve .ieee ⟨.empty, .silent⟩).2.scope.bindings
      = [("x", .zero)] := by
    decide +kernel
  obtain ⟨hresult, -, hkept⟩ :=
    resolve_again .ieee failsAfterRebinding hreads .empty .silent .silent
  exact ⟨hreads, _, rfl, hbindings, hresult.trans (by decide +kernel), hkept.trans hbindings⟩

-- an expression that reads its own target counts on
example :
    ((assign "x" (.binary .add (.symbol "x") (.number .one))).resolve .ieee
      ((assign "x" (.binary .add (.symbol "x") (.number .one))).resolve .ieee
        ⟨Scope.empty.set "x" .zero, .silent⟩).2).1
    ≠ ((assign "x" (.binary .add (.symbol "x") (.number .one))).resolve .ieee
        ⟨Scope.empty.set "x" .zero, .silent⟩).1 := by
  decide +kernel

end Expr

end Abacus
