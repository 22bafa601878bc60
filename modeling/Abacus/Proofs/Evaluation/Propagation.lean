import Mathlib.Data.Set.Basic
import Mathlib.Tactic.Common
import Abacus.Proofs.Evaluation.Footprint

/-!
Propagation of constants.

* `Expr.propagate`: an expression with numbers in place of some of its symbols. The symbols that are
  left make the same accesses as before (`accesses_propagate`).
* `AreConstant`: numbers for names that are their values in a scope and stay it, since the
  expression does not assign them. What is constant for an expression is constant for its parts,
  whenever they are evaluated.
* `Evaluates.propagate`: constants make no difference to an evaluation.
* `Expr.resolve_propagate`: what this says of the values of a set of names.
-/

namespace Abacus

open Journal

variable {ar : Arithmetic} {e l r : Expr} {s s' : Scope} {es : List Entry} {op : Operator}
  {target : String} {constant? : String → Option Double}

/-! ### Numbers for symbols -/

/-- The same expression with a number in place of each symbol that there is one for. -/
def Expr.propagate (constant? : String → Option Double) : Expr → Expr
  | number x => number x
  | symbol name =>
    match constant? name with
    | some v => number v
    | none => symbol name
  | binary op l r => binary op (l.propagate constant?) (r.propagate constant?)
  | assign target e => assign target (e.propagate constant?)

/-- Whether an access is still made with numbers in place of symbols. -/
def Access.remains (constant? : String → Option Double) : Access → Bool
  | read name => (constant? name).isNone
  | write _ => true

/-- With numbers in place of symbols, all other accesses are made as before. -/
lemma Expr.accesses_propagate (constant? : String → Option Double) (e : Expr) :
    (e.propagate constant?).accesses = e.accesses.filter (Access.remains constant?) := by
  induction e with
  | number x => rfl
  | symbol name => cases h : constant? name <;> simp [propagate, Access.remains, h]
  | binary op l r ihl ihr => simp [propagate, ihl, ihr]
  | assign target e ih =>
      rw [propagate, accesses_assign, accesses_assign, List.filter_append, ih]
      rfl

/-! ### Constants -/

/-- Numbers for names are constants of an expression in a scope if they are the values of these
names and the expression assigns none of them. -/
def AreConstant (constant? : String → Option Double) (e : Expr) (s : Scope) : Prop :=
  ∀ name v, constant? name = some v → s.get? name = some v ∧ .write name ∉ e.accesses

lemma AreConstant.binary_left (h : AreConstant constant? (.binary op l r) s) :
    AreConstant constant? l s := by
  intro name v hv
  obtain ⟨hvalue, hassigned⟩ := h name v hv
  rw [Expr.accesses_binary, List.mem_append, not_or] at hassigned
  exact ⟨hvalue, hassigned.1⟩

/-- The left operand leaves the constants as they are. -/
lemma AreConstant.binary_right (h : AreConstant constant? (.binary op l r) s) {x : Double}
    (left : Evaluates ar l s (.ok x) s' es) : AreConstant constant? r s' := by
  intro name v hv
  obtain ⟨hvalue, hassigned⟩ := h name v hv
  rw [Expr.accesses_binary, List.mem_append, not_or] at hassigned
  exact ⟨(left.get?_eq_of_unassigned hassigned.1).trans hvalue, hassigned.2⟩

lemma AreConstant.value (h : AreConstant constant? (.assign target e) s) :
    AreConstant constant? e s := by
  intro name v hv
  obtain ⟨hvalue, hassigned⟩ := h name v hv
  rw [Expr.accesses_assign, List.mem_append, not_or] at hassigned
  exact ⟨hvalue, hassigned.1⟩

/-- With its constants in place of symbols, an expression has the same result and leaves the same
scope, although it records fewer look-ups. -/
lemma Evaluates.propagate {result : Except EvalError Double} (h : Evaluates ar e s result s' es)
    (hconstant : AreConstant constant? e s) :
    ∃ es', Evaluates ar (e.propagate constant?) s result s' es' := by
  induction h with
  | number x s => exact ⟨_, .number x s⟩
  | @bound name s v found =>
      rw [Expr.propagate]
      split
      · next w hw =>
          -- the number is the value that the symbol has here
          obtain rfl : v = w := Option.some.inj (found.symm.trans (hconstant name w hw).1)
          exact ⟨_, .number v s⟩
      · exact ⟨_, .bound found⟩
  | @unbound name s missing =>
      rw [Expr.propagate]
      split
      · next w hw =>
          rw [(hconstant name w hw).1] at missing
          cases missing
      · exact ⟨_, .unbound missing⟩
  | leftFails op r left ih =>
      obtain ⟨es', hleft⟩ := ih hconstant.binary_left
      exact ⟨_, .leftFails op _ hleft⟩
  | rightFails op left right ihl ihr =>
      obtain ⟨es', hleft⟩ := ihl hconstant.binary_left
      obtain ⟨es'', hright⟩ := ihr (hconstant.binary_right left)
      exact ⟨_, .rightFails op hleft hright⟩
  | applies op left right ihl ihr =>
      obtain ⟨es', hleft⟩ := ihl hconstant.binary_left
      obtain ⟨es'', hright⟩ := ihr (hconstant.binary_right left)
      exact ⟨_, .applies op hleft hright⟩
  | valueFails target value ih =>
      obtain ⟨es', hvalue⟩ := ih hconstant.value
      exact ⟨_, .valueFails target hvalue⟩
  | stores target value ih =>
      obtain ⟨es', hvalue⟩ := ih hconstant.value
      exact ⟨_, .stores target hvalue⟩

/-! ### The values of a set of names -/

/-- The values of a set of names in a scope. -/
def Scope.valuesOn (s : Scope) (X : Set String) [DecidablePred (· ∈ X)] (name : String) :
    Option Double :=
  if name ∈ X then s.get? name else none

namespace Expr

/-- **Constants can be propagated.** Let some names be bound that an expression does not assign, and
replace each of their symbols by the number that it stands for. Then no symbol of these names is
left, and the evaluation has the same result and leaves the same scope as before, whether it has a
value or fails and whatever the arithmetic operations compute. -/
theorem resolve_propagate (ar : Arithmetic) (e : Expr) (s : Scope) (X : Set String)
    [DecidablePred (· ∈ X)] (hbound : ∀ x ∈ X, s.contains x = true)
    (hassigned : ∀ x ∈ X, .write x ∉ e.accesses) (j j' : Journal) :
    (∀ x ∈ X, .read x ∉ (e.propagate (s.valuesOn X)).accesses)
    ∧ ((e.propagate (s.valuesOn X)).resolve ar ⟨s, j⟩).1 = (e.resolve ar ⟨s, j'⟩).1
    ∧ ((e.propagate (s.valuesOn X)).resolve ar ⟨s, j⟩).2.scope
        = (e.resolve ar ⟨s, j'⟩).2.scope := by
  have hconstant : AreConstant (s.valuesOn X) e s := by
    intro name v hv
    rw [Scope.valuesOn] at hv
    split_ifs at hv with hname
    exact ⟨hv, hassigned name hname⟩
  obtain ⟨result, s', es, h⟩ := exists_evaluates ar e s
  obtain ⟨es', h'⟩ := h.propagate hconstant
  refine ⟨fun x hx hread => ?_, ?_⟩
  · rw [accesses_propagate, List.mem_filter, Access.remains, Scope.valuesOn, if_pos hx,
      Option.isNone_iff_eq_none] at hread
    have hvalue := hbound x hx
    rw [Scope.contains_eq_isSome_get?, hread.2, Option.isSome_none] at hvalue
    cases hvalue
  · rw [h.resolve_eq, h'.resolve_eq]
    exact ⟨rfl, rfl⟩

/-- The theorem at an expression that assigns one name between two symbols of another, and then
fails for a third. -/
theorem resolve_propagate_failing :
    ∃ e e' : Expr, e.accesses = [.read "x", .write "y", .read "x", .read "u"]
      ∧ e' = e.propagate ((Scope.empty.set "x" .one).valuesOn {"x"})
      ∧ e'.accesses = [.write "y", .read "u"]
      ∧ (e.resolve .ieee ⟨Scope.empty.set "x" .one, .silent⟩).1 = .error (.unboundSymbol "u")
      ∧ (e'.resolve .ieee ⟨Scope.empty.set "x" .one, .silent⟩).1 = .error (.unboundSymbol "u")
      ∧ (e'.resolve .ieee ⟨Scope.empty.set "x" .one, .silent⟩).2.scope.get? "y" = some .one := by
  have hbound : ∀ x ∈ ({"x"} : Set String), (Scope.empty.set "x" .one).contains x = true := by
    rintro _ rfl
    decide +kernel
  have hassigned : ∀ x ∈ ({"x"} : Set String), .write x ∉ (binary .add
      (.assign "y" (.symbol "x")) (.binary .mul (.symbol "x") (.symbol "u"))).accesses := by
    rintro _ rfl
    simp
  obtain ⟨-, hresult, hscope⟩ := resolve_propagate .ieee _ _ _ hbound hassigned .silent .silent
  refine ⟨_, _, ?_, rfl, ?_, ?_, hresult.trans ?_, ?_⟩
  · simp
  · decide +kernel
  · decide +kernel
  · decide +kernel
  · rw [hscope]
    decide +kernel

end Expr

end Abacus
