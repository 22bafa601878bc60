import Mathlib.Tactic.Common
import Abacus.Proofs.Evaluation.Footprint

/-!
What an evaluation leaves behind.

An assignment is completed if the evaluation has a value or if the assignment comes before the
symbol that fails, in post-order. The completed assignments decide what the scope holds afterwards.

* `Expr.scopeAt`: the scope in which a node is evaluated, if the evaluation comes to it.
* `Expr.completed`: the completed assignments. They are all assignments of the expression, or those
  before the symbol that fails (`Evaluates.exists_failing`).
* `lastTo`: the last assignment to a name among some nodes.
* `Settled`: a name has kept its value, or has the value of an assignment. Every evaluation settles
  every name, by the last assignment to it that is visited (`Evaluates.settled`).
* `Expr.resolve_settles`: what this says of the scope that is left, of its names and of its size.
-/

namespace Abacus

open Journal

/-! ### Where a node is evaluated -/

/-- The scope in which the node at a position is evaluated, if the evaluation comes to it. The left
operand and the value of an assignment are evaluated in the scope of their parent, and the right
operand in the scope that the left one leaves. -/
def Expr.scopeAt (ar : Arithmetic) : Expr → Scope → List Side → Option Scope
  | _, s, [] => some s
  | binary _ l _, s, .left :: q => l.scopeAt ar s q
  | binary _ l r, s, .right :: q =>
    match l.resolve ar ⟨s, .silent⟩ with
    | (.ok _, env) => r.scopeAt ar env.scope q
    | (.error _, _) => none
  | assign _ e, s, .value :: q => e.scopeAt ar s q
  | _, _, _ :: _ => none

variable {ar : Arithmetic} {e l r : Expr} {s s' s'' : Scope} {es : List Entry} {name : String}
  {p : List Side}

lemma Expr.scopeAt_nil (ar : Arithmetic) (e : Expr) (s : Scope) : e.scopeAt ar s [] = some s := by
  cases e <;> rfl

lemma Evaluates.scopeAt_right {x : Double} (left : Evaluates ar l s (.ok x) s' es)
    (op : Operator) (r : Expr) (q : List Side) :
    (Expr.binary op l r).scopeAt ar s (.right :: q) = r.scopeAt ar s' q := by
  rw [Expr.scopeAt, left.resolve_eq]

/-- The symbol that fails is the last node that is visited. It is evaluated in the scope that is
left, in which its name is unbound. -/
lemma Evaluates.exists_failing {result : Except EvalError Double}
    (h : Evaluates ar e s result s' es) (hresult : result = .error (.unboundSymbol name))
    (p : List Side) (stack : List Double) :
    ∃ before q after, e.postorder p = before ++ ⟨p ++ q, .symbol name⟩ :: after
      ∧ Machine.visit ar (e.postorder p) ⟨stack, s⟩ = before ++ [⟨p ++ q, .symbol name⟩]
      ∧ e.scopeAt ar s q = some s' ∧ s'.contains name = false := by
  induction h generalizing p stack with
  | number x s => cases hresult
  | bound found => cases hresult
  | @unbound n s missing =>
      cases hresult
      refine ⟨[], [], [], ?_, ?_, Expr.scopeAt_nil .., ?_⟩
      · rw [List.append_nil, Expr.postorder, List.nil_append]
      · rw [List.append_nil, Expr.postorder, Machine.visit, Node.instruction, Instruction.exec,
          missing]
        rfl
      · rw [Scope.contains_eq_isSome_get?, missing, Option.isSome_none]
  | @leftFails op r l s s' cause es left ih =>
      obtain ⟨before, q, after, hpostorder, hvisit, hscope, hunbound⟩ :=
        ih hresult (p ++ [.left]) stack
      rw [List.append_assoc, List.singleton_append] at hpostorder hvisit
      refine ⟨before, .left :: q, after ++ (r.postorder (p ++ [.right]) ++ [⟨p, .binary op l r⟩]),
        ?_, ?_, hscope, hunbound⟩
      · rw [Expr.postorder, hpostorder, List.append_assoc, List.cons_append]
      · rw [Expr.postorder, left.visit_append_of_error, hvisit]
  | @rightFails op l r s s' s'' x cause es es' left right ihl ihr =>
      obtain ⟨before, q, after, hpostorder, hvisit, hscope, hunbound⟩ :=
        ihr hresult (p ++ [.right]) (x :: stack)
      rw [List.append_assoc, List.singleton_append] at hpostorder hvisit
      refine ⟨l.postorder (p ++ [.left]) ++ before, .right :: q, after ++ [⟨p, .binary op l r⟩],
        ?_, ?_, (left.scopeAt_right op r q).trans hscope, hunbound⟩
      · rw [Expr.postorder, hpostorder, List.append_assoc, List.append_assoc, List.cons_append]
      · rw [Expr.postorder, left.visit_append_of_ok, right.visit_append_of_error, hvisit,
          List.append_assoc]
  | applies op left right ihl ihr => cases hresult
  | @valueFails target e s s' cause es value ih =>
      obtain ⟨before, q, after, hpostorder, hvisit, hscope, hunbound⟩ :=
        ih hresult (p ++ [.value]) stack
      rw [List.append_assoc, List.singleton_append] at hpostorder hvisit
      refine ⟨before, .value :: q, after ++ [⟨p, .assign target e⟩], ?_, ?_, hscope, hunbound⟩
      · rw [Expr.postorder, hpostorder, List.append_assoc, List.cons_append]
      · rw [Expr.postorder, value.visit_append_of_error, hvisit]
  | stores target value ih => cases hresult

/-! ### The last assignment to a name -/

/-- The name that a node assigns. -/
def Node.target? (n : Node) : Option String :=
  match n.expr with
  | .assign target _ => some target
  | .number _ | .symbol _ | .binary .. => none

lemma Node.exists_expr_eq {n : Node} (h : n.target? = some name) :
    ∃ value, n.expr = .assign name value := by
  obtain ⟨q, e⟩ := n
  cases e with
  | assign target value =>
      cases h
      exact ⟨value, rfl⟩
  | _ => cases h

lemma Node.access?_eq_write_iff {n : Node} :
    n.access? = some (.write name) ↔ n.target? = some name := by
  obtain ⟨q, e⟩ := n
  cases e <;> simp [Node.access?, Node.target?]

/-- The last assignment to a name among some nodes. -/
def lastTo (name : String) (ns : List Node) : Option Node :=
  (ns.filter (·.target? = some name)).getLast?

lemma lastTo_append (name : String) (ns ns' : List Node) :
    lastTo name (ns ++ ns') = (lastTo name ns').or (lastTo name ns) := by
  rw [lastTo, List.filter_append, List.getLast?_append]
  rfl

lemma lastTo_assign (name target : String) (p : List Side) (value : Expr) :
    lastTo name [⟨p, .assign target value⟩]
      = if target = name then some ⟨p, .assign target value⟩ else none := by
  by_cases h : target = name <;> simp [lastTo, Node.target?, h]

lemma lastTo_eq_none {ns : List Node} (h : ∀ n ∈ ns, n.target? ≠ some name) :
    lastTo name ns = none := by
  rw [lastTo, List.getLast?_eq_none_iff, List.filter_eq_nil_iff]
  simpa using h

lemma target?_of_lastTo {ns : List Node} {n : Node} (h : lastTo name ns = some n) :
    n.target? = some name := by
  have hmem := List.mem_of_getLast? h
  simpa using (List.mem_filter.mp hmem).2

/-- After an evaluation of an expression at a position, which has led from one scope to another, a
name is settled by an assignment if it has the value of this assignment, evaluated where the
evaluation came to it. Without an assignment it is settled if it has kept its value. -/
def Settled (ar : Arithmetic) (e : Expr) (p : List Side) (s s' : Scope) (name : String) :
    Option Node → Prop
  | none => s'.get? name = s.get? name
  | some n => ∃ q t v t' es, n.position = p ++ q ∧ e.scopeAt ar s q = some t
      ∧ Evaluates ar n.expr t (.ok v) t' es ∧ s'.get? name = some v

/-- A settled name stays settled where its value is kept. -/
lemma Settled.of_get?_eq {n : Option Node} (h : Settled ar e p s s' name n)
    (hkept : s''.get? name = s'.get? name) : Settled ar e p s s'' name n := by
  cases n with
  | none => exact hkept.trans h
  | some n =>
      obtain ⟨q, t, v, t', es, hposition, hscope, hn, hvalue⟩ := h
      exact ⟨q, t, v, t', es, hposition, hscope, hn, hkept.trans hvalue⟩

/-- An assignment in an operand that settles a name settles it in the whole. -/
lemma Settled.of_operand {n : Node} {side : Side} {t : Scope}
    (h : Settled ar l (p ++ [side]) t s' name (some n))
    (hside : ∀ q, e.scopeAt ar s (side :: q) = l.scopeAt ar t q) :
    Settled ar e p s s' name (some n) := by
  obtain ⟨q, u, v, u', es, hposition, hscope, hn⟩ := h
  refine ⟨side :: q, u, v, u', es, ?_, (hside q).trans hscope, hn⟩
  rw [hposition, List.append_assoc, List.singleton_append]

/-- A name that is settled in an operand that comes first is settled in the whole. -/
lemma Settled.of_first {n : Option Node} {side : Side}
    (h : Settled ar l (p ++ [side]) s s' name n)
    (hside : ∀ q, e.scopeAt ar s (side :: q) = l.scopeAt ar s q) : Settled ar e p s s' name n := by
  cases n with
  | none => exact h
  | some n => exact h.of_operand hside

/-- A name is settled by the right operand, or else by the left one. -/
lemma Settled.binary (op : Operator) {x : Double} (left : Evaluates ar l s (.ok x) s' es)
    {n n' : Option Node} (hl : Settled ar l (p ++ [.left]) s s' name n)
    (hr : Settled ar r (p ++ [.right]) s' s'' name n') :
    Settled ar (.binary op l r) p s s'' name (n'.or n) := by
  cases n' with
  | none =>
      have hwhole : Settled ar (.binary op l r) p s s' name n := hl.of_first fun q => rfl
      exact hwhole.of_get?_eq hr
  | some n' => exact hr.of_operand (left.scopeAt_right op r)

/-- A name is settled by an assignment to it, or else by its value. -/
lemma Settled.assign (target : String) {v : Double} (value : Evaluates ar e s (.ok v) s' es)
    {n : Option Node} (h : Settled ar e (p ++ [.value]) s s' name n) :
    Settled ar (.assign target e) p s (s'.set target v) name
      ((lastTo name [⟨p, .assign target e⟩]).or n) := by
  rw [lastTo_assign]
  split_ifs with htarget
  · subst htarget
    exact ⟨[], s, v, _, _, (List.append_nil p).symm, Expr.scopeAt_nil .., .stores target value,
      Scope.get?_set_self ..⟩
  · have hwhole : Settled ar (.assign target e) p s s' name n := h.of_first fun q => rfl
    refine hwhole.of_get?_eq ?_
    rw [Scope.get?_set, if_neg htarget]

/-- Every evaluation settles every name by the last assignment to it that is visited. -/
lemma Evaluates.settled {result : Except EvalError Double} (h : Evaluates ar e s result s' es)
    (name : String) (p : List Side) (stack : List Double) :
    Settled ar e p s s' name (lastTo name (Machine.visit ar (e.postorder p) ⟨stack, s⟩)) := by
  -- In each case the visited nodes are those of the operands, and the root if it is reached.
  induction h generalizing p stack with
  | number x s => rfl
  | bound found =>
      rw [Expr.postorder, Machine.visit, Node.instruction, Instruction.exec, found]
      rfl
  | unbound missing =>
      rw [Expr.postorder, Machine.visit, Node.instruction, Instruction.exec, missing]
      rfl
  | leftFails op r left ih =>
      rw [Expr.postorder, left.visit_append_of_error]
      refine (ih (p ++ [.left]) stack).of_first ?_
      exact fun q => rfl
  | @rightFails op l r s s' s'' x cause es es' left right ihl ihr =>
      rw [Expr.postorder, left.visit_append_of_ok, right.visit_append_of_error, lastTo_append,
        ← left.visit_of_ok _ stack]
      exact .binary op left (ihl _ stack) (ihr _ (x :: stack))
  | @applies op l r s s' s'' x y es es' left right ihl ihr =>
      rw [Expr.postorder, left.visit_append_of_ok, right.visit_append_of_ok, lastTo_append,
        lastTo_append, ← left.visit_of_ok _ stack, ← right.visit_of_ok _ (x :: stack)]
      exact .binary op left (ihl _ stack) (ihr _ (x :: stack))
  | valueFails target value ih =>
      rw [Expr.postorder, value.visit_append_of_error]
      refine (ih (p ++ [.value]) stack).of_first ?_
      exact fun q => rfl
  | @stores target e s s' v es value ih =>
      rw [Expr.postorder, value.visit_append_of_ok, lastTo_append, ← value.visit_of_ok _ stack]
      exact .assign target value (ih _ stack)

namespace Expr

/-- The assignments that an evaluation completes, in post-order: those among the nodes that it
visits. -/
def completed (ar : Arithmetic) (e : Expr) (s : Scope) : List Node :=
  (e.visited ar s).filter (·.target?.isSome)

/-- The names that the completed assignments bind. -/
def completedTargets (ar : Arithmetic) (e : Expr) (s : Scope) : Finset String :=
  ((e.completed ar s).filterMap Node.target?).toFinset

lemma mem_completed {n : Node} :
    n ∈ e.completed ar s ↔ n ∈ e.visited ar s ∧ n.target?.isSome = true :=
  List.mem_filter

lemma lastTo_completed (ar : Arithmetic) (e : Expr) (s : Scope) (name : String) :
    lastTo name (e.completed ar s) = lastTo name (e.visited ar s) := by
  rw [lastTo, lastTo, completed, List.filter_filter]
  congr 2
  funext n
  cases n.target? <;> simp

end Expr

/-- The names that an evaluation writes are those that its completed assignments bind. -/
lemma Evaluates.toFinset_writes {result : Except EvalError Double}
    (h : Evaluates ar e s result s' es) :
    ((writes es).map Prod.fst).toFinset = e.completedTargets ar s := by
  ext name
  rw [List.mem_toFinset, mem_writes_iff, h.filterMap_access? [] [], Expr.completedTargets,
    List.mem_toFinset, List.mem_filterMap, List.mem_filterMap]
  refine exists_congr fun n => ?_
  rw [Node.access?_eq_write_iff, Expr.mem_completed]
  constructor
  · rintro ⟨hn, htarget⟩
    exact ⟨⟨hn, by simp [htarget]⟩, htarget⟩
  · rintro ⟨⟨hn, -⟩, htarget⟩
    exact ⟨hn, htarget⟩

namespace Expr

/-- The result of an assignment is that of its value. -/
lemma resolve_assign_fst (ar : Arithmetic) (target : String) (e : Expr) (env : Env) :
    ((assign target e).resolve ar env).1 = (e.resolve ar env).1 := by
  obtain ⟨result, s', es, h⟩ := exists_evaluates ar e env.scope
  rw [h.resolve_eq]
  cases result with
  | ok v => rw [(Evaluates.stores target h).resolve_eq]
  | error cause => rw [(Evaluates.valueFails target h).resolve_eq]

/-- **What an evaluation leaves behind.** The completed assignments are all those of the expression
if it has a value, and those before the symbol that fails otherwise. A name that none of them
assigns is as it was. Any other name has the value of the last of them that assigns it, which is the
value that the operand of this assignment had when the evaluation came to it. So no name becomes
unbound, the names bound afterwards are the old ones and those of the completed assignments, and
the size has grown by the number of the latter that were not bound before. -/
theorem resolve_settles (ar : Arithmetic) (e : Expr) (s : Scope) (j : Journal) :
    (∀ v, (e.resolve ar ⟨s, j⟩).1 = .ok v →
      e.completed ar s = (e.postorder []).filter (·.target?.isSome))
    ∧ (∀ name, (e.resolve ar ⟨s, j⟩).1 = .error (.unboundSymbol name) →
      ∃ before q after t, e.postorder [] = before ++ ⟨q, .symbol name⟩ :: after
        ∧ e.scopeAt ar s q = some t ∧ t.contains name = false
        ∧ e.completed ar s = before.filter (·.target?.isSome))
    ∧ (∀ name, (∀ n ∈ e.completed ar s, n.target? ≠ some name) →
      (e.resolve ar ⟨s, j⟩).2.scope.get? name = s.get? name)
    ∧ (∀ name n, lastTo name (e.completed ar s) = some n →
      ∃ value t v, n.expr = .assign name value ∧ e.scopeAt ar s n.position = some t
        ∧ (n.expr.resolve ar ⟨t, j⟩).1 = .ok v ∧ (value.resolve ar ⟨t, j⟩).1 = .ok v
        ∧ (e.resolve ar ⟨s, j⟩).2.scope.get? name = some v)
    ∧ (e.resolve ar ⟨s, j⟩).2.scope.names = s.names ∪ e.completedTargets ar s
    ∧ (e.resolve ar ⟨s, j⟩).2.scope.size
        = s.size + (e.completedTargets ar s \ s.names).card := by
  obtain ⟨result, s', es, h⟩ := exists_evaluates ar e s
  have hnames : s'.names = s.names ∪ e.completedTargets ar s := by
    rw [h.scope_eq, Scope.names_setAll, h.toFinset_writes]
  rw [h.resolve_eq]
  refine ⟨?_, ?_, ?_, ?_, hnames, ?_⟩
  · rintro v rfl
    rw [completed, visited, h.visit_of_ok]
  · intro name hresult
    obtain ⟨before, q, after, hpostorder, hvisit, hscope, hunbound⟩ :=
      h.exists_failing hresult [] []
    refine ⟨before, q, after, s', hpostorder, hscope, hunbound, ?_⟩
    rw [completed, visited, hvisit, List.filter_append]
    exact List.append_nil _
  · intro name hnone
    have hsettled := h.settled name [] []
    rw [← visited, ← lastTo_completed, lastTo_eq_none hnone] at hsettled
    exact hsettled
  · intro name n hlast
    obtain ⟨value, hvalue⟩ := Node.exists_expr_eq (target?_of_lastTo hlast)
    have hsettled := h.settled name [] []
    rw [← visited, ← lastTo_completed, hlast] at hsettled
    obtain ⟨q, t, v, t', es', hposition, hscope, hn, hget⟩ := hsettled
    rw [List.nil_append] at hposition
    have hresult : (n.expr.resolve ar ⟨t, j⟩).1 = .ok v := by rw [hn.resolve_eq]
    refine ⟨value, t, v, hvalue, hposition ▸ hscope, hresult, ?_, hget⟩
    rw [← resolve_assign_fst ar name value, ← hvalue, hresult]
  · rw [← Scope.card_names, ← Scope.card_names, hnames, Finset.union_comm,
      ← Finset.card_sdiff_add_card, Nat.add_comm]

/-- Binds a name twice, and then fails inside another assignment. -/
def failsAfterRebinding : Expr :=
  .binary .add (.assign "x" (.number .one))
    (.assign "y" (.binary .add (.assign "x" (.number .zero)) (.symbol "z")))

/-- The theorem at an assignment, and at an evaluation that fails after it has bound a name twice:
the later value stays, and the assignment around the failure does not happen. -/
theorem resolve_settles_after_rebinding :
    (assign "x" (.number .one)).completed .ieee .empty = [⟨[], .assign "x" (.number .one)⟩]
    ∧ (∃ before q after t,
        failsAfterRebinding.postorder [] = before ++ ⟨q, .symbol "z"⟩ :: after
        ∧ failsAfterRebinding.scopeAt .ieee .empty q = some t ∧ t.contains "z" = false)
    ∧ (∃ value t v, (Expr.assign "x" (.number .zero)) = .assign "x" value
        ∧ failsAfterRebinding.scopeAt .ieee .empty [.right, .value, .left] = some t
        ∧ (value.resolve .ieee ⟨t, .silent⟩).1 = .ok v
        ∧ (failsAfterRebinding.resolve .ieee ⟨.empty, .silent⟩).2.scope.get? "x" = some v)
    ∧ (failsAfterRebinding.resolve .ieee ⟨.empty, .silent⟩).2.scope.get? "y" = none := by
  have hvalue := (resolve_settles .ieee (assign "x" (.number .one)) .empty .silent).1 .one
    (by decide +kernel)
  obtain ⟨-, hfails, hkeeps, hlast, -⟩ := resolve_settles .ieee failsAfterRebinding .empty .silent
  obtain ⟨before, q, after, t, hpostorder, hscope, hunbound, -⟩ := hfails "z" (by decide +kernel)
  obtain ⟨value, t', v, hexpr, hscope', -, hresult, hget⟩ :=
    hlast "x" ⟨[.right, .value, .left], .assign "x" (.number .zero)⟩ (by decide +kernel)
  refine ⟨hvalue, ⟨before, q, after, t, hpostorder, hscope, hunbound⟩,
    ⟨value, t', v, hexpr, hscope', hresult, hget⟩, ?_⟩
  rw [hkeeps "y" (by decide +kernel), Scope.get?_empty]

end Expr

end Abacus
