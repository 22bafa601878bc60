import Mathlib.Tactic.Common
import Abacus.Proofs.Evaluation.StackMachine

/-!
The course of an evaluation.

An evaluation is described by rules, one for each way in which a node can end: what its result is,
which scope it leaves, and what it records. Everything that is said about evaluations and about the
journal is proved by going through these rules.

* `Journal.logAll`: a list of entries recorded one after the other.
* `Journal.exists_of_foldlM_eq_some`: a list that is gone through to its end is gone through up to
  each of its elements.
* `Journal.span`: entries between the `enter` and the `exit` of a node.
* `Evaluates`: the rules. Whatever a node records stands in its span, whether it fails or not.
* `Evaluates.eval_eq`, `exists_evaluates`: every evaluation follows the rules, and what it does
  does not depend on the journal that it is recorded in.
-/

namespace Abacus

namespace Journal

/-- Records the entries of a list one after the other. -/
def logAll (j : Journal) (es : List Entry) : Journal := es.foldl log j

lemma logAll_nil (j : Journal) : j.logAll [] = j := rfl

lemma logAll_cons (j : Journal) (e : Entry) (es : List Entry) :
    j.logAll (e :: es) = (j.log e).logAll es := rfl

lemma logAll_append (j : Journal) (es es' : List Entry) :
    j.logAll (es ++ es') = (j.logAll es).logAll es' :=
  List.foldl_append

/-- Where all elements of a list are gone through, each of them has been come to. -/
lemma exists_of_foldlM_eq_some {α β : Type} {f : α → β → Option α} {a a' : α} {x : β}
    {before after : List β} (h : (before ++ x :: after).foldlM f a = some a') :
    ∃ b b', before.foldlM f a = some b ∧ f b x = some b' := by
  rw [List.foldlM_append] at h
  obtain ⟨b, hbefore, hrest⟩ := Option.bind_eq_some_iff.mp h
  rw [List.foldlM_cons] at hrest
  obtain ⟨b', hx, -⟩ := Option.bind_eq_some_iff.mp hrest
  exact ⟨b, b', hbefore, hx⟩

/-- The entries of a node with what is recorded inside it. -/
def span (kind : Expr.Kind) (inner : List Entry) : List Entry := .enter kind :: (inner ++ [.exit])

lemma logAll_span (j : Journal) (kind : Expr.Kind) (inner : List Entry) :
    j.logAll (span kind inner) = ((j.log (.enter kind)).logAll inner).log .exit := by
  rw [span, logAll_cons, logAll_append]
  rfl

/-- A journal keeps those entries that its level includes. -/
lemma toList_entries_logAll (j : Journal) (es : List Entry) :
    (j.logAll es).entries.toList
      = j.entries.toList ++ es.filter (fun e => j.level.includes e.level) := by
  induction es generalizing j with
  | nil => rw [logAll_nil, List.filter_nil, List.append_nil]
  | cons e es ih =>
      rw [logAll_cons, ih, toList_entries_log, level_log, List.append_assoc, ← List.filter_append,
        List.singleton_append]

/-- On the lowest level everything is kept. -/
lemma toList_entries_logAll_trace {j : Journal} (h : j.level = .trace) (es : List Entry) :
    (j.logAll es).entries.toList = j.entries.toList ++ es := by
  have hall : ∀ e : Entry, Level.trace.includes e.level = true := by
    rintro (_ | _ | _ | _ | _ | _ | _ | _) <;> rfl
  rw [toList_entries_logAll, h, List.filter_eq_self.mpr fun e _ => hall e]

end Journal

open Journal in
/-- `Evaluates ar e s r s' es`: in the scope `s` the expression `e` has the result `r`, leaves the
scope `s'` and records `es`. -/
inductive Evaluates (ar : Arithmetic) :
    Expr → Scope → Except EvalError Double → Scope → List Entry → Prop where
  /-- A number is its own value. -/
  | number (x : Double) (s : Scope) : Evaluates ar (.number x) s (.ok x) s (span .number [])
  /-- A bound symbol has the value of its name. -/
  | bound {name : String} {s : Scope} {v : Double} (found : s.get? name = some v) :
      Evaluates ar (.symbol name) s (.ok v) s (span .symbol [.getSymbol name true])
  /-- An unbound symbol fails. -/
  | unbound {name : String} {s : Scope} (missing : s.get? name = none) :
      Evaluates ar (.symbol name) s (.error (.unboundSymbol name)) s
        (span .symbol [.getSymbol name false, .unboundSymbol name])
  /-- If the left operand fails, the right one is not evaluated. -/
  | leftFails (op : Operator) (r : Expr) {l : Expr} {s s' : Scope} {cause : EvalError}
      {es : List Entry} (left : Evaluates ar l s (.error cause) s' es) :
      Evaluates ar (.binary op l r) s (.error cause) s' (span .binary es)
  /-- The right operand is evaluated in the scope that the left one leaves. -/
  | rightFails (op : Operator) {l r : Expr} {s s' s'' : Scope} {x : Double} {cause : EvalError}
      {es es' : List Entry} (left : Evaluates ar l s (.ok x) s' es)
      (right : Evaluates ar r s' (.error cause) s'' es') :
      Evaluates ar (.binary op l r) s (.error cause) s'' (span .binary (es ++ es'))
  /-- The operator is applied to the values of its operands. -/
  | applies (op : Operator) {l r : Expr} {s s' s'' : Scope} {x y : Double} {es es' : List Entry}
      (left : Evaluates ar l s (.ok x) s' es) (right : Evaluates ar r s' (.ok y) s'' es') :
      Evaluates ar (.binary op l r) s (.ok (op.apply ar x y)) s'' (span .binary (es ++ es'))
  /-- If its value fails, an assignment binds nothing. -/
  | valueFails (target : String) {e : Expr} {s s' : Scope} {cause : EvalError} {es : List Entry}
      (value : Evaluates ar e s (.error cause) s' es) :
      Evaluates ar (.assign target e) s (.error cause) s' (span .assign es)
  /-- An assignment binds its target to its value, and has that value. -/
  | stores (target : String) {e : Expr} {s s' : Scope} {v : Double} {es : List Entry}
      (value : Evaluates ar e s (.ok v) s' es) :
      Evaluates ar (.assign target e) s (.ok v) (s'.set target v)
        (span .assign (es ++ [.setSymbol target v]))

variable {ar : Arithmetic}

/-- What the rules say is what evaluation does, whatever journal it is recorded in. -/
lemma Evaluates.eval_eq {e : Expr} {s s' : Scope} {r : Except EvalError Double}
    {es : List Journal.Entry} (h : Evaluates ar e s r s' es) (j : Journal) :
    e.eval ar ⟨s, j⟩ = (r, ⟨s', j.logAll es⟩) := by
  induction h generalizing j with
  | number x s => rfl
  | bound found =>
      rw [Expr.eval, Env.span, Env.load, Env.get, Env.scope_log, found]
      rfl
  | unbound missing =>
      rw [Expr.eval, Env.span, Env.load, Env.get, Env.scope_log, missing]
      rfl
  | leftFails op r left ih =>
      rw [Expr.eval, Env.span, Env.log, ih, Journal.logAll_span]
      rfl
  | rightFails op left right ihl ihr =>
      rw [Expr.eval, Env.span, Env.log, ihl, Journal.logAll_span, Journal.logAll_append]
      simp only [ihr, Env.log]
  | applies op left right ihl ihr =>
      rw [Expr.eval, Env.span, Env.log, ihl, Journal.logAll_span, Journal.logAll_append]
      simp only [ihr, Env.log]
  | valueFails target value ih =>
      rw [Expr.eval, Env.span, Env.log, ih, Journal.logAll_span]
      rfl
  | stores target value ih =>
      rw [Expr.eval, Env.span, Env.log, ih, Journal.logAll_span, Journal.logAll_append]
      rfl

/-- Every evaluation follows the rules. -/
lemma exists_evaluates (ar : Arithmetic) (e : Expr) (s : Scope) :
    ∃ r s' es, Evaluates ar e s r s' es := by
  induction e generalizing s with
  | number x => exact ⟨_, _, _, .number x s⟩
  | symbol name =>
      cases hname : s.get? name with
      | some v => exact ⟨_, _, _, .bound hname⟩
      | none => exact ⟨_, _, _, .unbound hname⟩
  | binary op l r ihl ihr =>
      obtain ⟨_ | x, s', es, left⟩ := ihl s
      · exact ⟨_, _, _, .leftFails op r left⟩
      · obtain ⟨_ | y, s'', es', right⟩ := ihr s'
        · exact ⟨_, _, _, .rightFails op left right⟩
        · exact ⟨_, _, _, .applies op left right⟩
  | assign target e ih =>
      obtain ⟨_ | v, s', es, value⟩ := ih s
      · exact ⟨_, _, _, .valueFails target value⟩
      · exact ⟨_, _, _, .stores target value⟩

/-- The loop, too, does what the rules say. -/
lemma Evaluates.resolve_eq {e : Expr} {s s' : Scope} {r : Except EvalError Double}
    {es : List Journal.Entry} (h : Evaluates ar e s r s' es) (j : Journal) :
    e.resolve ar ⟨s, j⟩ = (r, ⟨s', j.logAll es⟩) := by
  rw [Expr.resolve_eq_eval, h.eval_eq]

/-- An expression that has a value runs its code to the end. -/
lemma Evaluates.run_code_of_ok {e : Expr} {s s' : Scope} {v : Double} {es : List Journal.Entry}
    (h : Evaluates ar e s (.ok v) s' es) (stack : List Double) :
    Machine.run ar e.code ⟨stack, s⟩ = .finished ⟨v :: stack, s'⟩ := by
  have hrun := Machine.run_code ar e stack ⟨s, .silent⟩
  rw [h.resolve_eq] at hrun
  exact hrun

/-- An expression that fails stops the machine. -/
lemma Evaluates.run_code_of_error {e : Expr} {s s' : Scope} {name : String}
    {es : List Journal.Entry} (h : Evaluates ar e s (.error (.unboundSymbol name)) s' es)
    (stack : List Double) :
    Machine.run ar e.code ⟨stack, s⟩ = .stopped name s' := by
  have hrun := Machine.run_code ar e stack ⟨s, .silent⟩
  rw [h.resolve_eq] at hrun
  exact hrun

end Abacus
