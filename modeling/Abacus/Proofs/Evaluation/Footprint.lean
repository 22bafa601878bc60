import Mathlib.Tactic.Common
import Abacus.Proofs.Evaluation.Record

/-!
What an expression reads and writes.

* `Expr.accesses`: the accesses of an expression to the scope, in post-order. An evaluation makes
  them in this order, all of them if it has a value (`Evaluates.filterMap_access?_of_ok`) and the
  first ones otherwise (`Evaluates.filterMap_access?_isPrefix`).
* `Evaluates.write_mem_of_mem_writes`: only names that the expression assigns are written, so any
  other name keeps its value (`Evaluates.get?_eq_of_unassigned`).
* `Expr.IsInput`: a name that is read before it is written. An evaluation goes the same way, with
  the same record, in every scope that gives these names the same values (`Evaluates.of_agree`).
-/

namespace Abacus

open Journal

/-! ### Accesses in post-order -/

/-- The access that an instruction makes. -/
def Instruction.access? : Instruction → Option Access
  | load name => some (.read name)
  | store target => some (.write target)
  | push _ | apply _ => none

lemma Node.access?_instruction (n : Node) : n.instruction.access? = n.access? := by
  obtain ⟨p, e⟩ := n
  cases e <;> rfl

namespace Expr

/-- The accesses of an expression: its symbols and assignments, in post-order. -/
def accesses (e : Expr) : List Access := (e.postorder []).filterMap Node.access?

/-- The accesses do not depend on where the expression stands. -/
lemma filterMap_access?_postorder (e : Expr) (p : List Side) :
    (e.postorder p).filterMap Node.access? = e.code.filterMap Instruction.access? := by
  rw [← e.map_instruction_postorder p, List.filterMap_map]
  congr 1
  funext n
  exact n.access?_instruction.symm

lemma filterMap_access?_code (e : Expr) : e.code.filterMap Instruction.access? = e.accesses :=
  (e.filterMap_access?_postorder []).symm

@[simp] lemma accesses_number (x : Double) : (number x).accesses = [] := rfl

@[simp] lemma accesses_symbol (name : String) : (symbol name).accesses = [.read name] := rfl

@[simp] lemma accesses_binary (op : Operator) (l r : Expr) :
    (binary op l r).accesses = l.accesses ++ r.accesses := by
  rw [← filterMap_access?_code, code, List.filterMap_append, List.filterMap_append,
    filterMap_access?_code, filterMap_access?_code]
  exact List.append_nil _

@[simp] lemma accesses_assign (target : String) (e : Expr) :
    (assign target e).accesses = e.accesses ++ [.write target] := by
  rw [← filterMap_access?_code, code, List.filterMap_append, filterMap_access?_code]
  rfl

/-! ### Inputs -/

/-- A name is an input of an expression if one of its symbols reads it before any assignment to it,
in post-order. -/
def IsInput (e : Expr) (name : String) : Prop :=
  ∃ before after, e.accesses = before ++ .read name :: after ∧ .write name ∉ before

variable {e l r : Expr} {name : String}

lemma IsInput.read_mem (h : e.IsInput name) : .read name ∈ e.accesses := by
  obtain ⟨before, after, haccesses, -⟩ := h
  rw [haccesses]
  simp

lemma isInput_symbol (name : String) : (symbol name).IsInput name := ⟨[], [], rfl, by simp⟩

/-- What is an input of the accesses before some others is an input of all of them. -/
lemma IsInput.of_accesses_eq {e' : Expr} {rest : List Access} (h : e.IsInput name)
    (he : e'.accesses = e.accesses ++ rest) : e'.IsInput name := by
  obtain ⟨before, after, haccesses, hwrite⟩ := h
  exact ⟨before, after ++ rest, by rw [he, haccesses, List.append_assoc, List.cons_append], hwrite⟩

lemma IsInput.binary_left (op : Operator) (r : Expr) (h : l.IsInput name) :
    (binary op l r).IsInput name :=
  h.of_accesses_eq (accesses_binary op l r)

lemma IsInput.assign (target : String) (h : e.IsInput name) :
    (Expr.assign target e).IsInput name :=
  h.of_accesses_eq (accesses_assign target e)

/-- An input of the right operand is one of the whole unless the left operand assigns it. -/
lemma IsInput.binary_right (op : Operator) (h : r.IsInput name) (hl : .write name ∉ l.accesses) :
    (binary op l r).IsInput name := by
  obtain ⟨before, after, haccesses, hwrite⟩ := h
  refine ⟨l.accesses ++ before, after, ?_, ?_⟩
  · rw [accesses_binary, haccesses, List.append_assoc]
  · simp [hl, hwrite]

end Expr

/-! ### Evaluations -/

/-- Only a first part of a list of nodes is visited. -/
lemma Machine.visit_isPrefix (ar : Arithmetic) (ns : List Node) (m : Machine) :
    visit ar ns m <+: ns := by
  induction ns generalizing m with
  | nil => exact List.prefix_rfl
  | cons n ns ih =>
      rw [visit]
      cases n.instruction.exec ar m with
      | finished m' => exact (List.prefix_cons_inj n).mpr (ih m')
      | stopped name scope => simp
      | underflow => simp

namespace Evaluates

variable {ar : Arithmetic} {e : Expr} {s s' t : Scope} {r : Except EvalError Double}
  {es : List Entry} {name : String}

/-- An evaluation makes the accesses of its expression in their order. -/
lemma filterMap_access?_isPrefix (h : Evaluates ar e s r s' es) :
    es.filterMap Entry.access? <+: e.accesses := by
  rw [h.filterMap_access? [] []]
  exact (Machine.visit_isPrefix ar (e.postorder []) ⟨[], s⟩).filterMap _

/-- An evaluation that has a value makes all of them. -/
lemma filterMap_access?_of_ok {v : Double} (h : Evaluates ar e s (.ok v) s' es) :
    es.filterMap Entry.access? = e.accesses := by
  rw [h.filterMap_access? [] [], h.visit_of_ok, Expr.accesses]

/-- Only names that an expression assigns are written. -/
lemma write_mem_of_mem_writes (h : Evaluates ar e s r s' es)
    (hname : name ∈ (writes es).map Prod.fst) : .write name ∈ e.accesses :=
  h.filterMap_access?_isPrefix.subset (mem_writes_iff.mp hname)

/-- A name that an expression does not assign keeps its value. -/
lemma get?_eq_of_unassigned (h : Evaluates ar e s r s' es) (hname : .write name ∉ e.accesses) :
    s'.get? name = s.get? name := by
  rw [h.scope_eq]
  exact Scope.get?_setAll_of_notMem fun hwritten => hname (h.write_mem_of_mem_writes hwritten)

/-- An expression that has a value writes all names that it assigns. -/
lemma mem_writes_of_ok {v : Double} (h : Evaluates ar e s (.ok v) s' es)
    (hname : .write name ∈ e.accesses) : name ∈ (writes es).map Prod.fst := by
  rw [mem_writes_iff, h.filterMap_access?_of_ok]
  exact hname

/-- After a left operand has been evaluated in two scopes that agree on the inputs of the whole, the
scopes agree on the inputs of the right operand: what the left operand has assigned is the same in
both, and any other input of the right operand is an input of the whole. -/
lemma agree_right (op : Operator) {l r : Expr} {v : Double} (left : Evaluates ar l s (.ok v) s' es)
    (hagree : ∀ n, (Expr.binary op l r).IsInput n → s.get? n = t.get? n) (hr : r.IsInput name) :
    s'.get? name = (t.setAll (writes es)).get? name := by
  rw [left.scope_eq]
  apply Scope.get?_setAll_congr
  by_cases hl : .write name ∈ l.accesses
  · exact .inr (left.mem_writes_of_ok hl)
  · exact .inl (hagree name (hr.binary_right op hl))

/-- **An evaluation depends on its inputs alone.** In every scope that gives the inputs of an
expression the same values, its evaluation has the same result and the same record, and writes the
same bindings. -/
theorem of_agree (h : Evaluates ar e s r s' es)
    (hagree : ∀ n, e.IsInput n → s.get? n = t.get? n) :
    Evaluates ar e t r (t.setAll (writes es)) es := by
  -- The scopes need not agree on all names: after each operand they agree on the inputs that are
  -- left, since those that the operand has assigned are the same in both.
  induction h generalizing t with
  | number x s => exact .number x t
  | @bound name s v found =>
      exact .bound ((hagree name (Expr.isInput_symbol name)).symm.trans found)
  | @unbound name s missing =>
      exact .unbound ((hagree name (Expr.isInput_symbol name)).symm.trans missing)
  | leftFails op r left ih =>
      rw [writes_span]
      exact .leftFails op r (ih fun n hn => hagree n (hn.binary_left op r))
  | @rightFails op l r s s' s'' x cause es es' left right ihl ihr =>
      have hleft := ihl fun n hn => hagree n (hn.binary_left op r)
      rw [writes_span, writes_append, Scope.setAll_append]
      exact .rightFails op hleft (ihr fun n hn => left.agree_right op hagree hn)
  | @applies op l r s s' s'' x y es es' left right ihl ihr =>
      have hleft := ihl fun n hn => hagree n (hn.binary_left op r)
      rw [writes_span, writes_append, Scope.setAll_append]
      exact .applies op hleft (ihr fun n hn => left.agree_right op hagree hn)
  | valueFails target value ih =>
      rw [writes_span]
      exact .valueFails target (ih fun n hn => hagree n (hn.assign target))
  | stores target value ih =>
      rw [writes_span, writes_append, Scope.setAll_append]
      exact .stores target (ih fun n hn => hagree n (hn.assign target))

end Evaluates

end Abacus
