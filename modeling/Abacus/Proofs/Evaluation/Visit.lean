import Mathlib.Tactic.Common
import Abacus.Proofs.Evaluation.Course

/-!
The nodes of an expression, and those that an evaluation visits.

* `Node`: a node, with the way that leads to it from the root.
* `Expr.preorder`, `Expr.postorder`: the nodes of an expression, each before or after those below
  it. The code of an expression has one instruction for each node in post-order
  (`map_instruction_postorder`).
* `Expr.visited`: the nodes whose instructions are carried out, up to and including the one that
  stops the machine, if there is one.
* `Evaluates.visit_append_of_ok`, `Evaluates.visit_append_of_error`: of an operand with a value all
  nodes are visited, and then those that follow; after an operand that fails nothing is visited.
-/

namespace Abacus

/-- Where an operand stands under its parent. -/
inductive Side where
  | left
  | right
  | value
deriving DecidableEq

/-- A node of an expression: the way to it from the root, and the expression below it. -/
structure Node where
  position : List Side
  expr : Expr
deriving DecidableEq

namespace Node

/-- The number of nodes above a node. -/
def depth (n : Node) : ℕ := n.position.length

/-- The kind of a node. -/
def kind (n : Node) : Expr.Kind := n.expr.kind

/-- The instruction of a node. -/
def instruction (n : Node) : Instruction :=
  match n.expr with
  | .number x => .push x
  | .symbol name => .load name
  | .binary op _ _ => .apply op
  | .assign target _ => .store target

end Node

namespace Expr

/-- The nodes of an expression at a position, each before those below it. -/
def preorder (p : List Side) : Expr → List Node
  | number x => [⟨p, number x⟩]
  | symbol name => [⟨p, symbol name⟩]
  | binary op l r =>
    ⟨p, binary op l r⟩ :: (l.preorder (p ++ [.left]) ++ r.preorder (p ++ [.right]))
  | assign target e => ⟨p, assign target e⟩ :: e.preorder (p ++ [.value])

/-- The nodes of an expression at a position, each after those below it. -/
def postorder (p : List Side) : Expr → List Node
  | number x => [⟨p, number x⟩]
  | symbol name => [⟨p, symbol name⟩]
  | binary op l r =>
    l.postorder (p ++ [.left]) ++ (r.postorder (p ++ [.right]) ++ [⟨p, binary op l r⟩])
  | assign target e => e.postorder (p ++ [.value]) ++ [⟨p, assign target e⟩]

/-- The code of an expression is the code of its nodes in post-order. -/
lemma map_instruction_postorder (e : Expr) (p : List Side) :
    (e.postorder p).map Node.instruction = e.code := by
  induction e generalizing p with
  | number x => rfl
  | symbol name => rfl
  | binary op l r ihl ihr =>
      rw [postorder, List.map_append, List.map_append, ihl, ihr, code, List.append_assoc]
      rfl
  | assign target e ih =>
      rw [postorder, List.map_append, ih, code]
      rfl

end Expr

namespace Machine

/-- The nodes of a list whose instructions the machine carries out, and the one that stops it. -/
def visit (ar : Arithmetic) : List Node → Machine → List Node
  | [], _ => []
  | n :: ns, m =>
    match n.instruction.exec ar m with
    | .finished m => n :: visit ar ns m
    | _ => [n]

variable {ar : Arithmetic}

lemma visit_append_of_finished {ns : List Node} {m m' : Machine}
    (h : run ar (ns.map Node.instruction) m = .finished m') (ns' : List Node) :
    visit ar (ns ++ ns') m = ns ++ visit ar ns' m' := by
  induction ns generalizing m with
  | nil =>
      cases h
      rfl
  | cons n ns ih =>
      rw [List.map_cons] at h
      obtain ⟨m₁, hexec, hrest⟩ := exists_exec_of_run_cons h
      rw [List.cons_append, visit, hexec]
      simp only [ih hrest, List.cons_append]

lemma visit_append_of_stopped {ns : List Node} {m : Machine} {name : String} {scope : Scope}
    (h : run ar (ns.map Node.instruction) m = .stopped name scope) (ns' : List Node) :
    visit ar (ns ++ ns') m = visit ar ns m := by
  induction ns generalizing m with
  | nil => cases h
  | cons n ns ih =>
      rw [List.map_cons, run] at h
      rw [List.cons_append, visit, visit]
      cases hexec : n.instruction.exec ar m with
      | finished m₁ =>
          rw [hexec] at h
          simp only [ih h]
      | stopped name scope => rfl
      | underflow => rfl

end Machine

variable {ar : Arithmetic} {e : Expr} {s s' : Scope} {es : List Journal.Entry}

/-- Of an expression that has a value all nodes are visited, and then those that follow. -/
lemma Evaluates.visit_append_of_ok {v : Double} (h : Evaluates ar e s (.ok v) s' es)
    (p : List Side) (ns : List Node) (stack : List Double) :
    Machine.visit ar (e.postorder p ++ ns) ⟨stack, s⟩
      = e.postorder p ++ Machine.visit ar ns ⟨v :: stack, s'⟩ := by
  have hrun : Machine.run ar ((e.postorder p).map Node.instruction) ⟨stack, s⟩
      = .finished ⟨v :: stack, s'⟩ := by
    rw [Expr.map_instruction_postorder, h.run_code_of_ok]
  exact Machine.visit_append_of_finished hrun ns

/-- After an expression that fails nothing is visited. -/
lemma Evaluates.visit_append_of_error {cause : EvalError}
    (h : Evaluates ar e s (.error cause) s' es) (p : List Side) (ns : List Node)
    (stack : List Double) :
    Machine.visit ar (e.postorder p ++ ns) ⟨stack, s⟩
      = Machine.visit ar (e.postorder p) ⟨stack, s⟩ := by
  obtain ⟨name⟩ := cause
  have hrun : Machine.run ar ((e.postorder p).map Node.instruction) ⟨stack, s⟩
      = .stopped name s' := by
    rw [Expr.map_instruction_postorder, h.run_code_of_error]
  exact Machine.visit_append_of_stopped hrun ns

lemma Evaluates.visit_of_ok {v : Double} (h : Evaluates ar e s (.ok v) s' es) (p : List Side)
    (stack : List Double) :
    Machine.visit ar (e.postorder p) ⟨stack, s⟩ = e.postorder p := by
  have hvisit := h.visit_append_of_ok p [] stack
  rwa [List.append_nil, Machine.visit, List.append_nil] at hvisit

/-- The nodes that the evaluation of an expression visits, each after those below it. -/
def Expr.visited (ar : Arithmetic) (e : Expr) (s : Scope) : List Node :=
  Machine.visit ar (e.postorder []) ⟨[], s⟩

end Abacus
