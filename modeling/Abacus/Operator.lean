import Abacus.Double.Arithmetic
import Abacus.Double.Order

/-!
The binary operators.

* `Operator`: the five operators, each with a symbol, an action name and a precedence. The lower
  the precedence, the tighter the operator binds.
* `Operator.ofName?`: the operator of a symbol or an action name.
* `Operator.apply`: what an operator computes. Comparison yields one or zero; the rest is
  arithmetic.
-/

namespace Abacus

/-- A binary operator. -/
inductive Operator where
  | add
  | sub
  | mul
  | div
  | eq
deriving DecidableEq

namespace Operator

/-- The operators in their fixed order. -/
def all : List Operator := [add, sub, mul, div, eq]

/-- The sign an operator is written with. -/
def symbol : Operator → String
  | add => "+"
  | sub => "-"
  | mul => "*"
  | div => "/"
  | eq => "=="

/-- The word for what an operator does. -/
def action : Operator → String
  | add => "add"
  | sub => "sub"
  | mul => "mul"
  | div => "div"
  | eq => "eq"

/-- How loosely an operator binds. -/
def precedence : Operator → Nat
  | mul | div => 3
  | add | sub => 4
  | eq => 8

/-- The operator with the given symbol or action name. -/
def ofName? (name : String) : Option Operator :=
  all.find? fun op => op.action == name || op.symbol == name

theorem mem_all (op : Operator) : op ∈ all := by cases op <;> decide

@[simp] theorem ofName?_symbol (op : Operator) : ofName? op.symbol = some op := by
  cases op <;> decide

@[simp] theorem ofName?_action (op : Operator) : ofName? op.action = some op := by
  cases op <;> decide

/-- What an operator computes, given the four arithmetic operations. -/
def apply (ar : Arithmetic) : Operator → Double → Double → Double
  | add => ar.add
  | sub => ar.sub
  | mul => ar.mul
  | div => ar.div
  | eq => fun x y => if x.equals y then .one else .zero

end Operator

end Abacus
