import Abacus.Operator
import Abacus.Literal.Reader

/-!
Expressions of the calculator.

* `Expr`: numbers, symbols, binary operations and assignments.
* `Expr.Kind`, `Expr.kind`: the kind of an expression's root, with its name.
* `Expr.equals`: equality of structure, with numerical equality at the numbers. So an expression
  with a NaN in it differs from itself, and `0` and `-0` are equal.
* `Expr.ofLiteral`: the number expression that a literal writes.
-/

namespace Abacus

/-- An expression. -/
inductive Expr where
  | number (value : Double)
  | symbol (name : String)
  | binary (op : Operator) (left right : Expr)
  | assign (target : String) (value : Expr)
deriving DecidableEq

namespace Expr

/-- The kind of an expression's root. -/
inductive Kind where
  | number
  | symbol
  | binary
  | assign
deriving DecidableEq

/-- The name of a kind. -/
def Kind.name : Kind → String
  | number => "number"
  | symbol => "symbol"
  | binary => "binary"
  | assign => "assign"

/-- The kind of the root. -/
def kind : Expr → Kind
  | number _ => .number
  | symbol _ => .symbol
  | binary .. => .binary
  | assign .. => .assign

/-- Equality of structure, with numerical equality of numbers. -/
def equals : Expr → Expr → Bool
  | number x, number y => x.equals y
  | symbol m, symbol n => m == n
  | binary op l r, binary op' l' r' => op == op' && l.equals l' && r.equals r'
  | assign m v, assign n w => m == n && v.equals w
  | _, _ => false

/-- The number that a literal writes. -/
def ofLiteral (text : String) : Except Literal.Error Expr := .number <$> Literal.value text

end Expr

end Abacus
