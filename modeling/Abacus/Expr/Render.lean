import Abacus.Expr.Basic
import Abacus.Double.Text

/-!
The written form of an expression.

* `Expr.precedence`: how loosely the root of an expression binds; assignment is the loosest, and
  numbers and symbols never need parentheses.
* `Expr.render`: the text, with parentheses only where precedence asks for them. Operators group
  to the left: an operand of the same precedence stands bare on the left and in parentheses on the
  right. The value of an assignment stands bare, as nothing follows it.
-/

namespace Abacus

namespace Expr

/-- How loosely the root binds. -/
def precedence : Expr → Nat
  | number _ | symbol _ => 0
  | binary op _ _ => op.precedence
  | assign _ _ => 15

/-- A text in parentheses if the condition holds. -/
def enclosed (condition : Bool) (text : String) : String :=
  if condition then "(" ++ text ++ ")" else text

/-- The written form. -/
def render : Expr → String
  | number x => x.text
  | symbol name => name
  | binary op l r =>
    enclosed (decide (op.precedence < l.precedence)) l.render ++ " " ++ op.symbol ++ " " ++
      enclosed (decide (op.precedence ≤ r.precedence)) r.render
  | assign target v => target ++ " = " ++ v.render

end Expr

end Abacus
