import Abacus.Expr.Basic

/-!
Building an expression from pieces in reverse Polish order.

* `Piece`: a leaf, an operator by name, or an assignment.
* `Piece.place`: one piece put on a stack of finished expressions. Operators and assignments take
  their operands from its top.
* `Expr.assemble`: the expression that a list of pieces builds. The first piece that cannot be
  placed decides the error.
-/

namespace Abacus

/-- A piece of an expression in reverse Polish order. -/
inductive Piece where
  | number (value : Double)
  | literal (text : String)
  | symbol (name : String)
  | operator (name : String)
  | assign (target : String)

/-- Why a list of pieces builds no expression. -/
inductive AssemblyError where
  /-- A literal cannot be read. -/
  | literal (cause : Literal.Error)
  /-- There is no operator with this name. -/
  | unknownOperator (name : String)
  /-- A piece lacks operands, or the pieces do not leave exactly one expression. -/
  | unbalanced
deriving DecidableEq

/-- The wording of a cause. -/
def AssemblyError.message : AssemblyError → String
  | literal cause => cause.message
  | unknownOperator name => String.join ["unknown binary operator `", name, "`"]
  | unbalanced => "unbalanced expression"

/-- Looks up an operator by name. -/
def Operator.ofName (name : String) : Except AssemblyError Operator :=
  match ofName? name with
  | some op => .ok op
  | none => .error (.unknownOperator name)

/-- Puts a piece on the stack of finished expressions. An operator's name is looked up before its
operands are taken. -/
def Piece.place (stack : List Expr) : Piece → Except AssemblyError (List Expr)
  | number x => .ok (.number x :: stack)
  | literal text =>
    match Expr.ofLiteral text with
    | .ok e => .ok (e :: stack)
    | .error cause => .error (.literal cause)
  | symbol name => .ok (.symbol name :: stack)
  | operator name =>
    match Operator.ofName name, stack with
    | .error e, _ => .error e
    | .ok op, right :: left :: rest => .ok (.binary op left right :: rest)
    | .ok _, _ => .error .unbalanced
  | assign target =>
    match stack with
    | value :: rest => .ok (.assign target value :: rest)
    | [] => .error .unbalanced

/-- The expression that a list of pieces builds. -/
def Expr.assemble (pieces : List Piece) : Except AssemblyError Expr :=
  match pieces.foldlM Piece.place [] with
  | .ok [e] => .ok e
  | .ok _ => .error .unbalanced
  | .error e => .error e

end Abacus
