/-!
Why an evaluation fails.
-/

namespace Abacus

/-- The cause of a failed evaluation. Arithmetic never fails, so there is only one. -/
inductive EvalError where
  /-- A symbol is read that has no value. -/
  | unboundSymbol (name : String)
deriving DecidableEq

/-- The wording of the cause. -/
def EvalError.message : EvalError → String
  | unboundSymbol name => String.join ["unbound symbol: ", name]

end Abacus
