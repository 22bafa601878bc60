import Abacus.Double.Basic

/-!
Non-negative decimal numbers `coefficient · 10 ^ exponent`, and the doubles nearest to them.

* `Decimal`: a coefficient and a power of ten, as a number literal writes them.
* `Decimal.toDouble`: the nearest double. A literal may write an exponent of any length, so two
  bounds come first that settle what is certainly too large or certainly too small without
  expanding the power of ten; all else is one exact quotient, rounded once.
-/

namespace Abacus

/-- The number `coefficient · 10 ^ exponent`. -/
structure Decimal where
  coefficient : Nat
  exponent : Int
deriving DecidableEq

namespace Decimal

/-- The power of ten with exponent `n`. -/
def tenPow (n : Nat) : Nat := Nat.pow 10 n

/-- A positive decimal is infinite as a double once its power of ten is `10 ^ 309`. -/
def isHuge (d : Decimal) : Bool := 309 ≤ d.exponent

/-- With `b` bits in the coefficient the number is below `2 ^ b · 10 ^ exponent`. As `10 ^ -324`
is less than half a quantum and ten is more than `2 ^ 3`, it rounds to zero once `b` is at most
three times the number of places beyond the 324th. -/
def isTiny (d : Decimal) : Bool := (d.coefficient.log2 + 1 : Int) ≤ 3 * (-324 - d.exponent)

/-- The double nearest to the number, infinite beyond the last finite one. -/
def toDouble (d : Decimal) : Double :=
  if d.coefficient = 0 then .zero
  else if d.isHuge then .infinite false
  else if d.isTiny then .zero
  else .ofQuanta false (d.coefficient * tenPow d.exponent.toNat * Double.quantaInOne)
    (tenPow (-d.exponent).toNat)

end Decimal

end Abacus
