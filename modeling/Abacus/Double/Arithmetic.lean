import Abacus.Double.Basic

/-!
Arithmetic on doubles: the exact result of the operation, rounded once.

* `Double.add`, `sub`, `mul`, `div`: the four operations. Finite operands are whole numbers of
  quanta, so the exact result is a quotient of whole numbers, and `Double.ofQuanta` rounds it.
* `Arithmetic`: four operations on doubles as a record. Evaluation takes them as a parameter, so
  that what it does can be said whatever they compute; `Arithmetic.ieee` are those above.
-/

namespace Abacus

namespace Double

/-- The sum. An exact sum of zero is positive unless both addends carry a minus sign;
infinities of opposite sign have no sum. -/
def add : Double → Double → Double
  | finite s x, finite t y =>
    let sum := signed s x.units + signed t y.units
    if sum = 0 then finite (s && t) .zero else ofQuanta (sum < 0) sum.natAbs 1
  | finite _ _, infinite t => infinite t
  | infinite s, finite _ _ => infinite s
  | infinite s, infinite t => if s = t then infinite s else nan
  | _, _ => nan

/-- The difference. -/
def sub (x y : Double) : Double := add x y.neg

/-- The product. Zero times infinity is not a number. -/
def mul : Double → Double → Double
  | finite s x, finite t y => ofQuanta (s ^^ t) (x.units * y.units) quantaInOne
  | finite s x, infinite t => if x.rank = 0 then nan else infinite (s ^^ t)
  | infinite s, finite t y => if y.rank = 0 then nan else infinite (s ^^ t)
  | infinite s, infinite t => infinite (s ^^ t)
  | _, _ => nan

/-- The quotient. Zero over zero and infinity over infinity are not numbers; any other finite
number over zero is infinite. -/
def div : Double → Double → Double
  | finite s x, finite t y =>
    if y.rank = 0 then (if x.rank = 0 then nan else infinite (s ^^ t))
    else ofQuanta (s ^^ t) (x.units * quantaInOne) y.units
  | finite s _, infinite t => finite (s ^^ t) .zero
  | infinite s, finite t _ => infinite (s ^^ t)
  | _, _ => nan

end Double

/-- Four binary operations on doubles. -/
structure Arithmetic where
  add : Double → Double → Double
  sub : Double → Double → Double
  mul : Double → Double → Double
  div : Double → Double → Double

/-- The correctly rounded operations. -/
def Arithmetic.ieee : Arithmetic := ⟨Double.add, Double.sub, Double.mul, Double.div⟩

end Abacus
