import Abacus.Single

/-!
Numbers of the host program, as they are handed to the calculator.

* `HostNumber`: a number of any of the accepted kinds.
* `HostNumber.toDouble`: its value as a double. Each kind fits into the double format, so the
  conversion is exact.
-/

namespace Abacus

/-- A number of the host program. -/
inductive HostNumber where
  | double (value : Double)
  | single (value : Single)
  | int32 (value : Int32)
  | uint32 (value : UInt32)
  | bool (value : Bool)

/-- The value as a double; a truth value counts as one or zero. -/
def HostNumber.toDouble : HostNumber → Double
  | double x => x
  | single x => x.toDouble
  | int32 n => .ofInt n.toInt
  | uint32 n => .ofInt n.toNat
  | bool b => if b then .one else .zero

end Abacus
