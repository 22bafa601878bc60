import Abacus.Decimal.Shortest
import Abacus.Decimal.Positional

/-!
The written form of a double: a minus sign if it carries one, then the shortest decimal that reads
back, in positional notation. A whole number has no point, and NaN has no sign.
-/

namespace Abacus

namespace Double

/-- The written form without its sign. -/
def unsignedText : Double → List Char
  | nan => "NaN".toList
  | infinite _ => "inf".toList
  | finite _ m => (Decimal.shortest m).positional

/-- Whether the written form starts with a minus sign. -/
def isSigned : Double → Bool
  | nan => false
  | infinite s => s
  | finite s _ => s

/-- The written form. -/
def text (x : Double) : String :=
  String.ofList (if x.isSigned then '-' :: x.unsignedText else x.unsignedText)

end Double

end Abacus
