import Abacus.Decimal.Basic

/-!
Positional notation: a decimal written without an exponent.
-/

namespace Abacus

/-- Positional notation. With a negative exponent the coefficient is filled up with zeros in front,
so that at least one digit stands before the point. -/
def Decimal.positional (d : Decimal) : List Char :=
  let ds := Nat.toDigits 10 d.coefficient
  let places := (-d.exponent).toNat
  if places = 0 then ds ++ List.replicate d.exponent.toNat '0'
  else
    let padded := List.replicate (places + 1 - ds.length) '0' ++ ds
    let whole := padded.length - places
    padded.take whole ++ '.' :: padded.drop whole

end Abacus
