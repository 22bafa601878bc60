import Abacus.Double.Basic

/-!
Single-precision numbers.

They stand on a grid of their own, with 23 fraction bits and quanta of `2 ^ -149`.

* `Single`: the values of the format, and `Single.ofBits`, its interchange encoding.
* `Single.toDouble`: the same number in double precision. Every single-precision magnitude is also
  a magnitude of double precision, so nothing is lost to rounding.
-/

namespace Abacus

namespace Single

/-- The number of finite magnitudes: 255 exponent fields of `2 ^ 23` fractions each. -/
def limit : Nat := 255 * Grid.binade 23

/-- A finite magnitude, named by its place among all finite magnitudes in increasing order. -/
structure Magnitude where
  rank : Nat
  rank_lt : rank < limit
deriving DecidableEq

/-- The exact size in quanta of single precision. -/
def Magnitude.units (m : Magnitude) : Nat := Grid.point 23 m.rank

/-- A quantum of single precision is this many quanta of double precision. -/
def quantaRatio : Nat := Nat.pow 2 (1074 - 149)

end Single

/-- A single-precision number. -/
inductive Single where
  | nan
  | infinite (negative : Bool)
  | finite (negative : Bool) (magnitude : Single.Magnitude)
deriving DecidableEq

namespace Single

/-- The place value of the sign bit. -/
def signPlace : Nat := Nat.pow 2 31

/-- Reads 32 bits: the sign bit, then the rank; past the finite ranks stand infinity and NaNs. -/
def ofBits (bits : UInt32) : Single :=
  let negative := decide (signPlace ≤ bits.toNat)
  let rank := bits.toNat % signPlace
  if h : rank < limit then .finite negative ⟨rank, h⟩
  else if rank = limit then .infinite negative
  else .nan

/-- The same number in double precision. -/
def toDouble : Single → Double
  | nan => .nan
  | infinite s => .infinite s
  | finite s m => .ofQuanta s (m.units * quantaRatio) 1

end Single

end Abacus
