import Abacus.Double.Grid

/-!
Double-precision numbers.

* `Double`: the values of the format; all NaNs are one value, the two zeros are two.
* `Double.Magnitude`: a finite magnitude, named by its rank among all of them; `units` is its
  exact size in quanta of `2 ^ -1074`.
* `Double.ofQuanta`: the double nearest to a quotient of quanta, through which every rounded
  number of the library is made.
* `Double.ofBits`, `Double.toBits`: the interchange encoding. The rank of a finite magnitude is
  the number its bits spell, so encoding is the addition of a sign bit.
-/

namespace Abacus

namespace Double

/-- The number of finite magnitudes: 2047 exponent fields of `2 ^ 52` fractions each. -/
def limit : Nat := 2047 * Grid.binade 52

/-- The number of quanta in one. -/
def quantaInOne : Nat := Nat.pow 2 1074

/-- A finite magnitude, named by its place among all finite magnitudes in increasing order. -/
structure Magnitude where
  rank : Nat
  rank_lt : rank < limit
deriving DecidableEq

namespace Magnitude

/-- The exact size in quanta. -/
def units (m : Magnitude) : Nat := Grid.point 52 m.rank

/-- The least magnitude. -/
def zero : Magnitude := ⟨0, by decide⟩

end Magnitude

end Double

/-- A double-precision number. -/
inductive Double where
  | nan
  | infinite (negative : Bool)
  | finite (negative : Bool) (magnitude : Double.Magnitude)
deriving DecidableEq

namespace Double

/-- The double nearest to `num / den` quanta with the given sign, infinite beyond the last one. -/
def ofQuanta (negative : Bool) (num den : Nat) : Double :=
  let rank := Grid.round 52 num den
  if h : rank < limit then .finite negative ⟨rank, h⟩ else .infinite negative

/-- Every finite double is its own rounding. -/
theorem ofQuanta_units (negative : Bool) (m : Magnitude) :
    ofQuanta negative m.units 1 = .finite negative m := by
  simp only [ofQuanta, Magnitude.units, Grid.round_point, m.rank_lt, dite_true]

/-- The double nearest to a whole number. -/
def ofInt (n : Int) : Double := ofQuanta (n < 0) (n.natAbs * quantaInOne) 1

/-- Zero without a minus sign. -/
def zero : Double := .finite false .zero

/-- The number one. -/
def one : Double := ofInt 1

/-- The whole number `n`, or `-n` with a minus sign. -/
def signed (negative : Bool) (n : Nat) : Int := if negative then -(n : Int) else n

/-- The same number with the opposite sign. -/
def neg : Double → Double
  | nan => nan
  | infinite s => infinite !s
  | finite s m => finite (!s) m

/-! ### The interchange encoding -/

/-- The place value of the sign bit. -/
def signPlace : Nat := Nat.pow 2 63

/-- The place value of the bit that marks a quiet NaN. -/
def quietPlace : Nat := Nat.pow 2 51

/-- Reads 64 bits: the sign bit, then the rank; past the finite ranks stand infinity and NaNs. -/
def ofBits (bits : UInt64) : Double :=
  let negative := decide (signPlace ≤ bits.toNat)
  let rank := bits.toNat % signPlace
  if h : rank < limit then .finite negative ⟨rank, h⟩
  else if rank = limit then .infinite negative
  else .nan

/-- What a minus sign adds to the number that the bits spell. -/
def signBit (negative : Bool) : Nat := if negative then signPlace else 0

/-- The number that the bits of a double spell; NaN is the quiet NaN without payload. -/
def code : Double → Nat
  | nan => quietPlace + limit
  | infinite s => signBit s + limit
  | finite s m => signBit s + m.rank

/-- The bits of a number. -/
def toBits (x : Double) : UInt64 := .ofNat x.code

theorem code_lt (x : Double) : x.code < UInt64.size := by
  have hl : limit = 9218868437227405312 := by decide
  have hq : quietPlace = 2251799813685248 := by decide
  have hs : ∀ s, signBit s ≤ 9223372036854775808 := by decide
  have hw : UInt64.size = 18446744073709551616 := rfl
  cases x with
  | nan => rw [code, hq]; omega
  | infinite s => have := hs s; rw [code]; omega
  | finite s m => have := hs s; have := m.rank_lt; rw [code]; omega

theorem toNat_toBits (x : Double) : x.toBits.toNat = x.code := by
  rw [toBits, UInt64.toNat_ofNat', Nat.mod_eq_of_lt x.code_lt]

/-- Reading back the bits of a number gives the number. -/
theorem ofBits_toBits (x : Double) : ofBits x.toBits = x := by
  rw [ofBits, toNat_toBits]
  cases x with
  | nan => decide
  | infinite s => cases s <;> decide
  | finite s m =>
    have hl : limit = 9218868437227405312 := by decide
    have hp : signPlace = 9223372036854775808 := by decide
    have hm := m.rank_lt
    have hr : (signBit s + m.rank) % signPlace = m.rank := by
      cases s <;> simp only [signBit, hp, reduceIte, Bool.false_eq_true] <;> omega
    have hs : decide (signPlace ≤ signBit s + m.rank) = s := by
      cases s <;> simp [signBit, hp]; omega
    simp only [code, hr, hm, dite_true]
    exact congrArg (finite · m) hs

end Double

end Abacus
