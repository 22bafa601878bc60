import Mathlib.Tactic
import Abacus.Decimal.Basic
import Abacus.Proofs.Double.Nearest

/-!
The double of a decimal is the nearest one.

* `Decimal.toRat`: the number that a decimal stands for.
* `Decimal.isNearest_toDouble`: the double of a decimal is the nearest one to its number, also where
  its size is settled by the two bounds without expanding the power of ten.
* `Decimal.toDouble_eq_iff`: so it is the only one.
-/

namespace Abacus

namespace Decimal

/-- The number that a decimal stands for. -/
def toRat (d : Decimal) : ℚ := d.coefficient * 10 ^ d.exponent

lemma toRat_nonneg (d : Decimal) : 0 ≤ d.toRat := by
  rw [toRat]
  positivity

lemma cast_tenPow (n : ℕ) : (tenPow n : ℚ) = 10 ^ n := Nat.cast_pow 10 n

/-- As `2 ^ 93` is at most `10 ^ 28`, powers of two are compared with powers of ten. -/
lemma step_le_tenPow (k : ℕ) {r n : ℕ} (h : 2 ^ r ≤ 10 ^ n) :
    Grid.step (93 * k + r) ≤ tenPow (28 * k + n) := by
  calc 2 ^ (93 * k + r) = (2 ^ 93) ^ k * 2 ^ r := by rw [Nat.pow_add, Nat.pow_mul]
    _ ≤ (10 ^ 28) ^ k * 10 ^ n := Nat.mul_le_mul (Nat.pow_le_pow_left (by norm_num) k) h
    _ = 10 ^ (28 * k + n) := by rw [Nat.pow_add, Nat.pow_mul]

/-- Beyond the bound on its power of ten, a positive decimal is infinite. -/
lemma overflowBound_le_toRat {d : Decimal} (hd : d.coefficient ≠ 0) (h : d.isHuge = true) :
    Double.overflowBound ≤ d.toRat := by
  have hexp : 309 ≤ d.exponent := by simpa [isHuge] using h
  have hcoeff : (1 : ℚ) ≤ d.coefficient := by exact_mod_cast Nat.one_le_iff_ne_zero.mpr hd
  have hpow : Grid.step (93 * 11 + 1) ≤ tenPow (28 * 11 + 1) := step_le_tenPow 11 (by norm_num)
  calc Double.overflowBound ≤ 2 ^ 1024 := by
        rw [Double.overflowBound]
        exact sub_le_self _ (by positivity)
    _ = (Grid.step 1024 : ℚ) := (Grid.cast_step 1024).symm
    _ ≤ (tenPow 309 : ℚ) := by exact_mod_cast hpow
    _ = 10 ^ (309 : ℤ) := by rw [cast_tenPow, ← zpow_natCast]; rfl
    _ ≤ 10 ^ d.exponent := zpow_le_zpow_right₀ (by norm_num) hexp
    _ ≤ d.toRat := by
        rw [toRat]
        exact le_mul_of_one_le_left (by positivity) hcoeff

/-- Below the bound on its bits and its power of ten, a decimal is less than half a quantum. -/
lemma toRat_mul_le_half {d : Decimal} (h : d.isTiny = true) : d.toRat * 2 ^ 1074 ≤ 1 / 2 := by
  have hbits : (d.coefficient.log2 + 1 : ℤ) ≤ 3 * (-324 - d.exponent) := by
    simpa [isTiny] using h
  obtain ⟨places, hplaces⟩ : ∃ places : ℕ, -324 - d.exponent = places :=
    ⟨(-324 - d.exponent).toNat, by omega⟩
  have hcoeff : d.coefficient ≤ 10 ^ places := by
    calc d.coefficient ≤ 2 ^ (d.coefficient.log2 + 1) := Nat.lt_log2_self.le
      _ ≤ 2 ^ (3 * places) := Nat.pow_le_pow_right two_pos (by omega)
      _ = 8 ^ places := by rw [Nat.pow_mul]
      _ ≤ 10 ^ places := Nat.pow_le_pow_left (by norm_num) places
  have hexp : d.exponent = -(324 : ℕ) - (places : ℕ) := by push_cast; omega
  have hpow : Grid.step (93 * 11 + 52) ≤ tenPow (28 * 11 + 16) := step_le_tenPow 11 (by norm_num)
  have htoRat : d.toRat ≤ 1 / (tenPow 324 : ℚ) := by
    rw [toRat, hexp, zpow_sub₀ (by norm_num), zpow_neg, zpow_natCast, zpow_natCast, cast_tenPow,
      mul_div_assoc', div_le_iff₀ (by positivity), one_div, mul_comm]
    exact mul_le_mul_of_nonneg_left (by exact_mod_cast hcoeff) (by positivity)
  calc d.toRat * 2 ^ 1074 ≤ 1 / (tenPow 324 : ℚ) * 2 ^ 1074 :=
        mul_le_mul_of_nonneg_right htoRat (by positivity)
    _ = 2 ^ 1074 / (tenPow 324 : ℚ) := one_div_mul_eq_div _ _
    _ ≤ 2 ^ 1074 / (Grid.step 1075 : ℚ) :=
        div_le_div_of_nonneg_left (by positivity) (by exact_mod_cast Grid.step_pos 1075)
          (by exact_mod_cast hpow)
    _ = 1 / 2 := by
        rw [Grid.cast_step, pow_succ (2 : ℚ) 1074, ← div_div, div_self (by positivity)]

/-- The quotient that is rounded in the remaining case is the number in quanta. -/
lemma quotient_eq_toRat (d : Decimal) :
    ((d.coefficient * tenPow d.exponent.toNat * Double.quantaInOne : ℕ) : ℚ)
      / (tenPow (-d.exponent).toNat : ℕ) / 2 ^ 1074 = d.toRat := by
  have hpos : (0 : ℚ) < 2 ^ 1074 := by positivity
  have hexp : d.exponent = d.exponent.toNat - ((-d.exponent).toNat : ℕ) := by omega
  have hpow : (10 : ℚ) ^ d.exponent = 10 ^ d.exponent.toNat / 10 ^ (-d.exponent).toNat := by
    conv_lhs => rw [hexp]
    rw [zpow_sub₀ (by norm_num), zpow_natCast, zpow_natCast]
  rw [toRat, hpow]
  push_cast
  rw [cast_tenPow, cast_tenPow, Double.cast_quantaInOne, div_right_comm,
    mul_div_cancel_right₀ _ hpos.ne', mul_div_assoc]

/-- The double of a decimal is the nearest to its number. -/
theorem isNearest_toDouble (d : Decimal) : Double.IsNearest d.toRat d.toDouble := by
  rw [toDouble]
  split_ifs with hzero hhuge htiny
  · rw [Double.isNearest_zero_iff d.toRat_nonneg, toRat, hzero, Nat.cast_zero, zero_mul, zero_mul]
    norm_num
  · exact ⟨rfl, overflowBound_le_toRat hzero hhuge⟩
  · exact (Double.isNearest_zero_iff d.toRat_nonneg).mpr (toRat_mul_le_half htiny)
  · rw [← quotient_eq_toRat]
    exact Double.isNearest_ofQuanta _ (Nat.pow_pos (by norm_num))

/-- The double of a decimal is the only one that is nearest to its number. -/
lemma toDouble_eq_iff {d : Decimal} {x : Double} :
    d.toDouble = x ↔ Double.IsNearest d.toRat x := by
  constructor
  · rintro rfl
    exact d.isNearest_toDouble
  · exact d.isNearest_toDouble.unique

end Decimal

end Abacus
