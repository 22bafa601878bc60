import Mathlib.Data.EReal.Operations
import Mathlib.Tactic
import Abacus.Double.Text
import Abacus.HostNumber
import Abacus.Proofs.Double.Exact

/-!
Numbers of the host program are taken over exactly, and are compared as what they are.

* `interchange?`: the extended real number that a row of bits stands for in a binary interchange
  format, by its sign, exponent field and fraction. Doubles and single-precision numbers are read
  so (`Double.toEReal?_ofBits`, `Single.toEReal?_ofBits`).
* `Single.toEReal?_toDouble`: a single-precision number is the same number in double precision, also
  where it is subnormal.
* `HostNumber.toEReal?`, `HostNumber.toEReal?_toDouble`: the same of every number of the host
  program.
* `HostNumber.toDouble_keeps_value_and_order`: what follows for comparison, for equality, and for
  the operator that tests it.
-/

namespace Abacus

/-! ### The interchange formats -/

/-- The extended real number that a row of bits stands for in the format with `p` fraction bits and
`w` exponent bits. The greatest exponent field marks infinity and NaN, the least one numbers without
a leading one. -/
noncomputable def interchange? (p w bits : ℕ) : Option EReal :=
  let sign : EReal → EReal := fun r => if 2 ^ (p + w) ≤ bits then -r else r
  let exponent := bits / 2 ^ p % 2 ^ w
  let fraction := bits % 2 ^ p
  let bias : ℤ := 2 ^ (w - 1) - 1
  if exponent = 2 ^ w - 1 then
    if fraction = 0 then some (sign ⊤) else none
  else if exponent = 0 then
    some (sign ((fraction * 2 ^ (1 - bias - p) : ℚ) : ℝ))
  else
    some (sign (((2 ^ p + fraction) * 2 ^ (exponent - bias - p) : ℚ) : ℝ))

/-- The size of a magnitude by its exponent field and its fraction. -/
lemma Grid.point_div_two_pow (p b rank : ℕ) :
    (point p rank / 2 ^ (b + p) : ℚ) =
      if rank / 2 ^ p = 0 then ((rank % 2 ^ p : ℕ) * 2 ^ (1 - (b + 1 : ℤ) - p) : ℚ)
      else ((2 ^ p + (rank % 2 ^ p : ℕ)) * 2 ^ ((rank / 2 ^ p : ℕ) - (b + 1 : ℤ) - p) : ℚ) := by
  have hbinade : binade p = 2 ^ p := rfl
  have hscale : (2 : ℚ) ^ (1 - (b + 1 : ℤ) - p) = (2 ^ (b + p))⁻¹ := by
    rw [← zpow_natCast, ← zpow_neg]
    congr 1
    push_cast
    ring
  by_cases hlow : rank < 2 ^ p
  · rw [if_pos (Nat.div_eq_of_lt hlow), Nat.mod_eq_of_lt hlow, point, hbinade, if_pos hlow, hscale,
      div_eq_mul_inv]
  · obtain ⟨k, hk⟩ : ∃ k, rank / 2 ^ p = k + 1 :=
      ⟨rank / 2 ^ p - 1, by have := Nat.div_pos (not_lt.mp hlow) (Nat.two_pow_pos p); omega⟩
    have hstep : (2 : ℚ) ^ (((k + 1 : ℕ) : ℤ) - (b + 1 : ℤ) - p) = 2 ^ k * (2 ^ (b + p))⁻¹ := by
      rw [← hscale, ← zpow_natCast, ← zpow_add₀ two_ne_zero]
      congr 1
      push_cast
      ring
    rw [if_neg (by omega), point, hbinade, if_neg hlow, hk, Nat.add_sub_cancel, hstep,
      div_eq_mul_inv, Nat.cast_mul, cast_step, mul_assoc]
    push_cast
    rfl

/-- A sign in front of a rational number is one in front of an extended real one. -/
lemma coe_signed_div (s : Bool) (n : ℕ) (d : ℚ) :
    (((Double.signed s n / d : ℚ) : ℝ) : EReal) =
      if s then -(((n / d : ℚ) : ℝ) : EReal) else ((n / d : ℚ) : ℝ) := by
  cases s with
  | false => simp [Double.signed]
  | true => simp [Double.signed, neg_div]

/-- A row of bits stands for what its sign and its rank do: the magnitude of this rank if there is
one, then infinity, then NaN. -/
lemma interchange?_eq {p w bits : ℕ} (hw : 2 ≤ w) :
    interchange? p w bits =
      let negative := decide (2 ^ (p + w) ≤ bits)
      let rank := bits % 2 ^ (p + w)
      let size : ℚ := Double.signed negative (Grid.point p rank) / 2 ^ (2 ^ (w - 1) - 2 + p)
      if rank < (2 ^ w - 1) * 2 ^ p then some ((size : ℝ) : EReal)
      else if rank = (2 ^ w - 1) * 2 ^ p then some (if negative then ⊥ else ⊤)
      else none := by
  have hpos := Nat.two_pow_pos p
  have hexponent : bits / 2 ^ p % 2 ^ w = bits % 2 ^ (p + w) / 2 ^ p := by
    rw [pow_add, Nat.mod_mul_right_div_self]
  have hfraction : bits % 2 ^ p = bits % 2 ^ (p + w) % 2 ^ p :=
    (Nat.mod_mod_of_dvd bits (pow_dvd_pow 2 (Nat.le_add_right p w))).symm
  have hbias : (2 : ℤ) ^ (w - 1) - 1 = (2 ^ (w - 1) - 2 : ℕ) + 1 := by
    have htwo : 2 ^ 1 ≤ 2 ^ (w - 1) := Nat.pow_le_pow_right two_pos (by omega)
    push_cast [Nat.cast_sub (show 2 ≤ 2 ^ (w - 1) from htwo)]
    ring
  have hrank : bits % 2 ^ (p + w) / 2 ^ p < 2 ^ w := by
    rw [Nat.div_lt_iff_lt_mul hpos, mul_comm, ← pow_add]
    exact Nat.mod_lt _ (Nat.two_pow_pos _)
  simp only [interchange?, hexponent, hfraction, hbias, decide_eq_true_eq, coe_signed_div,
    EReal.neg_top]
  generalize bits % 2 ^ (p + w) = rank at *
  have hdivide := Nat.div_add_mod' rank (2 ^ p)
  by_cases hfinite : rank < (2 ^ w - 1) * 2 ^ p
  · have hsmall : rank / 2 ^ p < 2 ^ w - 1 := (Nat.div_lt_iff_lt_mul hpos).mpr hfinite
    rw [if_pos hfinite, if_neg hsmall.ne, Grid.point_div_two_pow]
    split_ifs <;> rfl
  · have hgreatest : rank / 2 ^ p = 2 ^ w - 1 := by
      have := (Nat.le_div_iff_mul_le hpos).mpr (not_lt.mp hfinite)
      omega
    have hinfinite : rank % 2 ^ p = 0 ↔ rank = (2 ^ w - 1) * 2 ^ p := by
      rw [hgreatest] at hdivide
      omega
    simp only [if_neg hfinite, hgreatest, if_true, hinfinite]

/-- Doubles are read in the format with 52 fraction bits and eleven exponent bits. -/
lemma Double.toEReal?_ofBits (bits : UInt64) :
    (ofBits bits).toEReal? = interchange? 52 11 bits.toNat := by
  have hlimit : limit = (2 ^ 11 - 1) * 2 ^ 52 := by decide
  have hsign : signPlace = 2 ^ (52 + 11) := by decide
  have hquanta : 2 ^ (11 - 1) - 2 + 52 = 1074 := by norm_num
  rw [interchange?_eq (by norm_num), ofBits, hsign]
  simp only [← hlimit, hquanta]
  split
  · rfl
  · split <;> rfl

namespace Single

/-! ### Single precision -/

/-- The extended real number that a single-precision number stands for, NaN apart. -/
noncomputable def toEReal? : Single → Option EReal
  | nan => none
  | infinite s => some (if s then ⊥ else ⊤)
  | finite s m => some ((Double.signed s m.units / 2 ^ 149 : ℚ) : ℝ)

/-- Single-precision numbers are read in the format with 23 fraction bits and eight exponent
bits. -/
lemma toEReal?_ofBits (bits : UInt32) :
    (ofBits bits).toEReal? = interchange? 23 8 bits.toNat := by
  have hlimit : limit = (2 ^ 8 - 1) * 2 ^ 23 := by decide
  have hsign : signPlace = 2 ^ (23 + 8) := by decide
  have hquanta : 2 ^ (8 - 1) - 2 + 23 = 149 := by norm_num
  rw [interchange?_eq (by norm_num), ofBits, hsign]
  simp only [← hlimit, hquanta]
  split
  · rfl
  · split <;> rfl

lemma quantaRatio_eq : quantaRatio = Grid.step 925 := by decide +kernel

/-- Every single-precision magnitude is a magnitude of double precision. -/
lemma exists_units_eq (m : Magnitude) :
    ∃ m' : Double.Magnitude, m'.units = m.units * quantaRatio := by
  obtain ⟨k, n, hrank, hk, hn⟩ := Grid.exists_eq_add 23 m.rank
  have hunits : m.units = n * Grid.step k := by
    rw [Magnitude.units, hrank, Grid.point_add hk hn.le]
  have hk' : k < 255 := by
    have hlt : k * Grid.binade 23 < 255 * Grid.binade 23 :=
      calc k * Grid.binade 23 ≤ m.rank := hrank ▸ Nat.le_add_right _ _
        _ < 255 * Grid.binade 23 := m.rank_lt
    exact Nat.lt_of_mul_lt_mul_right hlt
  have hn' : n ≤ 2 ^ 53 := hn.le.trans (by decide)
  obtain ⟨m', hm'⟩ := Double.Magnitude.exists_units_eq_of_le (k := k + 925) hn' (by omega)
  exact ⟨m', by rw [hm', hunits, quantaRatio_eq, Grid.step_add, mul_assoc]⟩

/-- Single-precision numbers are the same numbers in double precision. -/
lemma toEReal?_toDouble (x : Single) : x.toDouble.toEReal? = x.toEReal? := by
  cases x with
  | nan => rfl
  | infinite s => rfl
  | finite s m =>
      obtain ⟨m', hm'⟩ := exists_units_eq m
      have hratio : (quantaRatio : ℚ) = 2 ^ 925 := by
        rw [quantaRatio_eq, Grid.cast_step]
      have hquanta : (2 : ℚ) ^ 1074 = 2 ^ 149 * 2 ^ 925 := by rw [← pow_add]
      rw [toDouble, Double.ofQuanta_of_eq_mul s Nat.one_pos ((Nat.mul_one _).trans hm').symm,
        Double.toEReal?, toEReal?, hm', Double.signed_mul, Int.cast_mul, Int.cast_natCast, hratio,
        hquanta, mul_div_mul_right _ _ (by positivity)]

/-- The sign of a single-precision number; NaN has none. -/
def isSigned : Single → Bool
  | nan => false
  | infinite s => s
  | finite s _ => s

end Single

namespace HostNumber

/-! ### Numbers of the host program -/

/-- The extended real number that a number of the host program stands for, NaN apart. -/
noncomputable def toEReal? : HostNumber → Option EReal
  | double x => x.toEReal?
  | single x => x.toEReal?
  | int32 n => some (n.toInt : ℝ)
  | uint32 n => some (n.toNat : ℝ)
  | bool b => some (if b then 1 else 0)

/-- Whether a number of the host program is not a number. -/
def isNaN : HostNumber → Bool
  | double x => x = .nan
  | single x => x = .nan
  | int32 _ | uint32 _ | bool _ => false

/-- Whether a number of the host program carries a minus sign. -/
def isSigned : HostNumber → Bool
  | double x => x.isSigned
  | single x => x.isSigned
  | int32 n => n.toInt < 0
  | uint32 _ | bool _ => false

lemma toEReal?_ofInt {n : ℤ} (h : |n| ≤ 2 ^ 53) :
    (Double.ofInt n).toEReal? = some ((n : ℝ) : EReal) := by
  obtain ⟨z, hz⟩ := Double.exists_toRat?_eq_intCast h
  rw [Double.toEReal?_of_toRat? (Double.toRat?_ofInt hz), Rat.cast_intCast]

/-- A number of the host program is taken over exactly. -/
lemma toEReal?_toDouble (a : HostNumber) : a.toDouble.toEReal? = a.toEReal? := by
  cases a with
  | double x => rfl
  | single x => exact x.toEReal?_toDouble
  | int32 n =>
      have hlow := n.le_toInt
      have hhigh := n.toInt_lt
      exact toEReal?_ofInt (abs_le.mpr ⟨by omega, by omega⟩)
  | uint32 n =>
      have hlt := n.toNat_lt
      have hofInt := toEReal?_ofInt (n := n.toNat) (abs_le.mpr ⟨by omega, by omega⟩)
      rwa [Int.cast_natCast] at hofInt
  | bool b =>
      cases b with
      | false =>
          rw [toDouble, if_neg Bool.false_ne_true, Double.zero,
            Double.toEReal?_of_toRat? (Double.toRat?_finite_zero false)]
          simp [toEReal?]
      | true =>
          rw [toDouble, if_pos rfl, Double.toEReal?_of_toRat? Double.toRat?_one]
          simp [toEReal?]

/-- Its sign is kept, also that of a zero. -/
lemma isSigned_toDouble (a : HostNumber) : a.toDouble.isSigned = a.isSigned := by
  have hofQuanta : ∀ s num den, (Double.ofQuanta s num den).isSigned = s := by
    intro s num den
    rw [Double.ofQuanta]
    split <;> rfl
  cases a with
  | double x => rfl
  | single x =>
      cases x with
      | nan => rfl
      | infinite s => rfl
      | finite s m => exact hofQuanta s _ _
  | int32 n => exact hofQuanta _ _ _
  | uint32 n =>
      rw [toDouble, Double.ofInt, hofQuanta]
      simp [isSigned]
  | bool b =>
      cases b with
      | false => rfl
      | true =>
          rw [toDouble, if_pos rfl, Double.one, Double.ofInt, hofQuanta]
          rfl

lemma toDouble_eq_nan_iff (a : HostNumber) : a.toDouble = .nan ↔ a.isNaN = true := by
  rw [← Double.toEReal?_eq_none_iff, toEReal?_toDouble]
  cases a with
  | double x => simp [toEReal?, isNaN, Double.toEReal?_eq_none_iff]
  | single x => cases x <;> simp [toEReal?, Single.toEReal?, isNaN]
  | int32 n => simp [toEReal?, isNaN]
  | uint32 n => simp [toEReal?, isNaN]
  | bool b => simp [toEReal?, isNaN]

/-! ### Comparison of host numbers -/

/-- The operator that tests equality gives the bits of one or of zero. -/
lemma toBits_apply_eq (ar : Arithmetic) (x y : Double) :
    ((Operator.apply ar .eq x y).toBits = 0x3ff0000000000000 ↔ x.equals y = true)
    ∧ ((Operator.apply ar .eq x y).toBits = 0 ↔ x.equals y = false) := by
  have hone : Double.one.toBits = 0x3ff0000000000000 := by decide +kernel
  have hzero : Double.zero.toBits = 0 := by decide +kernel
  show ((if x.equals y then Double.one else Double.zero).toBits = _ ↔ _)
    ∧ ((if x.equals y then Double.one else Double.zero).toBits = _ ↔ _)
  cases x.equals y with
  | false => simp [hzero]
  | true => simp [hone]

/-- **Numbers of the host program are taken over and compared exactly.** Doubles and
single-precision numbers stand for what their bits say. As a double every number of the host program
is the same extended real number, with the same sign, and NaN is NaN. So there is no comparison
exactly if one of two numbers is NaN, and else it is the comparison of the extended real numbers.
They are equal exactly if that comparison finds them so, which is exactly if they are the same
extended real number, and the operator that tests equality gives exactly one or exactly zero
accordingly. Exchanged numbers compare the other way, and where there is no NaN the order is total,
antisymmetric and transitive. -/
theorem toDouble_keeps_value_and_order :
    (∀ w : UInt64, (double (.ofBits w)).toEReal? = interchange? 52 11 w.toNat)
    ∧ (∀ w : UInt32, (single (.ofBits w)).toEReal? = interchange? 23 8 w.toNat)
    ∧ (∀ a : HostNumber, a.toDouble.toEReal? = a.toEReal? ∧ a.toDouble.isSigned = a.isSigned
      ∧ (a.toDouble = .nan ↔ a.isNaN = true))
    ∧ (∀ a b : HostNumber,
      (a.toDouble.compare? b.toDouble = none ↔ a.isNaN = true ∨ b.isNaN = true)
      ∧ (∀ r r', a.toEReal? = some r → b.toEReal? = some r' →
        a.toDouble.compare? b.toDouble = some (cmp r r'))
      ∧ b.toDouble.compare? a.toDouble = (a.toDouble.compare? b.toDouble).map Ordering.swap
      ∧ (a.toDouble.equals b.toDouble = true ↔ a.toDouble.compare? b.toDouble = some .eq)
      ∧ (a.toDouble.equals b.toDouble = true ↔ ∃ r, a.toEReal? = some r ∧ b.toEReal? = some r)
      ∧ ∀ ar : Arithmetic,
        ((Operator.apply ar .eq a.toDouble b.toDouble).toBits = 0x3ff0000000000000
          ↔ a.toDouble.equals b.toDouble = true)
        ∧ ((Operator.apply ar .eq a.toDouble b.toDouble).toBits = 0
          ↔ a.toDouble.equals b.toDouble = false))
    ∧ (∀ x y : Double, x ≠ .nan → y ≠ .nan → x.LessEq y ∨ y.LessEq x)
    ∧ (∀ x y : Double, x.LessEq y → y.LessEq x → x.equals y = true)
    ∧ ∀ x y z : Double, x.LessEq y → y.LessEq z → x.LessEq z := by
  refine ⟨Double.toEReal?_ofBits, Single.toEReal?_ofBits,
    fun a => ⟨a.toEReal?_toDouble, a.isSigned_toDouble, a.toDouble_eq_nan_iff⟩,
    fun a b => ⟨?_, fun r r' hr hr' => ?_, Double.compare?_swap _ _, ?_, ?_, ?_⟩,
    fun x y => Double.lessEq_total, fun x y => Double.LessEq.antisymm,
    fun x y z => Double.LessEq.trans⟩
  · rw [Double.compare?_eq_none_iff, toDouble_eq_nan_iff, toDouble_eq_nan_iff]
  · rw [Double.compare?_eq_map₂_cmp, toEReal?_toDouble, toEReal?_toDouble, hr, hr']
    rfl
  · rw [Double.equals, beq_iff_eq]
  · rw [Double.equals_iff_toEReal?, toEReal?_toDouble, toEReal?_toDouble]
  · exact fun ar => toBits_apply_eq ar _ _

/-- The theorem at the least positive single-precision number, which is subnormal and becomes
normal, and at the negative zero, which equals a truth value. -/
theorem toDouble_keeps_value_and_order_subnormal :
    (single (.ofBits 1)).toDouble.toEReal? = interchange? 23 8 1
    ∧ (single (.ofBits 1)).toDouble.toBits = 0x36a0000000000000
    ∧ (Operator.apply .ieee .eq (single (.ofBits 0x80000000)).toDouble (bool false).toDouble).toBits
        = 0x3ff0000000000000
    ∧ (bool false).toDouble.LessEq (single (.ofBits 1)).toDouble := by
  obtain ⟨-, hsingle, hvalue, hpair, htotal, -, -⟩ := toDouble_keeps_value_and_order
  refine ⟨(hvalue _).1.trans (hsingle 1), by decide +kernel, ?_, ?_⟩
  · exact ((hpair _ _).2.2.2.2.2 .ieee).1.mpr (by decide +kernel)
  · refine (htotal _ _ (by decide +kernel) (by decide +kernel)).resolve_right ?_
    rintro ⟨o, ho, hne⟩
    have hgt : (single (.ofBits 1)).toDouble.compare? (bool false).toDouble = some .gt := by
      decide +kernel
    exact hne (Option.some.inj (ho.symm.trans hgt))

end HostNumber

end Abacus
