import Mathlib.Tactic
import Abacus.Operator
import Abacus.Proofs.Double.Order
import Abacus.Proofs.Double.Whole

/-!
Operations are exact where a double stands for the exact result.

* `Double.toRat?_ofQuanta`: a quotient of quanta that some double stands for is not rounded.
* `Double.integer?`: the whole number that a double stands for, if it stands for one. There is a
  double for every whole number up to `2 ^ 53` (`Double.exists_toRat?_eq_intCast`).
* `Operator.applyRat?`: the exact result of an operator. Division by zero has none.
* `Arithmetic.IsExact`: operations that give the exact result wherever a double stands for it, which
  leaves open the sign of a zero. The correctly rounded ones do so (`Arithmetic.isExact_ieee`).
-/

namespace Abacus

namespace Double

/-! ### Signs -/

lemma natAbs_signed (s : Bool) (n : ℕ) : (signed s n).natAbs = n := by
  cases s <;> simp [signed]

lemma signed_natAbs (n : ℤ) : signed (n < 0) n.natAbs = n := by
  by_cases h : n < 0
  · rw [signed, decide_eq_true h, if_pos rfl]
    omega
  · rw [signed, decide_eq_false h, if_neg Bool.false_ne_true]
    omega

lemma signed_mul (s : Bool) (m n : ℕ) : signed s (m * n) = signed s m * n := by
  cases s <;> simp [signed]

lemma signed_xor_mul (s t : Bool) (m n : ℕ) :
    signed (s ^^ t) (m * n) = signed s m * signed t n := by
  cases s <;> cases t <;> simp [signed]

/-! ### Numbers that are not rounded -/

variable {x y z : Double} {p q r : ℚ}

lemma toRat?_finite (s : Bool) (m : Magnitude) :
    (finite s m).toRat? = some ((signed s m.units : ℚ) / 2 ^ 1074) := rfl

lemma exists_eq_finite (h : x.toRat? = some q) :
    ∃ s m, x = finite s m ∧ q = signed s m.units / 2 ^ 1074 := by
  cases x with
  | nan => cases h
  | infinite s => cases h
  | finite s m => exact ⟨s, m, rfl, (Option.some.inj h).symm⟩

/-- A number of quanta that is a magnitude is its own rounding, however it is written as a
quotient. -/
lemma ofQuanta_of_eq_mul (s : Bool) {num den : ℕ} {m : Magnitude} (hden : 0 < den)
    (h : num = m.units * den) : ofQuanta s num den = finite s m := by
  have hpos : (den : ℚ) ≠ 0 := by exact_mod_cast hden.ne'
  have hround := @Grid.isNearest_round 52 (by decide) num den hden
  have hself := @Grid.isNearest_round 52 (by decide) m.units 1 Nat.one_pos
  have hquot : (num : ℚ) / den = m.units / (1 : ℕ) := by
    rw [h, Nat.cast_mul, mul_div_cancel_right₀ _ hpos, Nat.cast_one, div_one]
  rw [← hquot, Magnitude.units, Grid.round_point] at hself
  have hrank : Grid.round 52 num den = m.rank := hround.unique hself
  simp only [ofQuanta, hrank, m.rank_lt, dite_true]

/-- A quotient of quanta that some double stands for is not rounded. -/
lemma toRat?_ofQuanta {s : Bool} {num den : ℕ} (hden : 0 < den) (hz : z.toRat? = some r)
    (hr : r = signed s num / den / 2 ^ 1074) : (ofQuanta s num den).toRat? = some r := by
  have hpos : (0 : ℚ) < 2 ^ 1074 := by positivity
  have hden' : (den : ℚ) ≠ 0 := by exact_mod_cast hden.ne'
  obtain ⟨t, m, rfl, hm⟩ := exists_eq_finite hz
  -- in quanta, and without the signs, the quotient is the magnitude of that double
  have hunits : (signed t m.units : ℚ) * den = signed s num := by
    rw [hm, div_left_inj' hpos.ne'] at hr
    rw [hr, div_mul_cancel₀ _ hden']
  have hnum : num = m.units * den := by
    have habs := congrArg Int.natAbs (show signed t m.units * den = signed s num by
      exact_mod_cast hunits)
    rwa [Int.natAbs_mul, natAbs_signed, natAbs_signed, Int.natAbs_natCast, eq_comm] at habs
  rw [ofQuanta_of_eq_mul s hden hnum, toRat?_finite, hr, hnum, signed_mul]
  push_cast
  rw [mul_div_cancel_right₀ _ hden']

/-! ### Whole numbers -/

/-- The whole number that a double stands for, if it stands for one. -/
def integer? : Double → Option ℤ
  | nan => none
  | infinite _ => none
  | finite s m =>
    if quantaInOne ∣ m.units then some (signed s (m.units / quantaInOne)) else none

lemma quantaInOne_pos : 0 < quantaInOne := by
  rw [quantaInOne_eq]
  exact Grid.step_pos 1074

lemma integer?_eq_some_iff {n : ℤ} : x.integer? = some n ↔ x.toRat? = some (n : ℚ) := by
  have hpos : (0 : ℚ) < 2 ^ 1074 := by positivity
  have hquanta := quantaInOne_pos
  cases x with
  | nan => simp [integer?, toRat?]
  | infinite s => simp [integer?, toRat?]
  | finite s m =>
      have hwhole : (signed s m.units / 2 ^ 1074 : ℚ) = n ↔ signed s m.units = n * quantaInOne := by
        rw [div_eq_iff hpos.ne', ← cast_quantaInOne]
        exact_mod_cast Iff.rfl
      rw [integer?, toRat?_finite, Option.some_inj, hwhole]
      constructor
      · intro h
        split_ifs at h with hdvd
        rw [← Option.some.inj h, ← signed_mul, Nat.div_mul_cancel hdvd]
      · intro h
        have habs := congrArg Int.natAbs h
        rw [natAbs_signed, Int.natAbs_mul, Int.natAbs_natCast] at habs
        have hdvd : quantaInOne ∣ m.units := Dvd.intro_left _ habs.symm
        obtain ⟨k, hk⟩ := hdvd
        rw [if_pos ⟨k, hk⟩, Option.some_inj, hk, Nat.mul_div_cancel_left _ hquanta]
        rw [hk, Nat.mul_comm, signed_mul] at h
        exact Int.eq_of_mul_eq_mul_right (by omega) h

/-- There is a double for every whole number up to `2 ^ 53`. -/
lemma exists_toRat?_eq_intCast {n : ℤ} (h : |n| ≤ 2 ^ 53) :
    ∃ z : Double, z.toRat? = some (n : ℚ) := by
  rw [Int.abs_eq_natAbs] at h
  obtain ⟨m, hm⟩ := Magnitude.exists_units_eq_of_le (n := n.natAbs) (k := 1074) (by omega)
    (by norm_num)
  refine ⟨finite (n < 0) m, ?_⟩
  rw [toRat?_finite, hm, signed_mul, signed_natAbs, Int.cast_mul, Int.cast_natCast,
    Grid.cast_step, mul_div_cancel_right₀ _ (by positivity)]

/-- A whole number that some double stands for is not rounded. -/
lemma toRat?_ofInt {n : ℤ} (hz : z.toRat? = some (n : ℚ)) : (ofInt n).toRat? = some (n : ℚ) := by
  refine toRat?_ofQuanta Nat.one_pos hz ?_
  rw [signed_mul, signed_natAbs, Int.cast_mul, Int.cast_natCast, cast_quantaInOne, Nat.cast_one,
    div_one, mul_div_cancel_right₀ _ (by positivity)]

lemma toRat?_one : one.toRat? = some 1 := by
  obtain ⟨z, hz⟩ := exists_toRat?_eq_intCast (n := 1) (by norm_num)
  exact_mod_cast toRat?_ofInt hz

lemma toRat?_finite_zero (s : Bool) : (finite s .zero).toRat? = some 0 := by
  have hzero : Magnitude.zero.units = 0 := point_zero
  rw [toRat?_finite, hzero]
  cases s <;> simp [signed]

end Double

/-! ### Exact operations -/

/-- The exact result of an operator; division by zero has none. -/
def Operator.applyRat? : Operator → ℚ → ℚ → Option ℚ
  | add, p, q => some (p + q)
  | sub, p, q => some (p - q)
  | mul, p, q => some (p * q)
  | div, p, q => if q = 0 then none else some (p / q)
  | eq, p, q => some (if p = q then 1 else 0)

/-- Operations that give the exact result wherever a double stands for it. -/
def Arithmetic.IsExact (ar : Arithmetic) : Prop :=
  ∀ (op : Operator) (x y z : Double) (p q r : ℚ), x.toRat? = some p → y.toRat? = some q →
    op.applyRat? p q = some r → z.toRat? = some r → (op.apply ar x y).toRat? = some r

namespace Double

variable {x y z : Double} {p q : ℚ}

lemma toRat?_add (hx : x.toRat? = some p) (hy : y.toRat? = some q)
    (hz : z.toRat? = some (p + q)) : (x.add y).toRat? = some (p + q) := by
  obtain ⟨s, m, rfl, rfl⟩ := exists_eq_finite hx
  obtain ⟨t, m', rfl, rfl⟩ := exists_eq_finite hy
  have hsum : (signed s m.units / 2 ^ 1074 + signed t m'.units / 2 ^ 1074 : ℚ)
      = (signed s m.units + signed t m'.units : ℤ) / 2 ^ 1074 := by
    rw [Int.cast_add, add_div]
  rw [hsum] at hz ⊢
  rw [add]
  split_ifs with hzero
  · rw [hzero, toRat?_finite_zero]
    simp
  · refine toRat?_ofQuanta Nat.one_pos hz ?_
    rw [signed_natAbs, Nat.cast_one, div_one]

lemma toRat?_neg (hy : y.toRat? = some q) : y.neg.toRat? = some (-q) := by
  obtain ⟨t, m, rfl, rfl⟩ := exists_eq_finite hy
  rw [neg, toRat?_finite]
  cases t <;> simp [signed, neg_div]

lemma toRat?_sub (hx : x.toRat? = some p) (hy : y.toRat? = some q)
    (hz : z.toRat? = some (p - q)) : (x.sub y).toRat? = some (p - q) := by
  rw [sub_eq_add_neg] at hz ⊢
  exact toRat?_add hx (toRat?_neg hy) hz

lemma toRat?_mul (hx : x.toRat? = some p) (hy : y.toRat? = some q)
    (hz : z.toRat? = some (p * q)) : (x.mul y).toRat? = some (p * q) := by
  obtain ⟨s, m, rfl, rfl⟩ := exists_eq_finite hx
  obtain ⟨t, m', rfl, rfl⟩ := exists_eq_finite hy
  rw [mul]
  refine toRat?_ofQuanta quantaInOne_pos hz ?_
  rw [signed_xor_mul, cast_quantaInOne, Int.cast_mul, div_mul_div_comm, div_div]

lemma toRat?_div (hx : x.toRat? = some p) (hy : y.toRat? = some q) (hq : q ≠ 0)
    (hz : z.toRat? = some (p / q)) : (x.div y).toRat? = some (p / q) := by
  have hpos : (2 : ℚ) ^ 1074 ≠ 0 := by positivity
  obtain ⟨s, m, rfl, rfl⟩ := exists_eq_finite hx
  obtain ⟨t, m', rfl, rfl⟩ := exists_eq_finite hy
  have hunits : m'.units ≠ 0 := by
    intro hzero
    rw [hzero] at hq
    cases t <;> simp [signed] at hq
  have hrank : m'.rank ≠ 0 := by
    intro hzero
    rw [Magnitude.units, hzero] at hunits
    exact hunits point_zero
  rw [div, if_neg hrank]
  refine toRat?_ofQuanta (Nat.pos_of_ne_zero hunits) hz ?_
  rw [div_div_div_cancel_right₀ hpos, signed_mul, Int.cast_mul, Int.cast_natCast,
    cast_quantaInOne, div_right_comm, mul_div_cancel_right₀ _ hpos]
  -- a quotient has the signs of both its parts
  cases s <;> cases t <;> simp [signed, div_neg, neg_div]

lemma toRat?_eq (ar : Arithmetic) (hx : x.toRat? = some p) (hy : y.toRat? = some q) :
    (Operator.apply ar .eq x y).toRat? = some (if p = q then 1 else 0) := by
  have hequals := equals_iff_of_toRat? hx hy
  show (if x.equals y then one else zero).toRat? = _
  by_cases h : p = q
  · rw [if_pos (hequals.mpr h), if_pos h]
    exact toRat?_one
  · rw [if_neg fun h' => h (hequals.mp h'), if_neg h]
    exact toRat?_finite_zero false

end Double

/-- The correctly rounded operations are exact. -/
theorem Arithmetic.isExact_ieee : Arithmetic.ieee.IsExact := by
  intro op x y z p q r hx hy hr hz
  cases op with
  | add =>
      obtain rfl := Option.some.inj hr
      exact Double.toRat?_add hx hy hz
  | sub =>
      obtain rfl := Option.some.inj hr
      exact Double.toRat?_sub hx hy hz
  | mul =>
      obtain rfl := Option.some.inj hr
      exact Double.toRat?_mul hx hy hz
  | div =>
      rw [Operator.applyRat?] at hr
      split_ifs at hr with hq
      obtain rfl := Option.some.inj hr
      exact Double.toRat?_div hx hy hq hz
  | eq =>
      obtain rfl := Option.some.inj hr
      exact Double.toRat?_eq _ hx hy

end Abacus
