import Mathlib.Data.EReal.Basic
import Mathlib.Tactic
import Abacus.Double.Order
import Abacus.Proofs.Double.Nearest

/-!
The order of doubles is the order of the numbers that they stand for.

* `Double.toRat?`, `Double.toEReal?`: the number that a finite double stands for, and the extended
  real number that any double but NaN does.
* `Grid.signedPoint`: the size of a place on the line, in quanta. It grows from place to place
  (`Grid.signedPoint_strictMono`), and with infinity at the two ends so does the extended real
  number of a place (`Double.realAt_strictMonoOn`).
* `Double.compare?_eq_map₂_cmp`: comparison of doubles is comparison of extended real numbers.
* `Double.LessEq`: the order that comparison gives, which is total, antisymmetric and transitive
  where there is no NaN.
-/

namespace Abacus

/-! ### The size of a place -/

namespace Grid

/-- The size of a place on the line, in quanta, for the grid with `bits` fraction bits. -/
def signedPoint (bits : ℕ) (p : ℤ) : ℤ := p.sign * point bits p.natAbs

variable {bits : ℕ}

lemma signedPoint_natCast (bits n : ℕ) : signedPoint bits n = point bits n := by
  rcases Nat.eq_zero_or_pos n with rfl | hn
  · have hzero : point bits 0 = 0 := if_pos (binade_pos bits)
    simp [signedPoint, hzero]
  · rw [signedPoint, Int.sign_natCast_of_ne_zero hn.ne', one_mul, Int.natAbs_natCast]

lemma signedPoint_neg (bits : ℕ) (p : ℤ) : signedPoint bits (-p) = -signedPoint bits p := by
  rw [signedPoint, signedPoint, Int.sign_neg, Int.natAbs_neg, neg_mul]

/-- The size grows from place to place. -/
lemma signedPoint_strictMono : StrictMono (signedPoint bits) := by
  have hstep : ∀ n : ℕ, signedPoint bits n < signedPoint bits (n + 1) := by
    intro n
    rw [signedPoint_natCast, ← Nat.cast_succ, signedPoint_natCast]
    exact_mod_cast point_strictMono (Nat.lt_succ_self n)
  refine strictMono_int_of_lt_succ fun p => ?_
  rcases lt_or_ge p 0 with hneg | hpos
  · -- below zero the sizes are those above it, in reverse
    obtain ⟨n, hn⟩ := Int.eq_ofNat_of_zero_le (show 0 ≤ -(p + 1) by omega)
    obtain rfl : p = -(n + 1) := by omega
    have hnext : -((n : ℤ) + 1) + 1 = -n := by ring
    rw [hnext, signedPoint_neg, signedPoint_neg, neg_lt_neg_iff]
    exact hstep n
  · obtain ⟨n, rfl⟩ := Int.eq_ofNat_of_zero_le hpos
    exact hstep n

end Grid

namespace Double

/-- A count of quanta with its sign is the size of the place with this sign. -/
lemma signed_point (bits : ℕ) (s : Bool) (n : ℕ) :
    signed s (Grid.point bits n) = Grid.signedPoint bits (signed s n) := by
  cases s with
  | false => exact (Grid.signedPoint_natCast bits n).symm
  | true =>
      show -(Grid.point bits n : ℤ) = Grid.signedPoint bits (-n)
      rw [Grid.signedPoint_neg, Grid.signedPoint_natCast]

/-! ### The numbers that doubles stand for -/

/-- The number that a finite double stands for. -/
def toRat? : Double → Option ℚ
  | nan => none
  | infinite _ => none
  | finite s m => some (signed s m.units / 2 ^ 1074)

/-- The extended real number that a double stands for, NaN apart. -/
noncomputable def toEReal? : Double → Option EReal
  | nan => none
  | infinite s => some (if s then ⊥ else ⊤)
  | finite s m => some ((signed s m.units / 2 ^ 1074 : ℚ) : ℝ)

/-- The extended real number of a place on the line. -/
noncomputable def realAt (p : ℤ) : EReal :=
  if p ≤ -limit then ⊥
  else if limit ≤ p then ⊤
  else ((Grid.signedPoint 52 p / 2 ^ 1074 : ℚ) : ℝ)

variable {x y z : Double}

lemma limit_pos : 0 < limit := by decide

/-- Every number stands for what its place does. -/
lemma toEReal?_eq (x : Double) : x.toEReal? = x.position.map realAt := by
  have hlimit : (0 : ℤ) < limit := by exact_mod_cast limit_pos
  cases x with
  | nan => rfl
  | infinite s =>
      cases s with
      | false =>
          have hhigh : ¬(limit : ℤ) ≤ -limit := by omega
          simp [toEReal?, position, signed, realAt, hhigh]
      | true => simp [toEReal?, position, signed, realAt]
  | finite s m =>
      have hrank : (m.rank : ℤ) < limit := by exact_mod_cast m.rank_lt
      have hinside : ¬signed s m.rank ≤ -limit ∧ ¬(limit : ℤ) ≤ signed s m.rank := by
        cases s <;> simp only [signed, if_true, Bool.false_eq_true, if_false] <;> omega
      simp only [toEReal?, position, Option.map_some, realAt, if_neg hinside.1, if_neg hinside.2,
        Magnitude.units, signed_point]

/-- Every place lies between those of the two infinities. -/
lemma position_mem_Icc {p : ℤ} (h : x.position = some p) : p ∈ Set.Icc (-limit : ℤ) limit := by
  cases x with
  | nan => cases h
  | infinite s =>
      obtain rfl := Option.some.inj h
      cases s <;> simp [signed]
  | finite s m =>
      obtain rfl := Option.some.inj h
      have hrank := m.rank_lt
      cases s <;> simp [signed] <;> omega

/-- The extended real number grows from place to place. -/
lemma realAt_strictMonoOn : StrictMonoOn realAt (Set.Icc (-limit : ℤ) limit) := by
  intro p hp q hq hlt
  have hpos : (0 : ℚ) < 2 ^ 1074 := by positivity
  have hp' : ¬(limit : ℤ) ≤ p := not_le.mpr (hlt.trans_le hq.2)
  have hq' : ¬q ≤ -limit := not_le.mpr (hp.1.trans_lt hlt)
  have hsize : (Grid.signedPoint 52 p / 2 ^ 1074 : ℚ) < Grid.signedPoint 52 q / 2 ^ 1074 := by
    refine div_lt_div_of_pos_right ?_ hpos
    exact_mod_cast Grid.signedPoint_strictMono hlt
  rw [realAt, realAt, if_neg hp', if_neg hq']
  split_ifs
  · exact bot_lt_top
  · exact EReal.bot_lt_coe _
  · exact EReal.coe_lt_top _
  · exact EReal.coe_lt_coe (Rat.cast_lt.mpr hsize)

/-! ### Comparison -/

/-- Comparison of doubles is comparison of the numbers that they stand for. -/
lemma compare?_eq_map₂_cmp (x y : Double) :
    x.compare? y = Option.map₂ cmp x.toEReal? y.toEReal? := by
  rw [compare?, toEReal?_eq, toEReal?_eq]
  cases hx : x.position with
  | none => rfl
  | some p =>
      cases hy : y.position with
      | none => rfl
      | some q =>
          have hcmp := realAt_strictMonoOn.cmp_map_eq (position_mem_Icc hx) (position_mem_Icc hy)
          show some (compare p q) = some (cmp (realAt p) (realAt q))
          rw [hcmp, cmp_eq_compare]

/-- Exchanged numbers compare the other way. -/
lemma compare?_swap (x y : Double) : y.compare? x = (x.compare? y).map Ordering.swap := by
  have hswap : (fun r r' : EReal => (cmp r r').swap) = fun r r' => cmp r' r := by
    funext r r'
    exact cmp_swap r r'
  rw [compare?_eq_map₂_cmp, compare?_eq_map₂_cmp, Option.map_map₂, hswap, Option.map₂_swap]

lemma toEReal?_eq_none_iff : x.toEReal? = none ↔ x = nan := by
  cases x <;> simp [toEReal?]

lemma exists_toEReal?_eq (h : x ≠ nan) : ∃ r, x.toEReal? = some r :=
  Option.ne_none_iff_exists'.mp fun hnone => h (toEReal?_eq_none_iff.mp hnone)

/-- A finite double stands for the same number as an extended real one. -/
lemma toEReal?_of_toRat? {q : ℚ} (h : x.toRat? = some q) :
    x.toEReal? = some ((q : ℝ) : EReal) := by
  cases x with
  | nan => cases h
  | infinite s => cases h
  | finite s m =>
      obtain rfl := Option.some.inj h
      rfl

/-- There is no comparison exactly where NaN takes part. -/
lemma compare?_eq_none_iff : x.compare? y = none ↔ x = nan ∨ y = nan := by
  rw [compare?_eq_map₂_cmp, Option.map₂_eq_none_iff, toEReal?_eq_none_iff, toEReal?_eq_none_iff]

/-- Doubles are equal exactly if they stand for the same number. -/
lemma equals_iff_toEReal? :
    x.equals y = true ↔ ∃ r, x.toEReal? = some r ∧ y.toEReal? = some r := by
  rw [equals, beq_iff_eq, compare?_eq_map₂_cmp, Option.map₂_eq_some_iff]
  constructor
  · rintro ⟨r, r', hx, hy, hcmp⟩
    obtain rfl := (cmp_eq_eq_iff r r').mp hcmp
    exact ⟨r, hx, hy⟩
  · rintro ⟨r, hx, hy⟩
    exact ⟨r, r, hx, hy, cmp_self_eq_eq r⟩

lemma equals_iff_of_toRat? {p q : ℚ} (hx : x.toRat? = some p) (hy : y.toRat? = some q) :
    x.equals y = true ↔ p = q := by
  rw [equals_iff_toEReal?, toEReal?_of_toRat? hx, toEReal?_of_toRat? hy]
  simp [eq_comm]

/-! ### The order that comparison gives -/

/-- The order of two numbers is known, and the first is not the greater one. -/
def LessEq (x y : Double) : Prop := ∃ o, x.compare? y = some o ∧ o ≠ .gt

/-- A double is at most another exactly if the numbers that they stand for are so. -/
lemma lessEq_iff :
    x.LessEq y ↔ ∃ r r', x.toEReal? = some r ∧ y.toEReal? = some r' ∧ r ≤ r' := by
  rw [LessEq, compare?_eq_map₂_cmp]
  constructor
  · rintro ⟨o, ho, hne⟩
    obtain ⟨r, r', hr, hr', rfl⟩ := Option.map₂_eq_some_iff.mp ho
    exact ⟨r, r', hr, hr', not_lt.mp fun hlt => hne ((cmp_eq_gt_iff r r').mpr hlt)⟩
  · rintro ⟨r, r', hr, hr', hle⟩
    refine ⟨cmp r r', by rw [hr, hr']; rfl, fun hgt => ?_⟩
    exact absurd ((cmp_eq_gt_iff r r').mp hgt) (not_lt.mpr hle)

lemma lessEq_total (hx : x ≠ nan) (hy : y ≠ nan) : x.LessEq y ∨ y.LessEq x := by
  obtain ⟨r, hr⟩ := exists_toEReal?_eq hx
  obtain ⟨r', hr'⟩ := exists_toEReal?_eq hy
  rw [lessEq_iff, lessEq_iff]
  exact (le_total r r').imp (fun h => ⟨r, r', hr, hr', h⟩) fun h => ⟨r', r, hr', hr, h⟩

lemma LessEq.antisymm (hxy : x.LessEq y) (hyx : y.LessEq x) : x.equals y = true := by
  obtain ⟨r, r', hr, hr', hle⟩ := lessEq_iff.mp hxy
  obtain ⟨q', q, hq', hq, hle'⟩ := lessEq_iff.mp hyx
  obtain rfl := Option.some.inj (hr.symm.trans hq)
  obtain rfl := Option.some.inj (hr'.symm.trans hq')
  obtain rfl := le_antisymm hle hle'
  exact equals_iff_toEReal?.mpr ⟨r, hr, hr'⟩

lemma LessEq.trans (hxy : x.LessEq y) (hyz : y.LessEq z) : x.LessEq z := by
  obtain ⟨r, q, hr, hq, hle⟩ := lessEq_iff.mp hxy
  obtain ⟨q', r', hq', hr', hle'⟩ := lessEq_iff.mp hyz
  obtain rfl := Option.some.inj (hq.symm.trans hq')
  exact lessEq_iff.mpr ⟨r, r', hr, hr', hle.trans hle'⟩

end Double

end Abacus
