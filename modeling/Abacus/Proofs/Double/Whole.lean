import Mathlib.Tactic
import Abacus.Proofs.Double.Nearest

/-!
Whole numbers among the doubles.

* `Magnitude.IsWhole`: a magnitude that is a whole number.
* `Magnitude.exists_units_eq_of_le`, `Magnitude.exists_toRat_eq`: a whole number up to `2 ^ 53` of
  steps that are a power of two is a magnitude, and so is every whole number up to `2 ^ 53`.
* `Magnitude.isWhole_of_le`: from `2 ^ 52` on every magnitude is whole.
* `Magnitude.isWhole_of_isNearest`: so whole numbers are rounded to whole numbers only.
-/

namespace Abacus

namespace Double

namespace Magnitude

variable {m : Magnitude}

/-- A magnitude is whole if its size is a whole number. -/
def IsWhole (m : Magnitude) : Prop := ∃ n : ℕ, m.toRat = n

/-- A multiple of a step that is a power of two is a magnitude. -/
lemma exists_units_eq {k n : ℕ} (hk : k < 2045) (hn : k = 0 ∨ Grid.binade 52 ≤ n)
    (hn' : n ≤ 2 * Grid.binade 52) : ∃ m : Magnitude, m.units = n * Grid.step k := by
  have hpos := Grid.binade_pos 52
  refine ⟨⟨k * Grid.binade 52 + n, ?_⟩, Grid.point_add hn hn'⟩
  calc k * Grid.binade 52 + n ≤ k * Grid.binade 52 + 2 * Grid.binade 52 := by omega
    _ = (k + 2) * Grid.binade 52 := (Nat.add_mul ..).symm
    _ < limit := Nat.mul_lt_mul_of_pos_right (by omega) hpos

/-- A multiple of a step that is a power of two is a magnitude also where the multiple does not fill
a binade. -/
lemma exists_units_eq_of_le {k n : ℕ} (hn : n ≤ 2 ^ 53) (hk : k < 2045) :
    ∃ m : Magnitude, m.units = n * Grid.step k := by
  rcases Nat.eq_zero_or_pos n with rfl | hpos
  · exact ⟨zero, by rw [Nat.zero_mul]; exact point_zero⟩
  have hlow : 2 ^ n.log2 ≤ n := Nat.log2_self_le hpos.ne'
  have hhigh : n < 2 ^ (n.log2 + 1) := Nat.lt_log2_self
  by_cases hfill : 52 - n.log2 ≤ k
  · -- the number is moved up until it fills the binade
    have hshift : Grid.binade 52 ≤ n * 2 ^ (52 - n.log2)
        ∧ n * 2 ^ (52 - n.log2) ≤ 2 * Grid.binade 52 := by
      by_cases hlog : n.log2 ≤ 52
      · constructor
        · calc 2 ^ 52 = 2 ^ n.log2 * 2 ^ (52 - n.log2) := by
                rw [← pow_add, Nat.add_sub_cancel' hlog]
            _ ≤ n * 2 ^ (52 - n.log2) := Nat.mul_le_mul_right _ hlow
        · calc n * 2 ^ (52 - n.log2) ≤ 2 ^ (n.log2 + 1) * 2 ^ (52 - n.log2) :=
                Nat.mul_le_mul_right _ hhigh.le
            _ = 2 * 2 ^ 52 := by rw [← pow_add, ← pow_succ']; congr 1; omega
      · have hge : 2 ^ 53 ≤ n := (Nat.pow_le_pow_right two_pos (by omega)).trans hlow
        rw [Nat.sub_eq_zero_of_le (by omega), pow_zero, mul_one]
        exact ⟨(Nat.pow_le_pow_right two_pos (by norm_num)).trans hge, hn⟩
    obtain ⟨m, hm⟩ := exists_units_eq (k := k - (52 - n.log2)) (by omega)
      (Or.inr hshift.1) hshift.2
    refine ⟨m, ?_⟩
    calc m.units = n * (2 ^ (52 - n.log2) * 2 ^ (k - (52 - n.log2))) := hm.trans (mul_assoc ..)
      _ = n * 2 ^ k := by rw [← pow_add, Nat.add_sub_cancel' hfill]
  · -- there are too few steps for that, and the multiple lies in the first binade
    have hsmall : n * 2 ^ k ≤ 2 * Grid.binade 52 :=
      calc n * 2 ^ k ≤ 2 ^ (n.log2 + 1) * 2 ^ k := Nat.mul_le_mul_right _ hhigh.le
        _ = 2 ^ (n.log2 + 1 + k) := (pow_add ..).symm
        _ ≤ 2 ^ 53 := Nat.pow_le_pow_right two_pos (by omega)
    obtain ⟨m, hm⟩ := exists_units_eq (k := 0) (by norm_num) (Or.inl rfl) hsmall
    exact ⟨m, hm.trans (Nat.mul_one _)⟩

/-- The size of a magnitude, its units being a multiple of a step. -/
lemma toRat_of_units {n k : ℕ} (h : m.units = n * Grid.step k) :
    m.toRat = n * 2 ^ k / 2 ^ 1074 := by
  rw [toRat, h, Nat.cast_mul, Grid.cast_step]

/-- Every whole number up to `2 ^ 53` is a magnitude. -/
lemma exists_toRat_eq {k : ℕ} (hk : k ≤ 2 ^ 53) : ∃ m : Magnitude, m.toRat = k := by
  obtain ⟨m, hm⟩ := exists_units_eq_of_le (k := 1074) hk (by norm_num)
  refine ⟨m, ?_⟩
  rw [toRat_of_units hm, mul_div_cancel_right₀ _ (by positivity)]

/-- From `2 ^ 52` on every magnitude is whole. -/
lemma isWhole_of_le (h : 2 ^ 52 ≤ m.toRat) : m.IsWhole := by
  obtain ⟨k, n, hrank, hk, hn⟩ := Grid.exists_eq_add 52 m.rank
  have hunits : m.units = n * Grid.step k := by
    rw [units, hrank, Grid.point_add hk hn.le]
  rcases Nat.lt_or_ge k 1074 with hlt | hge
  · -- with a step below one the magnitude would be smaller
    have hn' : (n : ℚ) < 2 ^ 53 := by exact_mod_cast hn
    have hsize : m.toRat < 2 ^ 52 := by
      rw [toRat_of_units hunits, div_lt_iff₀ (by positivity)]
      calc (n : ℚ) * 2 ^ k < 2 ^ 53 * 2 ^ k := mul_lt_mul_of_pos_right hn' (by positivity)
        _ ≤ 2 ^ 53 * 2 ^ 1073 := by
            refine mul_le_mul_of_nonneg_left ?_ (by positivity)
            exact pow_le_pow_right₀ (by norm_num) (by omega)
        _ = 2 ^ 52 * 2 ^ 1074 := by rw [← pow_add, ← pow_add]
    exact absurd h (not_le.mpr hsize)
  · obtain ⟨i, rfl⟩ := Nat.exists_eq_add_of_le hge
    refine ⟨n * 2 ^ i, ?_⟩
    rw [toRat_of_units hunits, pow_add, mul_left_comm, mul_div_cancel_left₀ _ (by positivity)]
    push_cast
    rfl

/-- A whole number is rounded to a whole number. -/
lemma isWhole_of_isNearest {k : ℕ} (h : IsNearest k (.finite false m)) : m.IsWhole := by
  rcases Nat.lt_or_ge (2 ^ 53) k with hlt | hle
  · -- beyond `2 ^ 53`, which is a magnitude, nothing is rounded below it
    obtain ⟨m₀, hm₀⟩ := exists_toRat_eq (le_refl (2 ^ 53))
    refine isWhole_of_le ?_
    by_contra hsmall
    have hk : (2 : ℚ) ^ 53 < k := by exact_mod_cast hlt
    push_cast at hm₀
    refine absurd (h.2.2.1 m₀) (not_le.mpr (Grid.abs_sub_lt_of_lt (Or.inr ⟨?_, ?_⟩)))
    · rw [hm₀]
      linarith
    · rw [hm₀]
      exact hk.le
  · obtain ⟨m', hm'⟩ := exists_toRat_eq hle
    have hnear := isNearest_toRat m'
    rw [hm'] at hnear
    cases h.unique hnear
    exact ⟨k, hm'⟩

end Magnitude

end Double

end Abacus
