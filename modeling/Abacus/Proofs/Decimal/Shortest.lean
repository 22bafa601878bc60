import Mathlib.Tactic
import Abacus.Proofs.Decimal.RoundTrip
import Abacus.Proofs.Double.Whole

/-!
The shortest decimal of a magnitude.

The numbers that are read as a magnitude form an interval around it. So if any multiple of a power
of ten lies in the interval, one of the two multiples next to the magnitude does, and the search
from the coarsest grid downward stops at the first grid that has a multiple in the interval.

* `Reads`: a number that is read as a magnitude.
* `IsFirst`: the nearest multiple on the first grid that has one in the interval, which is what the
  search finds (`exists_isFirst`).
* `IsFirst.pow_le_coefficient`: no other decimal that is read as the magnitude has fewer digits.
* `IsFirst.abs_sub_le`: none with as many digits is nearer.
* `IsShortest`, `isShortest_shortest`: both together.
* `coefficient_mod_ten_ne_zero`, `exponent_nonneg_iff`: the shortest decimal does not end in a
  zero, and it has no places after the point exactly if the magnitude is a whole number.
-/

namespace Abacus

namespace Decimal

variable {m : Double.Magnitude} {k n : ℕ} {d : Decimal}

/-! ### Grids -/

lemma tenPow_mono {i j : ℕ} (h : i ≤ j) : tenPow i ≤ tenPow j :=
  Nat.pow_le_pow_right (by norm_num) h

/-- The unit that magnitudes are multiples of. -/
def unitSize : ℚ := (10 ^ 1074)⁻¹

lemma unitSize_pos : 0 < unitSize := by
  rw [unitSize]
  positivity

lemma toRat_onGrid (k n : ℕ) : (onGrid k n).toRat = k * 10 ^ n * unitSize := by
  have hpow : (10 : ℚ) ^ ((n : ℤ) - 1074) = 10 ^ n * unitSize := by
    rw [zpow_sub₀ (by norm_num), zpow_natCast, div_eq_mul_inv, unitSize]
    exact congrArg (10 ^ n * ·⁻¹) (zpow_natCast 10 1074)
  rw [onGrid, toRat, hpow, mul_assoc]

lemma toRat_eq_units (m : Double.Magnitude) : m.toRat = unitsOf m * unitSize := by
  rw [← toRat_ofMagnitude, ofMagnitude, toRat_onGrid, pow_zero, mul_one]

lemma toRat_eq_zero (hm : m.rank = 0) : m.toRat = 0 := by
  rw [Double.Magnitude.toRat, Double.Magnitude.units, hm, Double.point_zero, Nat.cast_zero,
    zero_div]

lemma isWhole_of_rank_eq_zero (hm : m.rank = 0) : m.IsWhole :=
  ⟨0, by rw [toRat_eq_zero hm, Nat.cast_zero]⟩

/-- A multiple of a power of ten is ten times as large a multiple of the power before it. -/
lemma toRat_onGrid_succ (k n : ℕ) : (onGrid k (n + 1)).toRat = (onGrid (10 * k) n).toRat := by
  rw [toRat_onGrid, toRat_onGrid, pow_succ]
  push_cast
  ring

lemma toRat_onGrid_mul (j k n : ℕ) : (onGrid (j * k) n).toRat = j * (onGrid k n).toRat := by
  rw [toRat_onGrid, toRat_onGrid]
  push_cast
  ring

lemma toRat_onGrid_lt {j k : ℕ} (h : j < k) (n : ℕ) :
    (onGrid j n).toRat < (onGrid k n).toRat := by
  have hcast : (j : ℚ) < k := by exact_mod_cast h
  have hunit := unitSize_pos
  rw [toRat_onGrid, toRat_onGrid]
  gcongr

lemma toRat_onGrid_mono {j k : ℕ} (h : j ≤ k) (n : ℕ) :
    (onGrid j n).toRat ≤ (onGrid k n).toRat := by
  rcases h.lt_or_eq with hlt | rfl
  · exact (toRat_onGrid_lt hlt n).le
  · exact le_rfl

/-- The distances of a number of units from its neighbours among the multiples of `10 ^ n`. -/
lemma sub_toRat_onGrid_div (u n : ℕ) :
    u * unitSize - (onGrid (u / tenPow n) n).toRat = (u % tenPow n : ℕ) * unitSize
    ∧ (onGrid (u / tenPow n + 1) n).toRat - u * unitSize
        = (tenPow n - (u % tenPow n : ℕ)) * unitSize := by
  have hdivision : (u : ℚ) = (u / tenPow n : ℕ) * tenPow n + (u % tenPow n : ℕ) := by
    exact_mod_cast (Nat.div_add_mod' u (tenPow n)).symm
  rw [toRat_onGrid, toRat_onGrid, ← cast_tenPow]
  push_cast
  constructor
  · linear_combination unitSize * hdivision
  · linear_combination -unitSize * hdivision

/-- A magnitude lies between its neighbours on every grid. -/
lemma toRat_onGrid_div_le (m : Double.Magnitude) (n : ℕ) :
    (onGrid (unitsOf m / tenPow n) n).toRat ≤ m.toRat := by
  have hunit := unitSize_pos
  rw [← sub_nonneg, toRat_eq_units, (sub_toRat_onGrid_div _ n).1]
  positivity

lemma lt_toRat_onGrid_div (m : Double.Magnitude) (n : ℕ) :
    m.toRat < (onGrid (unitsOf m / tenPow n + 1) n).toRat := by
  have hmod : unitsOf m % tenPow n < tenPow n := Nat.mod_lt _ (Nat.pow_pos (by norm_num))
  rw [← sub_pos, toRat_eq_units, (sub_toRat_onGrid_div _ n).2]
  exact mul_pos (sub_pos.mpr (by exact_mod_cast hmod)) unitSize_pos

/-- A decimal is a multiple of a grid's power of ten, or its own power is at most a tenth of it. -/
lemma exists_onGrid_or_le (d : Decimal) (n : ℕ) :
    (∃ j, d.toRat = (onGrid j n).toRat) ∨ 10 * d.toRat ≤ (onGrid d.coefficient n).toRat := by
  rcases lt_or_ge d.exponent ((n : ℤ) - 1074) with hlt | hge
  · right
    have hexp : 1 + d.exponent ≤ (n : ℤ) - 1074 := by omega
    rw [toRat, onGrid, toRat, mul_left_comm]
    refine mul_le_mul_of_nonneg_left ?_ (Nat.cast_nonneg _)
    rw [← zpow_one_add₀ (by norm_num)]
    exact zpow_le_zpow_right₀ (by norm_num) hexp
  · left
    obtain ⟨i, hi⟩ := Int.eq_ofNat_of_zero_le (sub_nonneg.mpr hge)
    have hexp : d.exponent = i + ((n : ℤ) - 1074) := by omega
    refine ⟨d.coefficient * 10 ^ i, ?_⟩
    rw [toRat, onGrid, toRat, hexp, zpow_add₀ (by norm_num), zpow_natCast]
    push_cast
    rw [mul_assoc]

/-- From the place of the point on the multiples are whole numbers. -/
lemma toRat_onGrid_whole (k i : ℕ) : (onGrid k (1074 + i)).toRat = (k * 10 ^ i : ℕ) := by
  rw [toRat_onGrid, unitSize, pow_add, mul_left_comm, mul_right_comm,
    mul_inv_cancel₀ (by positivity), one_mul]
  push_cast
  rfl

/-! ### The interval of a magnitude -/

/-- A number is read as a magnitude. -/
def Reads (m : Double.Magnitude) (q : ℚ) : Prop := Double.IsNearest q (.finite false m)

lemma toDouble_eq_iff_reads : d.toDouble = .finite false m ↔ Reads m d.toRat := toDouble_eq_iff

lemma readsAs_iff : readsAs m d = true ↔ Reads m d.toRat := by
  rw [readsAs, decide_eq_true_iff, toDouble_eq_iff_reads]

lemma reads_toRat (m : Double.Magnitude) : Reads m m.toRat := Double.isNearest_toRat m

lemma Reads.between {q₁ q q₂ : ℚ} (h₁ : Reads m q₁) (h₂ : Reads m q₂) (hle₁ : q₁ ≤ q)
    (hle₂ : q ≤ q₂) : Reads m q :=
  h₁.of_le_of_le h₂ hle₁ hle₂

/-- Only zero is read from the coefficient zero. -/
lemma rank_eq_zero_of_reads (n : ℕ) (h : Reads m (onGrid 0 n).toRat) : m.rank = 0 := by
  have hread := toDouble_eq_iff_reads.mpr h
  rw [toDouble, if_pos (by rfl)] at hread
  cases hread
  rfl

/-- If a multiple of a power of ten is read as a magnitude, so is the neighbour of the magnitude on
that side. -/
lemma Reads.neighbour {j : ℕ} (h : Reads m (onGrid j n).toRat) :
    j ≤ unitsOf m / tenPow n ∧ Reads m (onGrid (unitsOf m / tenPow n) n).toRat
    ∨ unitsOf m / tenPow n + 1 ≤ j ∧ Reads m (onGrid (unitsOf m / tenPow n + 1) n).toRat := by
  rcases Nat.lt_or_ge (unitsOf m / tenPow n) j with hlt | hge
  · exact Or.inr ⟨hlt, (reads_toRat m).between h (lt_toRat_onGrid_div m n).le
      (toRat_onGrid_mono hlt n)⟩
  · exact Or.inl ⟨hge, h.between (reads_toRat m) (toRat_onGrid_mono hge n)
      (toRat_onGrid_div_le m n)⟩

/-! ### The search -/

lemma firstReading?_eq_none {pair : Decimal × Decimal} (h : firstReading? m pair = none) :
    ¬Reads m pair.1.toRat ∧ ¬Reads m pair.2.toRat := by
  rw [firstReading?] at h
  split_ifs at h with h₁ h₂
  rw [readsAs_iff] at h₁ h₂
  exact ⟨h₁, h₂⟩

/-- The second of a pair is taken only if the first is not read as the magnitude. -/
lemma firstReading?_cases {pair : Decimal × Decimal} (h : firstReading? m pair = some d) :
    d = pair.1 ∧ Reads m pair.1.toRat
    ∨ d = pair.2 ∧ Reads m pair.2.toRat ∧ ¬Reads m pair.1.toRat := by
  rw [firstReading?] at h
  split_ifs at h with h₁ h₂
  · exact Or.inl ⟨(Option.some.inj h).symm, readsAs_iff.mp h₁⟩
  · rw [readsAs_iff] at h₁
    exact Or.inr ⟨(Option.some.inj h).symm, readsAs_iff.mp h₂, h₁⟩

/-- The neighbours of a magnitude come in the order of their distances. -/
lemma neighbours_cases (m : Double.Magnitude) (n : ℕ) :
    let below := onGrid (unitsOf m / tenPow n) n
    let above := onGrid (unitsOf m / tenPow n + 1) n
    neighbours (unitsOf m) n = (below, above) ∧ m.toRat - below.toRat ≤ above.toRat - m.toRat
    ∨ neighbours (unitsOf m) n = (above, below)
      ∧ above.toRat - m.toRat ≤ m.toRat - below.toRat := by
  intro below above
  have hunit := unitSize_pos
  obtain ⟨hbelow, habove⟩ := sub_toRat_onGrid_div (unitsOf m) n
  rw [toRat_eq_units, hbelow, habove, mul_le_mul_iff_left₀ hunit, mul_le_mul_iff_left₀ hunit,
    neighbours]
  split_ifs with hhalf
  · refine Or.inl ⟨rfl, ?_⟩
    have hcast : (2 * (unitsOf m % tenPow n : ℕ) : ℚ) < tenPow n := by exact_mod_cast hhalf
    linarith
  · refine Or.inr ⟨rfl, ?_⟩
    have hcast : (tenPow n : ℚ) ≤ 2 * (unitsOf m % tenPow n : ℕ) := by
      exact_mod_cast not_lt.mp hhalf
    linarith

/-- Where a grid has no candidate, none of its multiples is read as the magnitude. -/
lemma not_reads_of_candidate?_eq_none (h : candidate? m n = none) (j : ℕ) :
    ¬Reads m (onGrid j n).toRat := by
  intro hj
  have hpair := firstReading?_eq_none h
  have hboth : ¬Reads m (onGrid (unitsOf m / tenPow n) n).toRat
      ∧ ¬Reads m (onGrid (unitsOf m / tenPow n + 1) n).toRat := by
    rcases neighbours_cases m n with ⟨heq, -⟩ | ⟨heq, -⟩
    · rwa [heq] at hpair
    · rw [heq] at hpair
      exact hpair.symm
  rcases hj.neighbour with ⟨-, hread⟩ | ⟨-, hread⟩
  · exact hboth.1 hread
  · exact hboth.2 hread

/-- The candidate of a grid is read as the magnitude, and no multiple that is read as it is
nearer. -/
lemma candidate?_spec (h : candidate? m n = some d) :
    ∃ k, d = onGrid k n ∧ Reads m (onGrid k n).toRat
      ∧ ∀ j, Reads m (onGrid j n).toRat →
          |(onGrid k n).toRat - m.toRat| ≤ |(onGrid j n).toRat - m.toRat| := by
  have hbelow := toRat_onGrid_div_le m n
  have habove := lt_toRat_onGrid_div m n
  have hdown := abs_of_nonpos (sub_nonpos.mpr hbelow)
  have hup := abs_of_pos (sub_pos.mpr habove)
  rw [neg_sub] at hdown
  -- of the multiples on one side the neighbour is nearest
  have hside : ∀ j, Reads m (onGrid j n).toRat →
      m.toRat - (onGrid (unitsOf m / tenPow n) n).toRat ≤ |(onGrid j n).toRat - m.toRat|
        ∧ Reads m (onGrid (unitsOf m / tenPow n) n).toRat
      ∨ (onGrid (unitsOf m / tenPow n + 1) n).toRat - m.toRat ≤ |(onGrid j n).toRat - m.toRat|
        ∧ Reads m (onGrid (unitsOf m / tenPow n + 1) n).toRat := by
    intro j hj
    rcases hj.neighbour with ⟨hle, hread⟩ | ⟨hle, hread⟩
    · refine Or.inl ⟨?_, hread⟩
      rw [abs_sub_comm]
      exact (sub_le_sub_left (toRat_onGrid_mono hle n) _).trans (le_abs_self _)
    · refine Or.inr ⟨?_, hread⟩
      exact (sub_le_sub_right (toRat_onGrid_mono hle n) _).trans (le_abs_self _)
  rcases neighbours_cases m n with ⟨heq, horder⟩ | ⟨heq, horder⟩
  · -- the lower neighbour is tried first
    rw [candidate?, heq] at h
    rcases firstReading?_cases h with ⟨rfl, hread⟩ | ⟨rfl, hread, hnot⟩
    · refine ⟨_, rfl, hread, fun j hj => ?_⟩
      rw [hdown]
      rcases hside j hj with ⟨hle, -⟩ | ⟨hle, -⟩ <;> linarith
    · refine ⟨_, rfl, hread, fun j hj => ?_⟩
      rw [hup]
      exact ((hside j hj).resolve_left fun hlower => hnot hlower.2).1
  · -- the upper neighbour is tried first
    rw [candidate?, heq] at h
    rcases firstReading?_cases h with ⟨rfl, hread⟩ | ⟨rfl, hread, hnot⟩
    · refine ⟨_, rfl, hread, fun j hj => ?_⟩
      rw [hup]
      rcases hside j hj with ⟨hle, -⟩ | ⟨hle, -⟩ <;> linarith
    · refine ⟨_, rfl, hread, fun j hj => ?_⟩
      rw [hdown]
      exact ((hside j hj).resolve_right fun hupper => hnot hupper.2).1

/-- The finest grid has the magnitude itself as its candidate. -/
lemma candidate?_zero (m : Double.Magnitude) : candidate? m 0 = some (ofMagnitude m) := by
  have hone : tenPow 0 = 1 := rfl
  have hpair : ∀ u, neighbours u 0 = (onGrid u 0, onGrid (u + 1) 0) := by
    intro u
    rw [neighbours, hone, Nat.div_one, Nat.mod_one, if_pos (by norm_num)]
  have hread : readsAs m (ofMagnitude m) = true := by
    rw [readsAs_iff, toRat_ofMagnitude]
    exact reads_toRat m
  rw [candidate?, hpair, firstReading?]
  exact if_pos hread

/-- The search finds the first hit: from there upward no place has one. -/
lemma exists_firstHit_eq {hit? : ℕ → Option Decimal} {last : Decimal} (hlast : hit? 0 = some last)
    (top : ℕ) :
    ∃ n ≤ top, hit? n = some (firstHit hit? last top)
      ∧ ∀ i, n < i → i ≤ top → hit? i = none := by
  induction top with
  | zero => exact ⟨0, le_rfl, hlast, fun i hi hi' => absurd hi' (not_le.mpr hi)⟩
  | succ top ih =>
      rw [firstHit]
      cases htop : hit? (top + 1) with
      | some d =>
          refine ⟨top + 1, le_rfl, htop, ?_⟩
          intro i hi hi'
          omega
      | none =>
          obtain ⟨n, hn, hhit, hnone⟩ := ih
          refine ⟨n, by omega, hhit, ?_⟩
          intro i hi hi'
          rcases Nat.lt_or_eq_of_le hi' with hlt | rfl
          · exact hnone i hi (by omega)
          · exact htop

/-- The coarsest grid is coarser than the magnitude. -/
lemma unitsOf_lt_tenPow_coarsest (m : Double.Magnitude) : unitsOf m < tenPow (coarsest m) := by
  have hsmall : ∀ r < 93, 2 ^ r ≤ 10 ^ (r * 28 / 93 + 1) := by decide
  have hlog : ∀ u : ℕ, u < tenPow ((u.log2 + 1) * 28 / 93 + 1) := by
    intro u
    have hpow := step_le_tenPow ((u.log2 + 1) / 93)
      (hsmall ((u.log2 + 1) % 93) (Nat.mod_lt _ (by norm_num)))
    have hplace : 28 * ((u.log2 + 1) / 93) + ((u.log2 + 1) % 93 * 28 / 93 + 1)
        = (u.log2 + 1) * 28 / 93 + 1 := by omega
    rw [Nat.div_add_mod, hplace] at hpow
    exact Nat.lt_log2_self.trans_le hpow
  exact hlog (unitsOf m)

/-- The nearest multiple on the first grid that has one in the interval of a magnitude. -/
structure IsFirst (m : Double.Magnitude) (k n : ℕ) : Prop where
  pos : 0 < k
  reads : Reads m (onGrid k n).toRat
  nearest : ∀ j, Reads m (onGrid j n).toRat →
    |(onGrid k n).toRat - m.toRat| ≤ |(onGrid j n).toRat - m.toRat|
  le_coarsest : n ≤ coarsest m
  not_reads : ∀ i, n < i → i ≤ coarsest m → ∀ j, ¬Reads m (onGrid j i).toRat

/-- The search finds the nearest multiple on the first grid that has one in the interval. -/
lemma exists_isFirst (hm : m.rank ≠ 0) : ∃ k n, shortest m = onGrid k n ∧ IsFirst m k n := by
  obtain ⟨n, hn, hhit, hnone⟩ := exists_firstHit_eq (candidate?_zero m) (coarsest m)
  obtain ⟨k, heq, hread, hnearest⟩ := candidate?_spec hhit
  refine ⟨k, n, ?_, ?_, hread, hnearest, hn, ?_⟩
  · rw [shortest, if_neg hm, heq]
  · rw [Nat.pos_iff_ne_zero]
    rintro rfl
    exact hm (rank_eq_zero_of_reads n hread)
  · exact fun i hi hi' => not_reads_of_candidate?_eq_none (hnone i hi hi')

/-! ### No shorter decimal, and no nearer one -/

namespace IsFirst

variable (h : IsFirst m k n)
include h

/-- On a grid coarser than the magnitude only the power of ten itself can be read as it. -/
lemma eq_one_of_lt (hlt : m.toRat < (onGrid 1 n).toRat) : k = 1 := by
  by_contra hne
  have hpos := h.pos
  have hmono := toRat_onGrid_lt (by omega : 1 < k) n
  have hone : Reads m (onGrid 1 n).toRat := (reads_toRat m).between h.reads hlt.le hmono.le
  have hnearer := h.nearest 1 hone
  rw [abs_of_pos (by linarith), abs_of_pos (by linarith)] at hnearer
  linarith

/-- Past the first grid there is no other multiple, unless the first grid is the coarsest. -/
lemma eq_one_or_not_reads : k = 1 ∨ ∀ j, ¬Reads m (onGrid j (n + 1)).toRat := by
  rcases h.le_coarsest.lt_or_eq with hlt | rfl
  · exact Or.inr (h.not_reads (n + 1) (by omega) hlt)
  · left
    apply h.eq_one_of_lt
    have hunits : (unitsOf m : ℚ) < 10 ^ coarsest m := by
      rw [← cast_tenPow]
      exact_mod_cast unitsOf_lt_tenPow_coarsest m
    rw [toRat_eq_units, toRat_onGrid, Nat.cast_one, one_mul]
    exact mul_lt_mul_of_pos_right hunits unitSize_pos

/-- Up to the coefficient, no power of ten but one itself is read as the magnitude. -/
lemma not_reads_pow {e : ℕ} (he : 0 < e) (hk : 10 ^ e ≤ k) :
    ¬Reads m (onGrid (10 ^ e) n).toRat := by
  have hten : 1 < 10 ^ e := Nat.one_lt_pow he.ne' (by norm_num)
  obtain ⟨i, rfl⟩ : ∃ i, e = i + 1 := ⟨e - 1, by omega⟩
  rw [pow_succ', ← toRat_onGrid_succ]
  exact h.eq_one_or_not_reads.resolve_left (by omega) (10 ^ i)

/-- Every decimal that is read as the magnitude has at least as many digits. -/
lemma pow_le_coefficient {e : ℕ} (he : 0 < e) (hk : 10 ^ e ≤ k) (hd : Reads m d.toRat) :
    10 ^ e ≤ d.coefficient := by
  by_contra hlt
  have hten : 1 < 10 ^ e := Nat.one_lt_pow he.ne' (by norm_num)
  rcases exists_onGrid_or_le d (n + 1) with ⟨j, hj⟩ | hle
  · rw [hj] at hd
    exact h.eq_one_or_not_reads.resolve_left (by omega) j hd
  · -- the power of ten lies between the two
    rw [toRat_onGrid_succ, toRat_onGrid_mul, Nat.cast_ofNat] at hle
    have hbelow := toRat_onGrid_lt (not_le.mp hlt) n
    exact h.not_reads_pow he hk (hd.between h.reads (by linarith) (toRat_onGrid_mono hk n))

end IsFirst

/-- If a power of ten above a magnitude is read as it, and nine tenths of the power or less are,
too, the magnitude has only a few quanta. -/
lemma rank_le_nine {q t : ℚ} (hq : Reads m q) (ht : Reads m t) (hle : 10 * q ≤ 9 * t)
    (hpos : 0 < m.rank) : m.rank ≤ 9 := by
  rw [Reads, Double.isNearest_finite_iff] at hq ht
  obtain ⟨r, hr⟩ : ∃ r, m.rank = r + 1 := ⟨m.rank - 1, by omega⟩
  rw [hr] at hq ht ⊢
  have hlow := hq.midpoint_le (Nat.lt_succ_self r)
  have hhigh := ht.le_midpoint (Nat.lt_succ_self (r + 1))
  have hgaps : (2 * Grid.point 52 (r + 1) : ℚ) ≤ Grid.point 52 r + Grid.point 52 (r + 2) := by
    exact_mod_cast Grid.two_mul_point_le 52 r
  have hscaled : 10 * (q * 2 ^ 1074) ≤ 9 * (t * 2 ^ 1074) := by
    have hscale : (0 : ℚ) < 2 ^ 1074 := by positivity
    rw [← mul_assoc, ← mul_assoc]
    exact mul_le_mul_of_nonneg_right hle hscale.le
  generalize q * 2 ^ 1074 = x at *
  generalize t * 2 ^ 1074 = y at *
  -- the step after the magnitude is longer than a twentieth of it
  have hstep : 21 * Grid.point 52 (r + 1) ≤ 19 * Grid.point 52 (r + 2) := by
    have hcast : (21 * Grid.point 52 (r + 1) : ℚ) ≤ 19 * Grid.point 52 (r + 2) := by linarith
    exact_mod_cast hcast
  obtain ⟨i, p, hrank, hi, hp⟩ := Grid.exists_eq_add 52 (r + 1)
  rw [show r + 2 = r + 1 + 1 from rfl, hrank, Nat.add_assoc, Grid.point_add hi hp.le,
    Grid.point_add (by omega) (by omega), ← Nat.mul_assoc, ← Nat.mul_assoc,
    Nat.mul_le_mul_right_iff (Grid.step_pos i)] at hstep
  have hbinade : Grid.binade 52 = 4503599627370496 := by decide
  rcases hi with rfl | hi
  · omega
  · omega

/-- Of the powers of ten, only `10 ^ 751` units are less than half a quantum above a number of
quanta from one to nine, namely above two. -/
lemma eq_two_of_lt_tenPow {r : ℕ} (hr : 0 < r) (hr' : r ≤ 9) (hlt : r * unitsInQuantum < tenPow n)
    (hle : 2 * tenPow n ≤ (2 * r + 1) * unitsInQuantum) : r = 2 ∧ n = 751 := by
  have h750 : tenPow 750 < unitsInQuantum := by decide +kernel
  have h751 : 2 * unitsInQuantum < tenPow 751 ∧ tenPow 751 < 3 * unitsInQuantum := by
    decide +kernel
  have h752 : 10 * unitsInQuantum < tenPow 752 := by decide +kernel
  obtain rfl : n = 751 := by
    by_contra hne
    rcases Nat.lt_or_gt_of_ne hne with hn | hn
    · have hsmall := tenPow_mono (by omega : n ≤ 750)
      have hone : unitsInQuantum ≤ r * unitsInQuantum := Nat.le_mul_of_pos_left _ hr
      omega
    · have hlarge := tenPow_mono (by omega : 752 ≤ n)
      have hnine : (2 * r + 1) * unitsInQuantum ≤ 19 * unitsInQuantum :=
        Nat.mul_le_mul_right _ (by omega)
      omega
  refine ⟨?_, rfl⟩
  have hlow : r < 3 := Nat.lt_of_mul_lt_mul_right (hlt.trans h751.2)
  have hhigh : 4 < 2 * r + 1 := by
    refine Nat.lt_of_mul_lt_mul_right (a := unitsInQuantum) ?_
    omega
  omega

/-- A power of ten above a magnitude that is read as it is nearer to it than any number up to nine
tenths of the power that is read as it, too. This can happen at two quanta only. -/
lemma sub_le_sub_of_reads {q : ℚ} (hq : Reads m q) (ht : Reads m (onGrid 1 n).toRat)
    (hle : 10 * q ≤ 9 * (onGrid 1 n).toRat) (hm : 0 < m.rank)
    (hlt : m.toRat < (onGrid 1 n).toRat) : (onGrid 1 n).toRat - m.toRat ≤ m.toRat - q := by
  have hrank := rank_le_nine hq ht hle hm
  have hbinade : Grid.binade 52 = 4503599627370496 := by decide
  have hpoint : ∀ r < Grid.binade 52, Grid.point 52 r = r := fun r hr => if_pos hr
  have hunits : unitsOf m = m.rank * unitsInQuantum := by
    rw [unitsOf, Double.Magnitude.units, hpoint _ (by omega)]
  have htenPow : (onGrid 1 n).toRat = tenPow n * unitSize := by
    rw [toRat_onGrid, Nat.cast_one, one_mul, cast_tenPow]
  have hbelow : m.rank * unitsInQuantum < tenPow n := by
    rw [toRat_eq_units, htenPow, mul_lt_mul_iff_left₀ unitSize_pos, hunits] at hlt
    exact_mod_cast hlt
  have habove : 2 * tenPow n ≤ (2 * m.rank + 1) * unitsInQuantum := by
    have hquanta : tenPow n * unitSize * 2 ^ 1074 * unitsInQuantum = tenPow n := by
      rw [mul_assoc, mul_comm (2 ^ 1074), cast_unitsInQuantum, mul_assoc, unitSize,
        inv_mul_cancel₀ (by positivity), mul_one]
    have hnear := (Double.isNearest_finite_iff.mp ht).le_midpoint (Nat.lt_succ_self m.rank)
    rw [hpoint _ (by omega), hpoint _ (by omega), htenPow] at hnear
    have hscaled := mul_le_mul_of_nonneg_right hnear (Nat.cast_nonneg unitsInQuantum)
    rw [mul_assoc, hquanta] at hscaled
    have hcast : (2 * tenPow n : ℚ) ≤ (2 * m.rank + 1) * unitsInQuantum := by
      refine hscaled.trans_eq ?_
      push_cast
      ring
    exact_mod_cast hcast
  obtain ⟨htwo, rfl⟩ := eq_two_of_lt_tenPow hm hrank hbelow habove
  have hfar : (19 * tenPow 751 : ℚ) ≤ 40 * unitsInQuantum := by
    have hnat : 19 * tenPow 751 ≤ 40 * unitsInQuantum := by decide +kernel
    exact_mod_cast hnat
  have hscaled := mul_le_mul_of_nonneg_right hfar unitSize_pos.le
  rw [htenPow] at hle ⊢
  rw [toRat_eq_units, hunits, htwo]
  push_cast
  linarith

/-- No decimal with as many digits that is read as the magnitude is nearer to it. -/
lemma IsFirst.abs_sub_le {e : ℕ} (h : IsFirst m k n) (hm : 0 < m.rank) (hk : 10 ^ e ≤ k)
    (hd : Reads m d.toRat) (hcoeff : d.coefficient < 10 ^ (e + 1)) :
    |(onGrid k n).toRat - m.toRat| ≤ |d.toRat - m.toRat| := by
  rcases exists_onGrid_or_le d n with ⟨j, hj⟩ | hle
  · rw [hj] at hd ⊢
    exact h.nearest j hd
  · -- the decimal lies below the power of ten, so this is read as the magnitude, and must be one
    have hlt := toRat_onGrid_lt hcoeff n
    rw [pow_succ', toRat_onGrid_mul, Nat.cast_ofNat] at hlt
    have hpow : Reads m (onGrid (10 ^ e) n).toRat :=
      hd.between h.reads (by linarith) (toRat_onGrid_mono hk n)
    obtain rfl : e = 0 := by
      by_contra he
      exact h.not_reads_pow (Nat.pos_of_ne_zero he) hk hpow
    rw [pow_zero] at hpow hlt
    rcases le_or_gt (onGrid 1 n).toRat m.toRat with hbelow | habove
    · have hnearest := h.nearest 1 hpow
      rw [abs_of_nonpos (a := (onGrid 1 n).toRat - m.toRat) (by linarith)] at hnearest
      rw [abs_of_nonpos (a := d.toRat - m.toRat) (by linarith)]
      linarith
    · have hnine : 10 * d.toRat ≤ 9 * (onGrid 1 n).toRat := by
        have hmono := toRat_onGrid_mono (by omega : d.coefficient ≤ 9 * 1) n
        rw [toRat_onGrid_mul, Nat.cast_ofNat] at hmono
        linarith
      have hnearer := sub_le_sub_of_reads hd hpow hnine hm habove
      rw [h.eq_one_of_lt habove, abs_of_pos (by linarith)]
      exact hnearer.trans ((le_abs_self _).trans_eq (abs_sub_comm _ _))

/-- The number of digits that a decimal is written with, apart from zeros for its exponent. -/
def digitCount (d : Decimal) : ℕ := (Nat.toDigits 10 d.coefficient).length

lemma digitCount_le_iff {e : ℕ} (he : 0 < e) : d.digitCount ≤ e ↔ d.coefficient < 10 ^ e :=
  Nat.length_toDigits_le_iff (by norm_num) he

lemma digitCount_pos (d : Decimal) : 0 < d.digitCount := Nat.length_toDigits_pos

/-- A shortest decimal of a magnitude: it is read as the magnitude, no decimal that is has fewer
digits, and none with as many digits is nearer. -/
structure IsShortest (m : Double.Magnitude) (d : Decimal) : Prop where
  toDouble_eq : d.toDouble = .finite false m
  digitCount_le : ∀ d' : Decimal, d'.toDouble = .finite false m → d.digitCount ≤ d'.digitCount
  nearest : ∀ d' : Decimal, d'.toDouble = .finite false m → d'.digitCount = d.digitCount →
    |d.toRat - m.toRat| ≤ |d'.toRat - m.toRat|

/-- The search finds the shortest decimal, and of several the nearest. -/
theorem isShortest_shortest (m : Double.Magnitude) : IsShortest m (shortest m) := by
  by_cases hzero : m.rank = 0
  · have hshortest : shortest m = ⟨0, 0⟩ := if_pos hzero
    have hcount : digitCount ⟨0, 0⟩ = 1 := by decide
    refine ⟨toDouble_shortest m, fun d' _ => ?_, fun d' _ _ => ?_⟩
    · rw [hshortest, hcount]
      exact d'.digitCount_pos
    · rw [hshortest, toRat_eq_zero hzero, toRat, Nat.cast_zero, zero_mul, sub_zero, abs_zero]
      exact abs_nonneg _
  · obtain ⟨k, n, heq, hfirst⟩ := exists_isFirst hzero
    have hpos := (onGrid k n).digitCount_pos
    rw [heq]
    refine ⟨toDouble_eq_iff_reads.mpr hfirst.reads, fun d' hd' => ?_, fun d' hd' hcount => ?_⟩
    · by_contra hlt
      have hk : 10 ^ d'.digitCount ≤ k :=
        not_lt.mp ((digitCount_le_iff (d := onGrid k n) d'.digitCount_pos).not.mp hlt)
      have hle := hfirst.pow_le_coefficient d'.digitCount_pos hk (toDouble_eq_iff_reads.mp hd')
      exact absurd ((digitCount_le_iff d'.digitCount_pos).mp le_rfl) (not_lt.mpr hle)
    · obtain ⟨e, he⟩ : ∃ e, (onGrid k n).digitCount = e + 1 := ⟨_, (Nat.sub_add_cancel hpos).symm⟩
      have hk : 10 ^ e ≤ k := by
        rcases Nat.eq_zero_or_pos e with rfl | he'
        · exact hfirst.pos
        · exact not_lt.mp ((digitCount_le_iff (d := onGrid k n) he').not.mp (by omega))
      refine hfirst.abs_sub_le (Nat.pos_of_ne_zero hzero) hk (toDouble_eq_iff_reads.mp hd') ?_
      exact (digitCount_le_iff (by omega)).mp (by omega)

/-! ### Zeros at the end, and whole numbers -/

/-- The shortest decimal of a positive magnitude does not end in a zero. -/
lemma coefficient_mod_ten_ne_zero (hm : m.rank ≠ 0) : (shortest m).coefficient % 10 ≠ 0 := by
  obtain ⟨k, n, heq, hfirst⟩ := exists_isFirst hm
  rw [heq]
  show k % 10 ≠ 0
  intro hten
  have hpos := hfirst.pos
  -- without its zero it would be a multiple on a coarser grid
  obtain ⟨j, rfl⟩ : ∃ j, k = 10 * j := ⟨k / 10, by omega⟩
  have hread := hfirst.reads
  rw [← toRat_onGrid_succ] at hread
  exact hfirst.eq_one_or_not_reads.resolve_left (by omega) j hread

/-- On the first grid that a positive whole number has a multiple on, there are no places after the
point. -/
lemma IsFirst.le_of_isWhole (hfirst : IsFirst m k n) (hm : m.rank ≠ 0) (hwhole : m.IsWhole) :
    1074 ≤ n := by
  obtain ⟨size, hsize⟩ := hwhole
  have hread : Reads m (onGrid size (1074 + 0)).toRat := by
    rw [toRat_onGrid_whole, pow_zero, mul_one, ← hsize]
    exact reads_toRat m
  have hpos : 1 ≤ size := by
    by_contra hnone
    obtain rfl : size = 0 := by omega
    exact hm (rank_eq_zero_of_reads _ hread)
  -- the number is at least one, which the coarsest grid is coarser than
  have hcoarse : 1074 ≤ coarsest m := by
    by_contra hlt
    have hunits : unitsOf m < tenPow 1074 :=
      (unitsOf_lt_tenPow_coarsest m).trans_le (tenPow_mono (not_le.mp hlt).le)
    have hone : (tenPow 1074 : ℚ) * unitSize = 1 := by
      rw [cast_tenPow, unitSize, mul_inv_cancel₀ (by positivity)]
    have hlt' : m.toRat < 1 := by
      rw [toRat_eq_units, ← hone]
      exact mul_lt_mul_of_pos_right (by exact_mod_cast hunits) unitSize_pos
    have hge : (1 : ℚ) ≤ size := by exact_mod_cast hpos
    linarith
  by_contra hlt
  exact hfirst.not_reads 1074 (by omega) hcoarse size hread

/-- The shortest decimal has no places after the point exactly if the magnitude is whole. -/
lemma exponent_nonneg_iff (m : Double.Magnitude) : 0 ≤ (shortest m).exponent ↔ m.IsWhole := by
  by_cases hzero : m.rank = 0
  · have hshortest : shortest m = ⟨0, 0⟩ := if_pos hzero
    rw [hshortest]
    exact iff_of_true le_rfl (isWhole_of_rank_eq_zero hzero)
  · obtain ⟨k, n, heq, hfirst⟩ := exists_isFirst hzero
    rw [heq]
    show 0 ≤ (n : ℤ) - 1074 ↔ m.IsWhole
    constructor
    · intro hexp
      obtain ⟨i, rfl⟩ : ∃ i, n = 1074 + i := Nat.exists_eq_add_of_le (by omega)
      have hread := hfirst.reads
      rw [toRat_onGrid_whole] at hread
      exact Double.Magnitude.isWhole_of_isNearest hread
    · intro hwhole
      have hplace := hfirst.le_of_isWhole hzero hwhole
      omega

end Decimal

end Abacus
