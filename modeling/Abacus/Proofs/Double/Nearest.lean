import Mathlib.Tactic
import Abacus.Double.Basic

/-!
Rounding is to the nearest double.

* `nearest_spec`: a quotient is rounded to a whole number at most a half away, an even one if it is
  a half away.
* `abs_sub_lower_lt_iff`, `abs_sub_upper_lt_iff`, `abs_sub_eq_abs_sub_iff`: which of two points is
  nearer is told by their midpoint.
* `Grid.point_add`, `Grid.point_strictMono`: the magnitudes of a binade and the one after it are
  equally spaced, and magnitudes grow with their ranks.
* `Grid.IsNearest`: the rank of a magnitude nearest to a number of quanta, even in a tie. There is
  exactly one (`Grid.IsNearest.unique`), it changes at the midpoints (`Grid.IsNearest.le_iff`), and
  rounding finds it (`Grid.isNearest_round`). The numbers that a magnitude is nearest to have no
  gaps (`Grid.IsNearest.of_le_of_le`).
* `Double.IsNearest`: the double nearest to a non-negative number, by distance alone; beyond the
  bound where the last finite magnitude ends it is infinity. There is at most one
  (`Double.IsNearest.unique`), rounding finds it (`Double.isNearest_ofQuanta`), and the numbers
  that a finite one is nearest to have no gaps (`Double.IsNearest.of_le_of_le`).
* `Double.eq_infinite_iff_of_isNearest`, `Double.rank_lt_iff_of_isNearest`,
  `Double.eq_zero_iff_of_isNearest`: what is rounded to infinity, to a subnormal number and to zero.
-/

namespace Abacus

/-! ### Whole numbers -/

/-- A quotient is rounded by at most a half, and by a half only to an even number. -/
lemma nearest_spec (num : ℕ) {den : ℕ} (hden : 0 < den) :
    |(num : ℚ) / den - nearest num den| ≤ 1 / 2
    ∧ (|(num : ℚ) / den - nearest num den| = 1 / 2 → Even (nearest num den)) := by
  have hpos : (0 : ℚ) < den := by exact_mod_cast hden
  have hquot : (num : ℚ) / den = (num / den : ℕ) + (num % den : ℕ) / den := by
    have hsplit : (num : ℚ) = den * (num / den : ℕ) + (num % den : ℕ) := by
      exact_mod_cast (Nat.div_add_mod num den).symm
    rw [div_eq_iff hpos.ne', add_mul, div_mul_cancel₀ _ hpos.ne']
    linarith
  have hrem : (0 : ℚ) ≤ (num % den : ℕ) / den := by positivity
  have hrem1 : ((num % den : ℕ) : ℚ) / den < 1 := by
    rw [div_lt_one hpos]
    exact_mod_cast Nat.mod_lt num hden
  have hhalf : ∀ r : ℕ, ((r : ℚ) / den < 1 / 2 ↔ 2 * r < den)
      ∧ (1 / 2 < (r : ℚ) / den ↔ den < 2 * r) := by
    intro r
    rw [div_lt_div_iff₀ hpos two_pos, div_lt_div_iff₀ two_pos hpos, one_mul, mul_comm (r : ℚ)]
    exact ⟨by exact_mod_cast Iff.rfl, by exact_mod_cast Iff.rfl⟩
  obtain ⟨hlow, hhigh⟩ := hhalf (num % den)
  rw [hquot]
  unfold nearest
  dsimp only
  split_ifs with h1 h2
  · -- the remainder is less than a half
    rw [add_sub_cancel_left, abs_of_nonneg hrem]
    have := hlow.mpr h1
    exact ⟨this.le, fun h => absurd h this.ne⟩
  · have := hhigh.mpr h2
    push_cast
    rw [show ∀ a b : ℚ, a + b - (a + 1) = -(1 - b) from fun a b => by ring, abs_neg,
      abs_of_pos (by linarith)]
    exact ⟨by linarith, fun h => absurd h (by linarith)⟩
  · -- a tie goes to the even neighbour
    have heq : ((num % den : ℕ) : ℚ) / den = 1 / 2 :=
      le_antisymm (not_lt.mp fun h => h2 (hhigh.mp h)) (not_lt.mp fun h => h1 (hlow.mp h))
    rw [heq]
    rcases Nat.mod_two_eq_zero_or_one (num / den) with h | h
    · rw [h, Nat.add_zero, add_sub_cancel_left, abs_of_pos (by norm_num)]
      exact ⟨le_rfl, fun _ => Nat.even_iff.mpr h⟩
    · rw [h]
      push_cast
      rw [show ∀ a : ℚ, a + 1 / 2 - (a + 1) = -(1 / 2) from fun a => by ring, abs_neg,
        abs_of_pos (by norm_num)]
      exact ⟨le_rfl, fun _ => by rw [Nat.even_iff]; omega⟩

/-- A whole number at most a half away is nearest, and there is another as near only at a half. -/
lemma nearest_le_abs_sub (num : ℕ) {den : ℕ} (hden : 0 < den) (j : ℕ) :
    |(num : ℚ) / den - nearest num den| ≤ |(num : ℚ) / den - j|
    ∧ (j ≠ nearest num den → |(num : ℚ) / den - nearest num den| = |(num : ℚ) / den - j| →
        Even (nearest num den)) := by
  obtain ⟨hhalf, heven⟩ := nearest_spec num hden
  by_cases hj : j = nearest num den
  · rw [hj]
    exact ⟨le_rfl, fun h => absurd rfl h⟩
  · -- two different whole numbers are at least one apart
    have hone : (1 : ℚ) ≤ |(j : ℚ) - nearest num den| := by
      have hne : (j : ℤ) - nearest num den ≠ 0 := by omega
      exact_mod_cast Int.one_le_abs hne
    have htri := abs_sub_le (j : ℚ) ((num : ℚ) / den) (nearest num den)
    rw [abs_sub_comm (j : ℚ) ((num : ℚ) / den)] at htri
    exact ⟨by linarith, fun _ h => heven (by linarith)⟩

/-! ### Distances -/

section

variable {q a b : ℚ} (h : a < b)
include h

/-- A number is nearer to the lower of two points exactly below their midpoint. -/
lemma abs_sub_lower_lt_iff : |q - a| < |q - b| ↔ 2 * q < a + b := by
  have hdiff : (q - b) ^ 2 - (q - a) ^ 2 = (b - a) * (a + b - 2 * q) := by ring
  rw [← sq_lt_sq, ← sub_pos, hdiff, mul_pos_iff_of_pos_left (sub_pos.mpr h), sub_pos]

/-- A number is nearer to the upper of two points exactly above their midpoint. -/
lemma abs_sub_upper_lt_iff : |q - b| < |q - a| ↔ a + b < 2 * q := by
  have hdiff : (q - a) ^ 2 - (q - b) ^ 2 = (b - a) * (2 * q - (a + b)) := by ring
  rw [← sq_lt_sq, ← sub_pos, hdiff, mul_pos_iff_of_pos_left (sub_pos.mpr h), sub_pos]

/-- A number is equally near to two points exactly at their midpoint. -/
lemma abs_sub_eq_abs_sub_iff : |q - a| = |q - b| ↔ 2 * q = a + b := by
  rw [eq_iff_le_not_lt, eq_iff_le_not_lt, ← not_lt, abs_sub_upper_lt_iff h,
    abs_sub_lower_lt_iff h, not_lt]

end

namespace Grid

variable {bits : ℕ}

/-! ### The magnitudes of the grid -/

lemma cast_step {R : Type*} [Semiring R] (k : ℕ) : (step k : R) = 2 ^ k := by
  show ((2 ^ k : ℕ) : R) = 2 ^ k
  push_cast
  rfl

lemma step_succ (k : ℕ) : step (k + 1) = 2 * step k := pow_succ' 2 k

lemma step_add (j k : ℕ) : step (j + k) = step j * step k := pow_add 2 j k

/-- From a binade's first magnitude, and in the first binade from zero, to the first magnitude of
the next binade the magnitudes are the multiples of the step. -/
lemma point_add {k n : ℕ} (hk : k = 0 ∨ binade bits ≤ n) (hn : n ≤ 2 * binade bits) :
    point bits (k * binade bits + n) = n * step k := by
  have hpos := binade_pos bits
  by_cases hlow : n < binade bits
  · obtain rfl : k = 0 := hk.resolve_right (not_le.mpr hlow)
    rw [Nat.zero_mul, Nat.zero_add, point, if_pos hlow]
    exact (Nat.mul_one n).symm
  · obtain ⟨f, rfl⟩ := Nat.exists_eq_add_of_le (not_lt.mp hlow)
    have hrank : k * binade bits + (binade bits + f) = f + (k + 1) * binade bits := by ring
    have hge : ¬f + (k + 1) * binade bits < binade bits := by
      have := Nat.le_mul_of_pos_left (binade bits) (Nat.succ_pos k)
      omega
    rw [hrank, point, if_neg hge, Nat.add_mul_mod_self_right, Nat.add_mul_div_right _ _ hpos]
    rcases Nat.lt_or_ge f (binade bits) with hf | hf
    · rw [Nat.mod_eq_of_lt hf, Nat.div_eq_of_lt hf, Nat.zero_add, Nat.add_sub_cancel]
    · -- the first magnitude of the next binade
      obtain rfl : f = binade bits := by omega
      rw [Nat.mod_self, Nat.div_self hpos, Nat.add_zero, Nat.add_sub_cancel_left, step_succ]
      ring

/-- Every rank belongs to a binade, or to the first two. -/
lemma exists_eq_add (bits rank : ℕ) :
    ∃ k n, rank = k * binade bits + n ∧ (k = 0 ∨ binade bits ≤ n) ∧ n < 2 * binade bits := by
  have hpos := binade_pos bits
  rcases Nat.lt_or_ge rank (binade bits) with h | h
  · exact ⟨0, rank, by omega, Or.inl rfl, by omega⟩
  · refine ⟨rank / binade bits - 1, binade bits + rank % binade bits, ?_,
      Or.inr (Nat.le_add_right _ _), ?_⟩
    · obtain ⟨k, hk⟩ : ∃ k, rank / binade bits = k + 1 :=
        ⟨rank / binade bits - 1, by have := Nat.div_pos h hpos; omega⟩
      have hdiv := Nat.div_add_mod' rank (binade bits)
      rw [hk] at hdiv ⊢
      rw [Nat.add_sub_cancel]
      linarith
    · have := Nat.mod_lt rank hpos
      omega

/-- Magnitudes grow with their ranks. -/
lemma point_strictMono : StrictMono (point bits) := by
  refine strictMono_nat_of_lt_succ fun rank => ?_
  obtain ⟨k, n, rfl, hk, hn⟩ := exists_eq_add bits rank
  rw [Nat.add_assoc, point_add hk hn.le, point_add (by omega) (by omega)]
  exact Nat.mul_lt_mul_of_pos_right (Nat.lt_succ_self n) (step_pos k)

/-- The distance from one magnitude to the next never decreases. -/
lemma two_mul_point_le (bits rank : ℕ) :
    2 * point bits (rank + 1) ≤ point bits rank + point bits (rank + 2) := by
  obtain ⟨k, n, rfl, hk, hn⟩ := exists_eq_add bits rank
  rw [Nat.add_assoc, Nat.add_assoc, point_add hk hn.le, point_add (by omega) (by omega)]
  by_cases hlast : n + 2 ≤ 2 * binade bits
  · rw [point_add (by omega) hlast]
    linarith
  · -- the last step of a binade is followed by one of twice its length
    have hpos := binade_pos bits
    have hnext : k * binade bits + (n + 2) = (k + 1) * binade bits + (binade bits + 1) := by
      rw [Nat.succ_mul]
      omega
    obtain hn' : n + 1 = 2 * binade bits := by omega
    rw [hnext, point_add (by omega) (by omega), step_succ, hn']
    nlinarith [step_pos k]

/-! ### The nearest magnitude of the grid -/

/-- The rank of a magnitude nearest to `q` quanta; if another is as near, the rank is even. -/
structure IsNearest (bits : ℕ) (q : ℚ) (rank : ℕ) : Prop where
  le : ∀ r, |q - point bits rank| ≤ |q - point bits r|
  even : ∀ r, r ≠ rank → |q - point bits rank| = |q - point bits r| → Even rank

/-- If two magnitudes are equally near and none is nearer, there is none between them. -/
lemma eq_succ_of_abs_sub_eq {q : ℚ} {r r' : ℕ} (hlt : r < r')
    (heq : |q - point bits r| = |q - point bits r'|)
    (hle : ∀ i, |q - point bits r| ≤ |q - point bits i|) : r' = r + 1 := by
  by_contra hne
  have h1 : (point bits r : ℚ) < point bits (r + 1) := by
    exact_mod_cast point_strictMono (Nat.lt_succ_self r)
  have h2 : (point bits (r + 1) : ℚ) < point bits r' := by
    exact_mod_cast point_strictMono (by omega : r + 1 < r')
  -- the number lies midway between the two, nearer to what lies between them
  have hmid : 2 * q = point bits r + point bits r' := (abs_sub_eq_abs_sub_iff (h1.trans h2)).mp heq
  have hnear : |q - point bits (r + 1)| < |q - point bits r| := by
    rw [abs_sub_upper_lt_iff h1]
    linarith
  exact absurd (hle (r + 1)) (not_le.mpr hnear)

/-- A number lies at or above the midpoint of the nearest magnitude and any lower one. -/
lemma IsNearest.midpoint_le {q : ℚ} {r rank : ℕ} (h : IsNearest bits q rank) (hr : r < rank) :
    point bits r + point bits rank ≤ 2 * q := by
  have hgap : (point bits r : ℚ) < point bits rank := by exact_mod_cast point_strictMono hr
  have hle := h.le r
  rwa [← not_lt, abs_sub_lower_lt_iff hgap, not_lt] at hle

/-- A number lies at or below the midpoint of the nearest magnitude and any higher one. -/
lemma IsNearest.le_midpoint {q : ℚ} {r rank : ℕ} (h : IsNearest bits q rank) (hr : rank < r) :
    2 * q ≤ point bits rank + point bits r := by
  have hgap : (point bits rank : ℚ) < point bits r := by exact_mod_cast point_strictMono hr
  have hle := h.le r
  rwa [← not_lt, abs_sub_upper_lt_iff hgap, not_lt] at hle

/-- Between two numbers with the same nearest rank, every number has this nearest rank. -/
lemma IsNearest.of_le_of_le {q₁ q q₂ : ℚ} {rank : ℕ} (h₁ : IsNearest bits q₁ rank)
    (h₂ : IsNearest bits q₂ rank) (hle₁ : q₁ ≤ q) (hle₂ : q ≤ q₂) : IsNearest bits q rank := by
  have hmono : ∀ {i j : ℕ}, i < j → (point bits i : ℚ) < point bits j := fun hij => by
    exact_mod_cast point_strictMono hij
  constructor
  · intro r
    rcases lt_trichotomy r rank with hr | rfl | hr
    · have hmid := h₁.midpoint_le hr
      rw [← not_lt, abs_sub_lower_lt_iff (hmono hr), not_lt]
      linarith
    · exact le_rfl
    · have hmid := h₂.le_midpoint hr
      rw [← not_lt, abs_sub_upper_lt_iff (hmono hr), not_lt]
      linarith
  · -- a tie leaves no room between the number and the end on its side
    intro r hne heq
    rcases lt_or_gt_of_ne hne with hr | hr
    · have hmid := (abs_sub_eq_abs_sub_iff (hmono hr)).mp heq.symm
      obtain rfl : q₁ = q := by linarith [h₁.midpoint_le hr]
      exact h₁.even r hne heq
    · have hmid := (abs_sub_eq_abs_sub_iff (hmono hr)).mp heq
      obtain rfl : q₂ = q := by linarith [h₂.le_midpoint hr]
      exact h₂.even r hne heq

/-- There is only one nearest rank. -/
lemma IsNearest.unique {q : ℚ} {r r' : ℕ} (h : IsNearest bits q r) (h' : IsNearest bits q r') :
    r = r' := by
  have heq : |q - point bits r| = |q - point bits r'| := le_antisymm (h.le r') (h'.le r)
  by_contra hne
  have heven := h.even r' (Ne.symm hne) heq
  have heven' := h'.even r hne heq.symm
  rcases Nat.lt_or_gt_of_ne hne with hlt | hlt
  · rw [eq_succ_of_abs_sub_eq hlt heq h.le, Nat.even_add_one] at heven'
    exact heven' heven
  · rw [eq_succ_of_abs_sub_eq hlt heq.symm h'.le, Nat.even_add_one] at heven
    exact heven heven'

/-- The binade that a number of quanta falls into. -/
lemma shift_bounds (bits q : ℕ) :
    (shift bits q = 0 ∨ binade bits * step (shift bits q) ≤ q)
    ∧ q < 2 * binade bits * step (shift bits q) := by
  have hpow : ∀ k, binade bits * step k = 2 ^ (bits + k) := fun k => (pow_add 2 bits k).symm
  rw [mul_assoc, hpow, ← pow_succ']
  by_cases hq : q = 0
  · subst hq
    exact ⟨Or.inl (by simp [shift]), Nat.two_pow_pos _⟩
  · have hlog : q < 2 ^ (q.log2 + 1) := Nat.lt_log2_self
    by_cases hk : q.log2 ≤ bits
    · have hzero : shift bits q = 0 := Nat.sub_eq_zero_of_le hk
      rw [hzero]
      exact ⟨Or.inl rfl, hlog.trans_le (Nat.pow_le_pow_right two_pos (by omega))⟩
    · have hexp : bits + shift bits q = q.log2 := by
        rw [shift]
        omega
      rw [hexp]
      exact ⟨Or.inr (Nat.log2_self_le hq), hlog⟩

/-- Beyond a point on one side of a number, everything is farther away than the point. -/
lemma abs_sub_lt_of_lt {q a b : ℚ} (h : q ≤ a ∧ a < b ∨ b < a ∧ a ≤ q) : |q - a| < |q - b| := by
  rcases h with ⟨h1, h2⟩ | ⟨h1, h2⟩
  · rw [abs_sub_lower_lt_iff h2]
    linarith
  · rw [abs_sub_upper_lt_iff h1]
    linarith

/-- A number is rounded to at most a given rank if it lies below the midpoint of that magnitude and
the next, or at the midpoint if the rank is even. -/
lemma IsNearest.le_iff {q : ℚ} {rank : ℕ} (h : IsNearest bits q rank) (r : ℕ) :
    rank ≤ r ↔ 2 * q < point bits r + point bits (r + 1)
      ∨ 2 * q = point bits r + point bits (r + 1) ∧ Even r := by
  have hgap : (point bits r : ℚ) < point bits (r + 1) := by
    exact_mod_cast point_strictMono (Nat.lt_succ_self r)
  have hmono : ∀ {i j : ℕ}, i ≤ j → (point bits i : ℚ) ≤ point bits j := fun hij => by
    exact_mod_cast point_strictMono.monotone hij
  have hinj : ∀ {i j : ℕ}, (point bits i : ℚ) = point bits j → i = j := fun hij =>
    point_strictMono.injective (by exact_mod_cast hij)
  constructor
  · intro hle
    have hbelow := hmono hle
    have hnext := h.le (r + 1)
    rw [← not_lt, abs_sub_upper_lt_iff (hbelow.trans_lt hgap), not_lt] at hnext
    have hmid : 2 * q ≤ point bits r + point bits (r + 1) := by linarith
    rcases hmid.lt_or_eq with hlt | heq
    · exact Or.inl hlt
    · -- at the midpoint only this rank is left, and the next one is as near
      obtain rfl : rank = r := hinj (by linarith)
      exact Or.inr ⟨heq, h.even (rank + 1) (by omega) ((abs_sub_eq_abs_sub_iff hgap).mpr heq)⟩
  · intro hmid
    by_contra hlt
    have habove := hmono (not_le.mp hlt)
    have hprev := h.le r
    rw [← not_lt, abs_sub_lower_lt_iff (hgap.trans_le habove), not_lt] at hprev
    rcases hmid with hmid | ⟨hmid, heven⟩
    · linarith
    · obtain rfl : rank = r + 1 := hinj (by linarith)
      have htie := h.even r (by omega) ((abs_sub_eq_abs_sub_iff hgap).mpr hmid).symm
      exact Nat.even_add_one.mp htie heven

section

variable {q : ℚ} {k n : ℕ}

/-- If a multiple of the step is nearest among all multiples of the step, and the number lies in
the binade with this step, then its magnitude is nearest on the grid. -/
lemma isNearest_of_multiple (hbits : 1 ≤ bits)
    (hlow : k = 0 ∨ (binade bits * step k : ℕ) ≤ q) (hhigh : q < (2 * binade bits * step k : ℕ))
    (hn : ∀ j : ℕ, |q - (n * step k : ℕ)| ≤ |q - (j * step k : ℕ)|
      ∧ (j ≠ n → |q - (n * step k : ℕ)| = |q - (j * step k : ℕ)| → Even n)) :
    IsNearest bits q (k * binade bits + n) := by
  have hstep : (0 : ℚ) < step k := by exact_mod_cast step_pos k
  have htop : n ≤ 2 * binade bits := by
    by_contra hgt
    refine absurd (hn (2 * binade bits)).1 (not_le.mpr (abs_sub_lt_of_lt (Or.inl ⟨hhigh.le, ?_⟩)))
    exact_mod_cast Nat.mul_lt_mul_of_pos_right (not_le.mp hgt) (step_pos k)
  have hbottom : k = 0 ∨ binade bits ≤ n := by
    rcases hlow with hk | hlow
    · exact Or.inl hk
    · refine Or.inr (not_lt.mp fun hlt => ?_)
      refine absurd (hn (binade bits)).1
        (not_le.mpr (abs_sub_lt_of_lt (Or.inr ⟨?_, hlow⟩)))
      exact_mod_cast Nat.mul_lt_mul_of_pos_right hlt (step_pos k)
  have hpoint := point_add hbottom htop
  -- outside the multiples of the step every magnitude is farther away
  have hcompare : ∀ r, (∃ j, r = k * binade bits + j ∧ point bits r = j * step k)
      ∨ |q - point bits (k * binade bits + n)| < |q - point bits r| := by
    intro r
    by_cases habove : k * binade bits + 2 * binade bits < r
    · refine Or.inr (lt_of_le_of_lt ?_ (abs_sub_lt_of_lt (a := (2 * binade bits * step k : ℕ))
        (Or.inl ⟨hhigh.le, ?_⟩)))
      · rw [hpoint]
        exact (hn _).1
      · rw [← point_add (k := k) (Or.inr (by omega)) le_rfl]
        exact_mod_cast point_strictMono habove
    · by_cases hbelow : k = 0 ∨ k * binade bits + binade bits ≤ r
      · have hk : k * binade bits ≤ r := by
          rcases hbelow with rfl | h <;> omega
        obtain ⟨j, rfl⟩ := Nat.exists_eq_add_of_le hk
        exact Or.inl ⟨j, rfl, point_add (by omega) (by omega)⟩
      · rw [not_or, not_le] at hbelow
        have hlow' := hlow.resolve_left hbelow.1
        refine Or.inr (lt_of_le_of_lt ?_ (abs_sub_lt_of_lt (a := (binade bits * step k : ℕ))
          (Or.inr ⟨?_, hlow'⟩)))
        · rw [hpoint]
          exact (hn _).1
        · rw [← point_add (k := k) (Or.inr le_rfl) (by omega)]
          exact_mod_cast point_strictMono hbelow.2
  constructor
  · intro r
    rcases hcompare r with ⟨j, -, hj⟩ | hlt
    · rw [hpoint, hj]
      exact (hn j).1
    · exact hlt.le
  · intro r hr heq
    rcases hcompare r with ⟨j, rfl, hj⟩ | hlt
    · rw [hpoint, hj] at heq
      have heven : Even n := (hn j).2 (by omega) heq
      have hbinade : Even (binade bits) := (even_two.pow_of_ne_zero (by omega))
      exact (hbinade.mul_left k).add heven
    · exact absurd heq hlt.ne

end

/-- Distances to multiples of a step are multiples of distances to whole numbers. -/
lemma abs_sub_mul {num den step : ℕ} (hstep : 0 < step) (j : ℕ) :
    |(num : ℚ) / den - (j * step : ℕ)| = step * |(num : ℚ) / (den * step : ℕ) - j| := by
  have hpos : (0 : ℚ) < step := by exact_mod_cast hstep
  rw [← abs_of_pos hpos, ← abs_mul]
  congr 1
  push_cast
  rw [mul_sub, ← div_div, mul_div_cancel₀ _ hpos.ne', mul_comm (j : ℚ)]

/-- Rounding finds the nearest rank. -/
theorem isNearest_round (hbits : 1 ≤ bits) (num : ℕ) {den : ℕ} (hden : 0 < den) :
    IsNearest bits ((num : ℚ) / den) (round bits num den) := by
  obtain ⟨hlow, hhigh⟩ := shift_bounds bits (num / den)
  have hstep := step_pos (shift bits (num / den))
  refine isNearest_of_multiple hbits ?_ ?_ fun j => ?_
  · rcases hlow with h | h
    · exact Or.inl h
    · exact Or.inr (le_trans (by exact_mod_cast h) Nat.cast_div_le)
  · calc (num : ℚ) / den < (num / den : ℕ) + 1 := by
          rw [div_lt_iff₀ (by exact_mod_cast hden)]
          exact_mod_cast Nat.lt_mul_of_div_lt (Nat.lt_succ_self (num / den)) hden
      _ ≤ (2 * binade bits * step (shift bits (num / den)) : ℕ) := by exact_mod_cast hhigh
  · rw [abs_sub_mul hstep, abs_sub_mul hstep]
    obtain ⟨hle, heven⟩ := nearest_le_abs_sub num (Nat.mul_pos hden hstep) j
    have hpos : (0 : ℚ) < step (shift bits (num / den)) := by exact_mod_cast hstep
    exact ⟨mul_le_mul_of_nonneg_left hle hpos.le,
      fun hj heq => heven hj (mul_left_cancel₀ hpos.ne' heq)⟩

end Grid

namespace Double

/-! ### The nearest double -/

/-- The size of a finite magnitude. -/
def Magnitude.toRat (m : Magnitude) : ℚ := m.units / 2 ^ 1074

lemma Magnitude.eq_of_rank_eq {m m' : Magnitude} (h : m.rank = m'.rank) : m = m' := by
  cases m
  cases m'
  cases h
  rfl

/-- Half a step beyond the last finite magnitude. -/
def overflowBound : ℚ := 2 ^ 1024 - 2 ^ 970

/-- The double nearest to a non-negative number. It has no minus sign. Below the bound it is a
finite double at the least distance, with an even rank if another one is as near; from the bound on
it is infinite. -/
def IsNearest (q : ℚ) : Double → Prop
  | nan => False
  | infinite negative => negative = false ∧ overflowBound ≤ q
  | finite negative m =>
    negative = false ∧ q < overflowBound ∧ (∀ m' : Magnitude, |q - m.toRat| ≤ |q - m'.toRat|)
      ∧ ∀ m' : Magnitude, m' ≠ m → |q - m.toRat| = |q - m'.toRat| → Even m.rank

lemma quantaInOne_eq : quantaInOne = Grid.step 1074 := by decide +kernel

lemma cast_quantaInOne : (quantaInOne : ℚ) = 2 ^ 1074 := by
  rw [quantaInOne_eq, Grid.cast_step]

/-- Distances in quanta. -/
lemma abs_sub_toRat (q : ℚ) (m : Magnitude) :
    |q * 2 ^ 1074 - Grid.point 52 m.rank| = |q - m.toRat| * 2 ^ 1074 := by
  have hpos : (0 : ℚ) < 2 ^ 1074 := by positivity
  rw [← abs_of_pos hpos, ← abs_mul, abs_of_pos hpos, sub_mul, Magnitude.toRat,
    div_mul_cancel₀ _ hpos.ne', Magnitude.units]

/-- The bound is the midpoint of the last finite magnitude and the one that would follow it. -/
lemma point_last_add_point_limit :
    (Grid.point 52 (limit - 1) + Grid.point 52 limit : ℚ) = 2 * (overflowBound * 2 ^ 1074) := by
  have hbinade : Grid.binade 52 = 4503599627370496 := by decide
  have hstep : ((Grid.step 2045 : ℕ) : ℚ) = 2 * 2 ^ 2044 := by
    rw [Grid.cast_step, ← pow_succ']
  have hbound : overflowBound * 2 ^ 1074 = (2 ^ 54 - 1) * 2 ^ 2044 := by
    rw [overflowBound, sub_mul, sub_mul, ← pow_add, ← pow_add, ← pow_add, one_mul]
  have hlimit : limit = 2045 * Grid.binade 52 + 2 * Grid.binade 52 := by
    rw [limit]
    omega
  rw [hbound, hlimit, Grid.point_add (Or.inr (by omega)) le_rfl, Nat.add_sub_assoc (by omega),
    Grid.point_add (Or.inr (by omega)) (by omega), hbinade]
  push_cast
  rw [hstep]
  generalize (2 : ℚ) ^ 2044 = half
  ring

/-- Below the bound the last finite magnitude is nearer than all that would follow it. -/
lemma abs_sub_last_lt {q : ℚ} (hq : q < overflowBound * 2 ^ 1074) {r : ℕ} (hr : limit ≤ r) :
    |q - Grid.point 52 (limit - 1)| < |q - Grid.point 52 r| := by
  have hmid := point_last_add_point_limit
  have hlast : (Grid.point 52 (limit - 1) : ℚ) < Grid.point 52 limit := by
    exact_mod_cast Grid.point_strictMono (by decide : limit - 1 < limit)
  have hle : (Grid.point 52 limit : ℚ) ≤ Grid.point 52 r := by
    exact_mod_cast Grid.point_strictMono.monotone hr
  rw [abs_sub_lower_lt_iff (hlast.trans_le hle)]
  generalize overflowBound * 2 ^ 1074 = bound at *
  linarith

lemma odd_last : ¬Even (limit - 1) := by decide

/-- The nearest rank is that of a finite magnitude exactly below the bound. -/
lemma lt_limit_iff {q : ℚ} {rank : ℕ} (h : Grid.IsNearest 52 (q * 2 ^ 1074) rank) :
    rank < limit ↔ q < overflowBound := by
  have hpos : (0 : ℚ) < 2 ^ 1074 := by positivity
  have hsucc : limit - 1 + 1 = limit := by decide
  have hle := h.le_iff (limit - 1)
  rw [hsucc, point_last_add_point_limit] at hle
  rw [← hsucc, Nat.lt_succ_iff, hle, mul_lt_mul_iff_right₀ two_pos, mul_lt_mul_iff_left₀ hpos]
  exact or_iff_left fun htie => odd_last htie.2

/-- Among finite doubles below the bound, to be nearest is to be nearest on the grid. -/
lemma isNearest_finite_iff {q : ℚ} {m : Magnitude} :
    IsNearest q (.finite false m) ↔ Grid.IsNearest 52 (q * 2 ^ 1074) m.rank := by
  have hpos : (0 : ℚ) < 2 ^ 1074 := by positivity
  constructor
  · rintro ⟨-, hbelow, hle, heven⟩
    have hbelow' : q * 2 ^ 1074 < overflowBound * 2 ^ 1074 :=
      mul_lt_mul_of_pos_right hbelow hpos
    have hlast : |q * 2 ^ 1074 - Grid.point 52 m.rank|
        ≤ |q * 2 ^ 1074 - Grid.point 52 (limit - 1)| := by
      have h := hle ⟨limit - 1, by decide⟩
      rw [abs_sub_toRat q m, abs_sub_toRat q ⟨limit - 1, by decide⟩]
      exact mul_le_mul_of_nonneg_right h hpos.le
    constructor
    · intro r
      by_cases hr : r < limit
      · rw [abs_sub_toRat q m, abs_sub_toRat q ⟨r, hr⟩]
        exact mul_le_mul_of_nonneg_right (hle ⟨r, hr⟩) hpos.le
      · exact hlast.trans (abs_sub_last_lt hbelow' (not_lt.mp hr)).le
    · intro r hne heq
      by_cases hr : r < limit
      · rw [abs_sub_toRat q m, abs_sub_toRat q ⟨r, hr⟩] at heq
        exact heven ⟨r, hr⟩ (fun h => hne (congrArg Magnitude.rank h))
          (mul_right_cancel₀ hpos.ne' heq)
      · exact absurd heq (hlast.trans_lt (abs_sub_last_lt hbelow' (not_lt.mp hr))).ne
  · intro h
    refine ⟨rfl, ?_, fun m' => ?_, fun m' hne heq => ?_⟩
    · exact (lt_limit_iff h).mp m.rank_lt
    · have hle := h.le m'.rank
      rw [abs_sub_toRat, abs_sub_toRat] at hle
      exact le_of_mul_le_mul_right hle hpos
    · exact h.even m'.rank (fun hr => hne (Magnitude.eq_of_rank_eq hr))
        (by rw [abs_sub_toRat, abs_sub_toRat, heq])

/-- Between two numbers that are rounded to the same finite double, every number is. -/
lemma IsNearest.of_le_of_le {q₁ q q₂ : ℚ} {m : Magnitude} (h₁ : IsNearest q₁ (.finite false m))
    (h₂ : IsNearest q₂ (.finite false m)) (hle₁ : q₁ ≤ q) (hle₂ : q ≤ q₂) :
    IsNearest q (.finite false m) := by
  have hpos : (0 : ℚ) < 2 ^ 1074 := by positivity
  rw [isNearest_finite_iff] at h₁ h₂ ⊢
  exact h₁.of_le_of_le h₂ (mul_le_mul_of_nonneg_right hle₁ hpos.le)
    (mul_le_mul_of_nonneg_right hle₂ hpos.le)

/-- No number has two nearest doubles. -/
theorem IsNearest.unique {q : ℚ} {x y : Double} (hx : IsNearest q x) (hy : IsNearest q y) :
    x = y := by
  rcases x with _ | s | ⟨s, m⟩ <;> rcases y with _ | t | ⟨t, m'⟩
  · exact hx.elim
  · exact hx.elim
  · exact hx.elim
  · exact hy.elim
  · rw [hx.1, hy.1]
  · exact absurd hx.2 (not_le.mpr hy.2.1)
  · exact hy.elim
  · exact absurd hy.2 (not_le.mpr hx.2.1)
  · obtain rfl := hx.1
    obtain rfl := hy.1
    have hrank := (isNearest_finite_iff.mp hx).unique (isNearest_finite_iff.mp hy)
    rw [Magnitude.eq_of_rank_eq hrank]

/-- Rounding finds the nearest double. -/
theorem isNearest_ofQuanta (num : ℕ) {den : ℕ} (hden : 0 < den) :
    IsNearest ((num : ℚ) / den / 2 ^ 1074) (ofQuanta false num den) := by
  have hpos : (0 : ℚ) < 2 ^ 1074 := by positivity
  have hround := @Grid.isNearest_round 52 (by decide) num den hden
  rw [ofQuanta]
  split
  · rw [isNearest_finite_iff, div_mul_cancel₀ _ hpos.ne']
    exact hround
  · next hrank =>
      refine ⟨rfl, not_lt.mp fun hlt => hrank ((lt_limit_iff ?_).mpr hlt)⟩
      rw [div_mul_cancel₀ _ hpos.ne']
      exact hround

/-- A finite magnitude is nearest to itself. -/
lemma isNearest_toRat (m : Magnitude) : IsNearest m.toRat (.finite false m) := by
  have h := isNearest_ofQuanta m.units Nat.one_pos
  rwa [ofQuanta_units, Nat.cast_one, div_one] at h

/-- A whole number is rounded once to the nearest double. -/
lemma isNearest_ofInt (n : ℕ) : IsNearest n (ofInt n) := by
  have hpos : (0 : ℚ) < 2 ^ 1074 := by positivity
  have hround := isNearest_ofQuanta (n * quantaInOne) Nat.one_pos
  have hsign : decide ((n : ℤ) < 0) = false := by simp
  rw [ofInt, hsign, Int.natAbs_natCast]
  push_cast at hround
  rwa [div_one, cast_quantaInOne, mul_div_cancel_right₀ _ hpos.ne'] at hround

/-! ### Overflow and underflow -/

lemma point_zero : Grid.point 52 0 = 0 := by decide

lemma point_one : Grid.point 52 1 = 1 := by decide

/-- A non-negative number is nearest to zero exactly if it is at most half a quantum. -/
lemma isNearest_zero_iff {q : ℚ} (hq : 0 ≤ q) : IsNearest q .zero ↔ q * 2 ^ 1074 ≤ 1 / 2 := by
  have hq' : 0 ≤ q * 2 ^ 1074 := by positivity
  rw [zero, isNearest_finite_iff]
  generalize q * 2 ^ 1074 = x at hq'
  have hzero : |x - Grid.point 52 Magnitude.zero.rank| = x := by
    rw [Magnitude.zero, point_zero, Nat.cast_zero, sub_zero, abs_of_nonneg hq']
  constructor
  · intro h
    have hmid := (h.le_iff 0).mp (Nat.zero_le 0)
    rw [point_zero, point_one, Nat.cast_zero, Nat.cast_one] at hmid
    rcases hmid with hmid | ⟨hmid, -⟩ <;> linarith
  · intro hx
    refine ⟨fun r => ?_, fun _ _ _ => Even.zero⟩
    rw [hzero]
    rcases Nat.eq_zero_or_pos r with rfl | hr
    · rw [point_zero, Nat.cast_zero, sub_zero, abs_of_nonneg hq']
    · have hpoint : (1 : ℚ) ≤ Grid.point 52 r := by
        rw [← Nat.cast_one, ← point_one]
        exact_mod_cast Grid.point_strictMono.monotone hr
      rw [abs_sub_comm, abs_of_nonneg (by linarith)]
      linarith

/-- Zero is the nearest double up to half a quantum, and only up to it. -/
lemma eq_zero_iff_of_isNearest {q : ℚ} {x : Double} (hq : 0 ≤ q) (h : IsNearest q x) :
    x = .zero ↔ q * 2 ^ 1074 ≤ 1 / 2 := by
  rw [← isNearest_zero_iff hq]
  exact ⟨fun hx => hx ▸ h, fun hzero => h.unique hzero⟩

/-- Below the bound, and only there, the nearest double is finite. -/
lemma eq_infinite_iff_of_isNearest {q : ℚ} {x : Double} (h : IsNearest q x) :
    x = .infinite false ↔ overflowBound ≤ q := by
  rcases x with _ | s | ⟨s, m⟩
  · exact h.elim
  · rw [h.1]
    exact iff_of_true rfl h.2
  · exact iff_of_false (fun hx => by cases hx) (not_le.mpr h.2.1)

/-- The bound is above the least normal magnitude. -/
lemma two_pow_le_overflowBound : (2 : ℚ) ^ 52 ≤ overflowBound * 2 ^ 1074 := by
  have hfirst : Grid.point 52 (2 ^ 52) = 2 ^ 52 := by decide
  have hlast : Grid.point 52 (2 ^ 52) ≤ Grid.point 52 (limit - 1) :=
    Grid.point_strictMono.monotone (by decide)
  have hlimit : Grid.point 52 (2 ^ 52) ≤ Grid.point 52 limit :=
    Grid.point_strictMono.monotone (by decide)
  have hmid := point_last_add_point_limit
  rw [hfirst, ← Nat.cast_le (α := ℚ)] at hlast hlimit
  push_cast at hlast hlimit
  generalize overflowBound * 2 ^ 1074 = bound at *
  linarith

/-- Half a quantum below the least normal magnitude, and only there, the nearest double is
subnormal or zero. -/
lemma rank_lt_iff_of_isNearest {q : ℚ} {x : Double} (h : IsNearest q x) :
    (∃ m, x = .finite false m ∧ m.rank < Grid.binade 52) ↔ q * 2 ^ 1074 < 2 ^ 52 - 1 / 2 := by
  have hpred : Grid.point 52 (2 ^ 52 - 1) = 2 ^ 52 - 1 := by decide
  have hfirst : Grid.point 52 (2 ^ 52 - 1 + 1) = 2 ^ 52 := by decide
  rcases x with _ | s | ⟨s, m⟩
  · exact h.elim
  · refine iff_of_false (by rintro ⟨m, hm, -⟩; cases hm) (not_lt.mpr ?_)
    have hle := mul_le_mul_of_nonneg_right h.2 (show (0 : ℚ) ≤ 2 ^ 1074 by positivity)
    have hbound := two_pow_le_overflowBound
    generalize q * 2 ^ 1074 = x at *
    generalize overflowBound * 2 ^ 1074 = bound at *
    linarith
  · obtain rfl := h.1
    have hle := (isNearest_finite_iff.mp h).le_iff (2 ^ 52 - 1)
    rw [hpred, hfirst] at hle
    have hrank : (∃ m', finite false m = .finite false m' ∧ m'.rank < Grid.binade 52)
        ↔ m.rank ≤ 2 ^ 52 - 1 :=
      ⟨fun ⟨m', hm, hlt⟩ => by cases hm; exact Nat.le_sub_one_of_lt hlt,
        fun hle => ⟨m, rfl, Nat.lt_of_le_sub_one (by decide) hle⟩⟩
    rw [hrank, hle]
    generalize q * 2 ^ 1074 = x
    push_cast
    constructor
    · rintro (hlt | ⟨-, heven⟩)
      · linarith
      · exact absurd heven (by decide)
    · intro hlt
      exact Or.inl (by linarith)

end Double

end Abacus
