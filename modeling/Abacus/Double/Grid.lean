/-!
The grid of binary floating-point magnitudes.

Listed in increasing order, the finite magnitudes of a binary format start with the whole numbers
of quanta, a quantum being the least positive magnitude. The list is divided into binades of equal
length, `2 ^ bits` magnitudes each for a format with `bits` fraction bits. In the first two binades
the step from a magnitude to the next is one quantum, and from there it doubles from one binade to
the next. A magnitude is named by its place in this list, its rank.

* `Grid.point`: the magnitude of a rank, in quanta.
* `nearest`: a quotient rounded to a whole number, a half going to the even neighbour.
* `Grid.round`: the rank of the magnitude nearest to a quotient of quanta. The quotient is
  rounded once, on the binade it falls into; a carry into the next binade is the next rank. A
  magnitude of the grid is its own rounding (`Grid.round_point`).
-/

namespace Abacus

/-- The whole number nearest to `num / den`; of two equally near ones, the even one. -/
def nearest (num den : Nat) : Nat :=
  let q := num / den
  let r := num % den
  if 2 * r < den then q else if den < 2 * r then q + 1 else q + q % 2

/-- A whole quotient is its own rounding. -/
theorem nearest_mul (q : Nat) {den : Nat} (h : 0 < den) : nearest (q * den) den = q := by
  simp [nearest, Nat.mul_div_cancel q h, h]

namespace Grid

/-- The number of magnitudes in a binade of the grid with `bits` fraction bits. -/
def binade (bits : Nat) : Nat := Nat.pow 2 bits

theorem binade_pos (bits : Nat) : 0 < binade bits := Nat.two_pow_pos bits

/-- The step between magnitudes, in quanta, once it has doubled `k` times. -/
def step (k : Nat) : Nat := Nat.pow 2 k

theorem step_pos (k : Nat) : 0 < step k := Nat.two_pow_pos k

/-- The magnitude of a rank in quanta, on the grid with `bits` fraction bits. -/
def point (bits rank : Nat) : Nat :=
  if rank < binade bits then rank
  else (binade bits + rank % binade bits) * step (rank / binade bits - 1)

/-- How often the step has doubled at a magnitude of `q` quanta: not before the third binade. -/
def shift (bits q : Nat) : Nat := q.log2 - bits

/-- The rank of the grid's magnitude nearest to `num / den` quanta, the even rank in a tie. -/
def round (bits num den : Nat) : Nat :=
  let k := shift bits (num / den)
  k * binade bits + nearest num (den * step k)

/-- In the first binade the step is one quantum. -/
theorem shift_of_lt {bits q : Nat} (h : q < binade bits) : shift bits q = 0 := by
  by_cases hq : q = 0
  · simp [shift, hq]
  · have := (Nat.log2_lt hq).2 h
    rw [shift]; omega

/-- A magnitude with the significand `binade bits + f` and the step `step k` lies in the binade
where the step has doubled `k` times. -/
theorem shift_mul_step {bits f k : Nat} (h : f < binade bits) :
    shift bits ((binade bits + f) * step k) = k := by
  have hpos := binade_pos bits
  have hne : (binade bits + f) * step k ≠ 0 := Nat.ne_of_gt (Nat.mul_pos (by omega) (step_pos k))
  have hlow : binade bits * step k ≤ (binade bits + f) * step k :=
    Nat.mul_le_mul_right _ (by omega)
  have hhigh : (binade bits + f) * step k < (binade bits * 2) * step k :=
    Nat.mul_lt_mul_of_pos_right (by omega) (step_pos k)
  have hlog : ((binade bits + f) * step k).log2 = bits + k := by
    rw [Nat.log2_eq_iff hne, Nat.pow_add, Nat.pow_succ, Nat.pow_add, Nat.mul_right_comm]
    exact ⟨hlow, hhigh⟩
  rw [shift, hlog]; omega

/-- A magnitude of the grid is its own rounding. -/
theorem round_point (bits rank : Nat) : round bits (point bits rank) 1 = rank := by
  have hpos := binade_pos bits
  by_cases h : rank < binade bits
  · -- in the first binade the rank counts the quanta
    have hone : nearest rank (1 * step 0) = rank := by
      simpa [step] using nearest_mul rank Nat.one_pos
    simp only [point, round, if_pos h, Nat.div_one, shift_of_lt h, hone]
    omega
  · -- the binade of the rank is the one its magnitude falls into
    have hdiv := Nat.div_add_mod rank (binade bits)
    have hbinade : 0 < rank / binade bits := Nat.div_pos (by omega) hpos
    obtain ⟨k, hk⟩ : ∃ k, rank / binade bits = k + 1 := ⟨rank / binade bits - 1, by omega⟩
    simp only [point, round, if_neg h, Nat.div_one, shift_mul_step (Nat.mod_lt rank hpos),
      Nat.one_mul, nearest_mul _ (step_pos _), hk, Nat.add_sub_cancel]
    rw [hk, Nat.mul_succ] at hdiv
    rw [Nat.mul_comm]
    omega

end Grid

end Abacus
