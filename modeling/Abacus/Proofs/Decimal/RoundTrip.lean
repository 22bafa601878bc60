import Mathlib.Tactic
import Abacus.Double.Text
import Abacus.Proofs.Literal.Denotation

/-!
The written form of a number reads back as the number.

* `Decimal.exists_decimal_positional`, `Decimal.exists_float_positional`: positional notation is a
  whole number, or has a fraction with as many digits as there are places after the point.
* `Decimal.denotes_positional`: it is a numeral that denotes the decimal, except for a zero with
  further zeros after it.
* `Decimal.toDouble_shortest`: the shortest decimal of a magnitude is read as that magnitude.
* `Double.value_text`: the written form of a finite double without a minus sign reads back as it.
-/

namespace Abacus

namespace Decimal

open Literal

/-! ### Positional notation -/

/-- A positive number is written without a leading zero. -/
lemma head?_toDigits_ne {n : ℕ} (hn : n ≠ 0) : (Nat.toDigits 10 n).head? ≠ some '0' := by
  induction n using Nat.strong_induction_on with
  | _ n ih =>
      rcases Nat.lt_or_ge n 10 with hlt | hge
      · rw [Nat.toDigits_of_lt_base hlt]
        interval_cases n <;> simp at hn ⊢
      · have hdiv : n / 10 ≠ 0 := (Nat.div_pos hge (by norm_num)).ne'
        rw [Nat.toDigits_of_base_le (by norm_num) hge,
          List.head?_append_of_ne_nil _ Nat.toDigits_ne_nil]
        exact ih (n / 10) (Nat.div_lt_self (by omega) (by norm_num)) hdiv

lemma digitOf_lt_of_mem_replicate {k : ℕ} {c : Char} (h : c ∈ List.replicate k '0') :
    digitOf c < 10 := by
  rw [List.eq_of_mem_replicate h]
  decide

/-- Without places after the point, a decimal is written as a whole number. -/
lemma exists_decimal_positional {d : Decimal} (hexp : 0 ≤ d.exponent)
    (hzero : d.coefficient ≠ 0 ∨ d.exponent = 0) :
    ∃ (ds : Digits 10) (leading : ds.chars = ['0'] ∨ ds.chars.head? ≠ some '0'),
      ds.chars = d.positional ∧ (Numeral.decimal ds leading).denotes = d.toRat := by
  obtain ⟨e, he⟩ := Int.eq_ofNat_of_zero_le hexp
  obtain ⟨ds, hds⟩ : ∃ ds : Digits 10,
      ds.chars = Nat.toDigits 10 d.coefficient ++ List.replicate e '0' := by
    refine ⟨⟨_, List.append_ne_nil_of_left_ne_nil Nat.toDigits_ne_nil _, fun c hc => ?_⟩, rfl⟩
    rcases List.mem_append.mp hc with hc | hc
    · exact digitOf_lt_of_mem_toDigits (by norm_num) (by norm_num) hc
    · exact digitOf_lt_of_mem_replicate hc
  have hchars : ds.chars = d.positional := by
    rw [positional, if_pos (by omega), he, Int.toNat_natCast, hds]
  have hleading : ds.chars = ['0'] ∨ ds.chars.head? ≠ some '0' := by
    rw [hds]
    by_cases hcoeff : d.coefficient = 0
    · obtain rfl : e = 0 := by
        have := hzero.resolve_left (not_not.mpr hcoeff)
        omega
      rw [hcoeff, Nat.toDigits_zero]
      exact Or.inl rfl
    · rw [List.head?_append_of_ne_nil _ Nat.toDigits_ne_nil]
      exact Or.inr (head?_toDigits_ne hcoeff)
  refine ⟨ds, hleading, hchars, ?_⟩
  rw [Numeral.denotes, Digits.value, hds, numberOf_append,
    numberOf_toDigits (by norm_num) (by norm_num), numberOf_replicate_zero, List.length_replicate,
    toRat, he, zpow_natCast]
  push_cast
  ring

/-- Digits divided by a point, with at least one on either side. -/
lemma exists_divided {cs : List Char} {places : ℕ} (hdigits : ∀ c ∈ cs, digitOf c < 10)
    (hpos : 0 < places) (hlength : places < cs.length) :
    ∃ whole fraction : Digits 10,
      whole.chars = cs.take (cs.length - places) ∧ fraction.chars = cs.drop (cs.length - places)
      ∧ (whole.value + Numeral.fractionValue (some fraction) : ℚ)
          = numberOf 10 cs / 10 ^ places := by
  have hdrop : (cs.drop (cs.length - places)).length = places := by
    rw [List.length_drop]
    omega
  obtain ⟨whole, hwhole⟩ : ∃ ds : Digits 10, ds.chars = cs.take (cs.length - places) := by
    refine ⟨⟨_, ?_, fun c hc => hdigits c (List.mem_of_mem_take hc)⟩, rfl⟩
    rw [← List.length_pos_iff, List.length_take]
    omega
  obtain ⟨fraction, hfraction⟩ : ∃ ds : Digits 10, ds.chars = cs.drop (cs.length - places) := by
    refine ⟨⟨_, ?_, fun c hc => hdigits c (List.mem_of_mem_drop hc)⟩, rfl⟩
    rw [← List.length_pos_iff, hdrop]
    exact hpos
  have hnumber : numberOf 10 cs = whole.value * 10 ^ places + fraction.value := by
    rw [Digits.value, Digits.value, hwhole, hfraction]
    nth_rewrite 1 [← List.take_append_drop (cs.length - places) cs]
    rw [numberOf_append, hdrop]
  refine ⟨whole, fraction, hwhole, hfraction, ?_⟩
  rw [Numeral.fractionValue, hfraction, hdrop, hnumber]
  push_cast
  field_simp

/-- The digits of a number, filled up with zeros in front to more digits than there are places. -/
def padded (places n : ℕ) : List Char :=
  List.replicate (places + 1 - (Nat.toDigits 10 n).length) '0' ++ Nat.toDigits 10 n

lemma numberOf_padded (places n : ℕ) : numberOf 10 (padded places n) = n := by
  rw [padded, numberOf_append, numberOf_replicate_zero,
    numberOf_toDigits (by norm_num) (by norm_num), Nat.zero_mul, Nat.zero_add]

lemma lt_length_padded (places n : ℕ) : places < (padded places n).length := by
  rw [padded, List.length_append, List.length_replicate]
  omega

lemma digitOf_lt_of_mem_padded {places n : ℕ} {c : Char} (h : c ∈ padded places n) :
    digitOf c < 10 := by
  rcases List.mem_append.mp h with hc | hc
  · exact digitOf_lt_of_mem_replicate hc
  · exact digitOf_lt_of_mem_toDigits (by norm_num) (by norm_num) hc

/-- With places after the point, a decimal is written with a fraction, which divides its digits. -/
lemma exists_float_positional {d : Decimal} (hexp : d.exponent < 0) :
    ∃ whole fraction : Digits 10, d.positional = whole.chars ++ '.' :: fraction.chars
      ∧ whole.chars ++ fraction.chars = padded (-d.exponent).toNat d.coefficient
      ∧ fraction.chars.length = (-d.exponent).toNat
      ∧ (Numeral.float whole (some fraction) none (Or.inl rfl)).denotes = d.toRat := by
  obtain ⟨places, hplaces⟩ : ∃ places : ℕ, d.exponent = -(places : ℤ) :=
    ⟨(-d.exponent).toNat, by omega⟩
  have htoNat : (-d.exponent).toNat = places := by omega
  have hlength := lt_length_padded places d.coefficient
  obtain ⟨whole, fraction, hwhole, hfraction, hvalue⟩ :=
    exists_divided (fun c hc => digitOf_lt_of_mem_padded hc) (by omega : 0 < places) hlength
  refine ⟨whole, fraction, ?_, ?_, ?_, ?_⟩
  · rw [positional, if_neg (by omega), htoNat, hwhole, hfraction]
    rfl
  · rw [hwhole, hfraction, List.take_append_drop, htoNat]
  · rw [hfraction, List.length_drop, htoNat]
    omega
  · rw [Numeral.denotes, hvalue, Numeral.exponentValue, zpow_zero, mul_one, numberOf_padded, toRat,
      hplaces, zpow_neg, zpow_natCast, div_eq_mul_inv]

/-- Positional notation denotes the decimal. -/
lemma denotes_positional {d : Decimal} (h : d.coefficient ≠ 0 ∨ d.exponent ≤ 0) :
    Denotes (String.ofList d.positional) d.toRat := by
  rcases lt_or_ge d.exponent 0 with hexp | hexp
  · obtain ⟨whole, fraction, hchars, -, -, hdenotes⟩ := exists_float_positional hexp
    refine ⟨_, ?_, hdenotes⟩
    rw [Numeral.spelling, Numeral.fractionChars, Numeral.exponentChars, List.append_nil,
      String.toList_ofList, hchars]
  · obtain ⟨ds, leading, hchars, hdenotes⟩ :=
      exists_decimal_positional hexp (h.imp_right fun hle => le_antisymm hle hexp)
    exact ⟨_, by rw [Numeral.spelling, String.toList_ofList, hchars], hdenotes⟩

/-! ### The shortest decimal -/

lemma cast_unitsInQuantum : (unitsInQuantum : ℚ) * 2 ^ 1074 = 10 ^ 1074 := by
  have hunits : unitsInQuantum * Grid.step 1074 = tenPow 1074 := by decide +kernel
  rw [← Grid.cast_step, ← cast_tenPow]
  exact_mod_cast hunits

/-- The magnitude itself as a decimal stands for its size. -/
lemma toRat_ofMagnitude (m : Double.Magnitude) : (ofMagnitude m).toRat = m.toRat := by
  have hten : (10 : ℚ) ^ ((0 : ℕ) - 1074 : ℤ) = (10 ^ 1074)⁻¹ := by
    rw [Nat.cast_zero, zero_sub, zpow_neg]
    exact congrArg _ (zpow_natCast 10 1074)
  have hunits : (unitsInQuantum : ℚ) ≠ 0 := by
    have hpos : (10 : ℚ) ^ 1074 ≠ 0 := by positivity
    rw [← cast_unitsInQuantum] at hpos
    exact left_ne_zero_of_mul hpos
  rw [ofMagnitude, onGrid, toRat, hten, unitsOf, Nat.cast_mul, ← div_eq_mul_inv,
    ← cast_unitsInQuantum, mul_comm (unitsInQuantum : ℚ), mul_div_mul_right _ _ hunits]
  rfl

/-- The decimal that is searched for reads back as the magnitude. -/
lemma toDouble_shortest (m : Double.Magnitude) : (shortest m).toDouble = .finite false m := by
  rw [shortest]
  split_ifs with hzero
  · obtain ⟨rank, hrank⟩ := m
    obtain rfl : rank = 0 := hzero
    rfl
  · refine firstHit_induction (P := fun d => d.toDouble = .finite false m) ?_ ?_ _
    · intro n d hd
      exact of_decide_eq_true (readsAs_of_firstReading? hd)
    · rw [toDouble_eq_iff, toRat_ofMagnitude]
      exact Double.isNearest_toRat m

/-- A decimal of a magnitude has no zeros in front of other zeros. -/
lemma coefficient_ne_zero_or_exponent_nonpos (m : Double.Magnitude) :
    (shortest m).coefficient ≠ 0 ∨ (shortest m).exponent ≤ 0 := by
  by_cases hzero : m.rank = 0
  · rw [shortest, if_pos hzero]
    exact Or.inr le_rfl
  · refine Or.inl fun hcoeff => hzero ?_
    have hread := toDouble_shortest m
    rw [toDouble, if_pos hcoeff] at hread
    cases hread
    rfl

end Decimal

/-- The written form of a finite double without a minus sign reads back as the same double. -/
theorem Double.value_text (m : Magnitude) :
    Literal.value (finite false m).text = .ok (.finite false m) := by
  have hdenotes := Decimal.denotes_positional (Decimal.coefficient_ne_zero_or_exponent_nonpos m)
  have hnear := Decimal.isNearest_toDouble (Decimal.shortest m)
  rw [Decimal.toDouble_shortest] at hnear
  exact (Literal.value_eq_ok_iff_of_denotes hdenotes).mpr hnear

end Abacus
