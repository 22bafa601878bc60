import Mathlib.Tactic
import Abacus.Evaluation.Resolve
import Abacus.Proofs.Decimal.Rounding
import Abacus.Proofs.Literal.Acceptance

/-!
The value of a number literal is the double nearest to the number that it denotes.

* `Denotes`: the number that a text denotes, read off the numeral that it spells.
* `Numeral.toRat_toDecimal`: the coefficient and power of ten of a numeral are its number.
* `value_eq_ok_iff_of_denotes`: a text that denotes a number has the nearest double as its value.
* `value_isNearest_of_eq_ok`: what this says of every text that has a value, of overflow and
  underflow, of octal and hexadecimal texts, and of other texts that denote the same number.
-/

namespace Abacus

/-- A number expression has its number as its value, in every scope and without changing it. -/
lemma Expr.resolve_number (ar : Arithmetic) (env : Env) (x : Double) :
    ((number x).resolve ar env).1 = .ok x
    ∧ ((number x).resolve ar env).2.scope = env.scope := by
  rw [resolve_eq_eval]
  exact ⟨rfl, rfl⟩

namespace Literal

/-- A text denotes the number of the numeral that it spells. -/
def Denotes (text : String) (q : ℚ) : Prop :=
  ∃ n : Numeral, n.spelling = text.toList ∧ n.denotes = q

namespace Numeral

lemma toRat_whole (n : ℕ) : (whole n).toRat = n := by
  rw [whole, Decimal.toRat, zpow_zero, mul_one]

lemma fractionValue_eq (fraction : Option (Digits 10)) :
    fractionValue fraction
      = numberOf 10 (fractionDigits fraction) / 10 ^ (fractionDigits fraction).length := by
  cases fraction with
  | none => simp [fractionValue, fractionDigits, numberOf]
  | some ds => rfl

/-- The decimal of a numeral stands for the number that it denotes. -/
lemma toRat_toDecimal (n : Numeral) : n.toDecimal.toRat = n.denotes := by
  cases n with
  | float whole fraction exponent marked =>
      rw [toDecimal, floatDecimal, Decimal.toRat, denotes, fractionValue_eq, numberOf_append,
        zpow_sub₀ (by norm_num), zpow_natCast]
      push_cast
      rw [Digits.value]
      field_simp
  | _ => exact toRat_whole _

lemma denotes_nonneg (n : Numeral) : 0 ≤ n.denotes := by
  rw [← toRat_toDecimal]
  exact n.toDecimal.toRat_nonneg

/-- Octal and hexadecimal numerals denote whole numbers of 64 bits. -/
lemma exists_denotes_eq_natCast {n : Numeral} (h : n.form = .octal ∨ n.form = .hex) :
    ∃ k < 2 ^ 64, n.denotes = (k : ℕ) := by
  cases n with
  | decimal ds leading => simp [form] at h
  | float whole fraction exponent marked => simp [form] at h
  | octal ds fits => exact ⟨ds.value, fits, rfl⟩
  | markedOctal letter letter_eq ds fits => exact ⟨ds.value, fits, rfl⟩
  | hex letter letter_eq ds fits => exact ⟨ds.value, fits, rfl⟩

end Numeral

/-- A text denotes at most one number. -/
lemma Denotes.unique {text : String} {q q' : ℚ} (h : Denotes text q) (h' : Denotes text q') :
    q = q' := by
  obtain ⟨n, hn, rfl⟩ := h
  obtain ⟨n', hn', rfl⟩ := h'
  rw [Numeral.spelling_injective (hn.trans hn'.symm)]

/-- A text that denotes a number has the double nearest to that number as its value. -/
lemma value_eq_ok_iff_of_denotes {text : String} {q : ℚ} (h : Denotes text q) {x : Double} :
    value text = .ok x ↔ Double.IsNearest q x := by
  obtain ⟨n, hn, rfl⟩ := h
  have hvalue : value text = .ok n.toDecimal.toDouble := by
    rw [value, read, ← hn, n.readChars_spelling]
    rfl
  rw [hvalue, Except.ok.injEq, Decimal.toDouble_eq_iff, n.toRat_toDecimal]

/-- A text that has a value denotes a number. -/
lemma exists_denotes_of_value {text : String} {x : Double} (h : value text = .ok x) :
    ∃ q, Denotes text q := by
  obtain ⟨n, hn⟩ := (exists_value_eq_ok_iff text).mp ⟨x, h⟩
  exact ⟨n.denotes, n, hn, rfl⟩

/-- **Correct rounding.** A text that has a value denotes one non-negative number, and its value is
the nearest double, even in a tie. The value is infinite from half a step beyond the last finite
magnitude on, subnormal or zero up to half a quantum below the least normal magnitude, and zero up
to half a quantum. An octal or hexadecimal text denotes a whole number of 64 bits, which is rounded
once. Every text that denotes the same number has the same value, and the expression it writes has
this value in every scope and leaves the scope unchanged. -/
theorem value_isNearest_of_eq_ok (text : String) (x : Double) (h : value text = .ok x) :
    ∃ q : ℚ, (∀ q', Denotes text q' ↔ q' = q) ∧ 0 ≤ q ∧ Double.IsNearest q x
      ∧ (x = .infinite false ↔ Double.overflowBound ≤ q)
      ∧ ((∃ m, x = .finite false m ∧ m.rank < Grid.binade 52) ↔ q * 2 ^ 1074 < 2 ^ 52 - 1 / 2)
      ∧ (x = .zero ↔ q * 2 ^ 1074 ≤ 1 / 2)
      ∧ (classify text = some .octal ∨ classify text = some .hex →
          ∃ k < 2 ^ 64, q = (k : ℕ) ∧ x = .ofInt k)
      ∧ ∀ text', Denotes text' q →
          value text' = .ok x ∧ Expr.ofLiteral text' = .ok (.number x)
          ∧ ∀ ar env, ((Expr.number x).resolve ar env).1 = .ok x
              ∧ ((Expr.number x).resolve ar env).2.scope = env.scope := by
  obtain ⟨q, hq⟩ := exists_denotes_of_value h
  obtain ⟨n, hn, hnq⟩ := id hq
  have hnonneg : 0 ≤ q := hnq ▸ n.denotes_nonneg
  have hnear : Double.IsNearest q x := (value_eq_ok_iff_of_denotes hq).mp h
  refine ⟨q, fun q' => ⟨fun hq' => hq'.unique hq, fun hq' => hq' ▸ hq⟩, hnonneg, hnear,
    Double.eq_infinite_iff_of_isNearest hnear, Double.rank_lt_iff_of_isNearest hnear,
    Double.eq_zero_iff_of_isNearest hnonneg hnear, ?_, ?_⟩
  · intro hform
    rw [classify, ← hn, n.ofChars?_spelling, Option.some_inj, Option.some_inj] at hform
    obtain ⟨k, hk, hkq⟩ := Numeral.exists_denotes_eq_natCast hform
    have hqk : q = k := hnq.symm.trans hkq
    exact ⟨k, hk, hqk, (hqk ▸ hnear).unique (Double.isNearest_ofInt k)⟩
  · intro text' hq'
    have hvalue : value text' = .ok x := (value_eq_ok_iff_of_denotes hq').mpr hnear
    refine ⟨hvalue, ?_, fun ar env => Expr.resolve_number ar env x⟩
    rw [Expr.ofLiteral, hvalue]
    rfl

/-- The theorem at a tie above `2 ^ 53`, which goes down to the even neighbour whether the number is
written in hexadecimal or with a point and an exponent. -/
theorem value_isNearest_tie :
    value "0x20000000000001" = .ok (.ofInt (2 ^ 53))
    ∧ Denotes "0x20000000000001" (2 ^ 53 + 1) ∧ Denotes "900719925474099.3e1" (2 ^ 53 + 1)
    ∧ value "900719925474099.3e1" = .ok (.ofInt (2 ^ 53)) := by
  have hvalue : value "0x20000000000001" = .ok (.ofInt (2 ^ 53)) := by decide +kernel
  obtain ⟨q, hq, -, -, -, -, -, -, hsame⟩ :=
    value_isNearest_of_eq_ok "0x20000000000001" (.ofInt (2 ^ 53)) hvalue
  have hhex : Denotes "0x20000000000001" (2 ^ 53 + 1) := by
    obtain ⟨ds, hchars, hds⟩ : ∃ ds : Digits 16,
        ds.chars = "20000000000001".toList ∧ ds.value = 2 ^ 53 + 1 :=
      ⟨.ofChars 16 _ (by decide +kernel), rfl, by decide +kernel⟩
    refine ⟨.hex 'x' (Or.inl rfl) ds (by rw [hds]; norm_num), ?_, ?_⟩
    · rw [Numeral.spelling, hchars]
      decide +kernel
    · rw [Numeral.denotes, hds]
      norm_num
  have hfloat : Denotes "900719925474099.3e1" (2 ^ 53 + 1) := by
    obtain ⟨whole, hchars, hwhole⟩ : ∃ ds : Digits 10,
        ds.chars = "900719925474099".toList ∧ ds.value = 900719925474099 :=
      ⟨.ofChars 10 _ (by decide +kernel), rfl, by decide +kernel⟩
    obtain ⟨three, hchars3, hthree⟩ : ∃ ds : Digits 10, ds.chars = ['3'] ∧ ds.value = 3 :=
      ⟨.ofChars 10 ['3'] (by decide), rfl, by decide⟩
    obtain ⟨one, hchars1, hone⟩ : ∃ ds : Digits 10, ds.chars = ['1'] ∧ ds.value = 1 :=
      ⟨.ofChars 10 ['1'] (by decide), rfl, by decide⟩
    refine ⟨.float whole (some three) (some ⟨'e', Or.inl rfl, none, by simp, one⟩) (Or.inl rfl),
      ?_, ?_⟩
    · rw [Numeral.spelling, Numeral.fractionChars, Numeral.exponentChars, Exponent.tail, hchars,
        hchars3, hchars1]
      rfl
    · rw [Numeral.denotes, hwhole, Numeral.fractionValue, hthree, hchars3, Numeral.exponentValue,
        Exponent.value, if_neg (by simp), hone]
      norm_num
  obtain rfl := (hq _).mp hhex
  exact ⟨hvalue, hhex, hfloat, (hsame _ hfloat).1⟩

end Literal

end Abacus
