import Mathlib.Tactic
import Abacus.Proofs.Decimal.Shortest
import Abacus.Proofs.Expr.LiteralText

/-!
The written form of a double.

* `Magnitude.WrittenAs`: positional notation without superfluous zeros, with a fraction exactly if
  the magnitude is not a whole number.
* `writtenAs_positional`, `Magnitude.WrittenAs.classify_eq_iff`: the written form without its sign
  is such a notation, and announces a whole number or a floating-point literal accordingly.
* `text_inj`: no two doubles are written alike.
* `ofBits_eq_ofBits_iff`: no two rows of bits stand for the same double, NaN apart.
* `text_writtenAs`: what this says of every finite double and of every two rows of bits.
-/

namespace Abacus

open Literal

/-! ### Digits at the ends -/

namespace Decimal

/-- A number that is not a multiple of ten does not end in a zero. -/
lemma getLast?_toDigits_ne {n : ℕ} (h : n % 10 ≠ 0) : (Nat.toDigits 10 n).getLast? ≠ some '0' := by
  have hdigit : ∀ r < 10, r ≠ 0 → r.digitChar ≠ '0' := by decide
  rcases Nat.lt_or_ge n 10 with hlt | hge
  · rw [Nat.toDigits_of_lt_base hlt, List.getLast?_singleton, Ne, Option.some_inj]
    exact hdigit n hlt (by omega)
  · rw [Nat.toDigits_of_base_le (by norm_num) hge, List.getLast?_concat, Ne, Option.some_inj]
    exact hdigit (n % 10) (Nat.mod_lt _ (by norm_num)) h

/-- A whole part that takes all but the last places of a number is a zero that has been put in
front of it, or starts as the number does. -/
lemma whole_of_padded {places n : ℕ} {whole fraction : List Char} (hn : n ≠ 0)
    (hchars : whole ++ fraction = padded places n) (hlength : fraction.length = places)
    (hwhole : whole ≠ []) : whole = ['0'] ∨ whole.head? ≠ some '0' := by
  have hcount := congrArg List.length hchars
  rw [padded, List.length_append, List.length_append, List.length_replicate, hlength] at hcount
  rcases Nat.lt_or_ge places (Nat.toDigits 10 n).length with hlt | hge
  · -- no zeros are put in front
    right
    rw [padded, Nat.sub_eq_zero_of_le hlt, List.replicate_zero, List.nil_append] at hchars
    have hhead : (whole ++ fraction).head? = whole.head? :=
      List.head?_append_of_ne_nil whole hwhole
    rw [← hhead, hchars]
    exact head?_toDigits_ne hn
  · -- the first of the zeros is the whole part
    left
    obtain ⟨c, rfl⟩ := List.length_eq_one_iff.mp (by omega : whole.length = 1)
    obtain ⟨zeros, hzeros⟩ : ∃ zeros, places + 1 - (Nat.toDigits 10 n).length = zeros + 1 :=
      ⟨places - (Nat.toDigits 10 n).length, by omega⟩
    rw [padded, hzeros, List.replicate_succ, List.cons_append, List.cons_append,
      List.cons.injEq] at hchars
    rw [hchars.1]

end Decimal

namespace Double

/-! ### Positional notation -/

variable {m : Magnitude}

/-- Positional notation of a magnitude: a whole part that is zero or does not start with a zero,
and exactly if the magnitude is not whole, a point and a fraction that does not end in a zero. -/
def Magnitude.WrittenAs (m : Magnitude) (body : List Char) : Prop :=
  ∃ whole : Digits 10, (whole.chars = ['0'] ∨ whole.chars.head? ≠ some '0')
    ∧ (m.IsWhole ∧ body = whole.chars
      ∨ ¬m.IsWhole ∧ ∃ fraction : Digits 10, fraction.chars.getLast? ≠ some '0'
          ∧ body = whole.chars ++ '.' :: fraction.chars)

/-- The shortest decimal in positional notation has no superfluous zeros. -/
lemma writtenAs_positional (m : Magnitude) : m.WrittenAs (Decimal.shortest m).positional := by
  by_cases hwhole : m.IsWhole
  · have hexp := (Decimal.exponent_nonneg_iff m).mpr hwhole
    obtain ⟨ds, leading, hchars, -⟩ := Decimal.exists_decimal_positional hexp
      ((Decimal.coefficient_ne_zero_or_exponent_nonpos m).imp_right fun h => le_antisymm h hexp)
    exact ⟨ds, leading, Or.inl ⟨hwhole, hchars.symm⟩⟩
  · have hexp : (Decimal.shortest m).exponent < 0 := by
      rwa [← not_le, Decimal.exponent_nonneg_iff]
    have hten := Decimal.coefficient_mod_ten_ne_zero
      fun hzero => hwhole (Decimal.isWhole_of_rank_eq_zero hzero)
    obtain ⟨whole, fraction, hchars, hpadded, hlength, -⟩ :=
      Decimal.exists_float_positional hexp
    refine ⟨whole, ?_, Or.inr ⟨hwhole, fraction, ?_, hchars⟩⟩
    · exact Decimal.whole_of_padded (by omega) hpadded hlength whole.ne_nil
    · -- the last digit of the fraction is the last one of the coefficient
      rw [← List.getLast?_append_of_ne_nil whole.chars fraction.ne_nil, hpadded, Decimal.padded,
        List.getLast?_append_of_ne_nil _ Nat.toDigits_ne_nil]
      exact Decimal.getLast?_toDigits_ne hten

/-- What positional notation announces is a whole number or a floating-point literal. -/
lemma Magnitude.WrittenAs.classify_eq_iff {body : List Char} (h : m.WrittenAs body) :
    (classify (String.ofList body) = some .decimal ↔ m.IsWhole)
    ∧ (classify (String.ofList body) = some .float ↔ ¬m.IsWhole) := by
  obtain ⟨whole, leading, ⟨hwhole, rfl⟩ | ⟨hwhole, fraction, -, rfl⟩⟩ := h
  · have hform : classify (String.ofList whole.chars) = some .decimal := by
      rw [classify, String.toList_ofList]
      exact (Numeral.decimal whole leading).ofChars?_spelling
    rw [hform]
    simp [hwhole]
  · have hspelling := (Numeral.float whole (some fraction) none (Or.inl rfl)).ofChars?_spelling
    rw [Numeral.spelling, Numeral.exponentChars, List.append_nil] at hspelling
    have hform : classify (String.ofList (whole.chars ++ '.' :: fraction.chars))
        = some .float := by
      rw [classify, String.toList_ofList]
      exact hspelling
    rw [hform]
    simp [hwhole]

/-! ### No two doubles are written alike -/

/-- Without its sign the written form of a finite double is read as its magnitude. -/
lemma value_unsignedText (s : Bool) (m : Magnitude) :
    value (String.ofList (finite s m).unsignedText) = .ok (.finite false m) :=
  value_text m

/-- Nothing is written with a sign of its own after the sign. -/
lemma exists_unsignedText_eq_cons (x : Double) : ∃ c cs, x.unsignedText = c :: cs ∧ c ≠ '-' := by
  cases x with
  | nan => exact ⟨'N', _, rfl, by decide⟩
  | infinite s => exact ⟨'i', _, rfl, by decide⟩
  | finite s m =>
      obtain ⟨n, hn⟩ := (exists_value_eq_ok_iff _).mp ⟨_, value_unsignedText s m⟩
      obtain ⟨c, cs, hcs, hdigit⟩ := n.exists_spelling_eq_cons
      rw [String.toList_ofList, hcs] at hn
      refine ⟨c, cs, hn.symm, ?_⟩
      rintro rfl
      exact absurd hdigit (by decide)

/-- The written form tells the sign from what follows it. -/
lemma text_eq_text_iff {x y : Double} :
    x.text = y.text ↔ x.isSigned = y.isSigned ∧ x.unsignedText = y.unsignedText := by
  obtain ⟨c, cs, hx, hc⟩ := x.exists_unsignedText_eq_cons
  obtain ⟨c', cs', hy, hc'⟩ := y.exists_unsignedText_eq_cons
  rw [text, text, String.ofList_inj, hx, hy]
  cases x.isSigned <;> cases y.isSigned <;> simp [hc, Ne.symm hc']

/-- No two doubles are written alike. -/
lemma text_inj {x y : Double} : x.text = y.text ↔ x = y := by
  refine ⟨fun h => ?_, fun h => congrArg text h⟩
  obtain ⟨hsign, hchars⟩ := text_eq_text_iff.mp h
  -- of all the written forms without a sign, only those of finite doubles are literals
  have hvalue : value (String.ofList x.unsignedText) = value (String.ofList y.unsignedText) := by
    rw [hchars]
  have hnan : value (String.ofList nan.unsignedText) = .error (.invalidDigit 'N' 10) := by
    decide +kernel
  have hinf : ∀ s, value (String.ofList (infinite s).unsignedText)
      = .error (.invalidDigit 'i' 10) := by
    decide +kernel
  cases x with
  | nan => cases y with
    | nan => rfl
    | infinite s => simp [hnan, hinf] at hvalue
    | finite s m => simp [hnan, value_unsignedText] at hvalue
  | infinite s => cases y with
    | nan => simp [hnan, hinf] at hvalue
    | infinite s' => rw [show s = s' from hsign]
    | finite s' m => simp [hinf, value_unsignedText] at hvalue
  | finite s m => cases y with
    | nan => simp [hnan, value_unsignedText] at hvalue
    | infinite s' => simp [hinf, value_unsignedText] at hvalue
    | finite s' m' =>
        rw [value_unsignedText, value_unsignedText, Except.ok.injEq, finite.injEq] at hvalue
        rw [show s = s' from hsign, hvalue.2]

/-! ### The interchange encoding -/

/-- The sign bit is set exactly if the written form has a minus sign. -/
lemma signPlace_le_toBits_iff {x : Double} :
    signPlace ≤ x.toBits.toNat ↔ x.isSigned = true := by
  cases h : x.isSigned with
  | false => exact iff_of_false (not_le.mpr (toBits_lt_of_isSigned h)) Bool.false_ne_true
  | true =>
      refine iff_of_true ?_ rfl
      rw [toNat_toBits]
      cases x with
      | nan => cases h
      | infinite s =>
          obtain rfl : s = true := h
          exact Nat.le_add_right _ _
      | finite s m =>
          obtain rfl : s = true := h
          exact Nat.le_add_right _ _

/-- The bits of a double that is not NaN are those that it is read from. -/
lemma toBits_ofBits {b : UInt64} (h : ofBits b ≠ nan) : (ofBits b).toBits = b := by
  have hplace : signPlace = 9223372036854775808 := by decide
  have hb : b.toNat < 18446744073709551616 := b.toNat_lt
  -- the sign bit and the rank make up the number that the bits spell
  have hcode : signBit (decide (signPlace ≤ b.toNat)) + b.toNat % signPlace = b.toNat := by
    rw [signBit, hplace]
    split_ifs with hneg
    · have := of_decide_eq_true hneg
      omega
    · have := of_decide_eq_false (Bool.eq_false_iff.mpr hneg)
      omega
  rw [← UInt64.toNat_inj, toNat_toBits]
  unfold ofBits at h ⊢
  dsimp only at h ⊢
  split_ifs at h ⊢ with hfinite hinfinite
  · exact hcode
  · rw [code, ← hinfinite, hcode]
  · exact absurd rfl h

/-- No two rows of bits stand for the same double, NaN apart. -/
lemma ofBits_eq_ofBits_iff {b b' : UInt64} :
    ofBits b = ofBits b' ↔ b = b' ∨ ofBits b = nan ∧ ofBits b' = nan := by
  constructor
  · intro h
    by_cases hnan : ofBits b = nan
    · exact Or.inr ⟨hnan, h ▸ hnan⟩
    · left
      rw [← toBits_ofBits hnan, h, toBits_ofBits (h ▸ hnan)]
  · rintro (rfl | ⟨h, h'⟩)
    · rfl
    · rw [h, h']

/-! ### Every written form -/

/-- **The written form of a double.** A finite double is written as a minus sign, exactly if its
sign bit is set, and positional notation of its magnitude: no exponent, no superfluous zeros, and a
fraction exactly if the magnitude is not whole. What follows the sign announces a whole number or a
floating-point literal accordingly, and is read as the magnitude; no shorter row of digits is, and
no closer one of its length. Two different rows of bits have the same written form exactly if both
stand for NaN. -/
theorem text_writtenAs :
    (∀ (s : Bool) (m : Magnitude), ∃ body : List Char,
      (finite s m).text.toList
        = (if signPlace ≤ (finite s m).toBits.toNat then ['-'] else []) ++ body
      ∧ (Expr.number (finite s m)).render = (finite s m).text
      ∧ m.WrittenAs body
      ∧ (classify (String.ofList body) = some .decimal ↔ m.IsWhole)
      ∧ (classify (String.ofList body) = some .float ↔ ¬m.IsWhole)
      ∧ value (String.ofList body) = .ok (finite false m)
      ∧ ∃ d : Decimal, body = d.positional ∧ Decimal.IsShortest m d)
    ∧ ∀ b b' : UInt64,
      (ofBits b).text = (ofBits b').text ↔ b = b' ∨ ofBits b = nan ∧ ofBits b' = nan := by
  refine ⟨fun s m => ?_, fun b b' => text_inj.trans ofBits_eq_ofBits_iff⟩
  have hwritten := writtenAs_positional m
  obtain ⟨hdecimal, hfloat⟩ := hwritten.classify_eq_iff
  refine ⟨(Decimal.shortest m).positional, ?_, rfl, hwritten, hdecimal, hfloat,
    value_unsignedText s m, Decimal.shortest m, rfl, Decimal.isShortest_shortest m⟩
  rw [text, String.toList_ofList]
  simp only [signPlace_le_toBits_iff]
  split_ifs <;> rfl

example : (ofInt (2 ^ 63)).text = "9223372036854776000" ∧ (ofInt 0).neg.text = "-0" := by
  decide +kernel

end Double

end Abacus
