import Mathlib.Tactic
import Abacus.Proofs.Literal.Digits

/-!
The reader accepts exactly the numerals.

* `float?_append`, `exists_parts_of_float?`: the two cuts of a floating-point literal find its
  parts.
* `ofChars?_spelling`, `ofChars?_cases`: the form of a numeral, and what a form says of a text.
* `readChars_spelling`: every numeral is read, and as the number that it denotes.
* `exists_spelling_eq`: what is read is the spelling of a numeral.
* `spelling_injective`: no text spells two numerals.
-/

namespace Abacus

namespace Literal

/-! ### Floating-point literals -/

/-- The parts of a cut: all of the text if there is no mark, else what stands on the two sides of
the first one. -/
lemma cut_cases (isMark : Char → Bool) (cs : List Char) :
    ((∀ c ∈ cs, isMark c = false) ∧ cut isMark cs = (cs, none))
    ∨ ∃ before mark after, cs = before ++ mark :: after ∧ isMark mark = true
        ∧ (∀ c ∈ before, isMark c = false) ∧ cut isMark cs = (before, some after) := by
  induction cs with
  | nil => exact Or.inl ⟨by simp, rfl⟩
  | cons c cs ih =>
      by_cases hc : isMark c = true
      · have hcut : cut isMark ([] ++ c :: cs) = ([], some cs) := cut_append_cons cs (by simp) hc
        exact Or.inr ⟨[], c, cs, rfl, hc, by simp, hcut⟩
      · rw [Bool.not_eq_true] at hc
        rcases ih with ⟨hall, -⟩ | ⟨before, mark, after, rfl, hmark, hbefore, -⟩
        · have hall' : ∀ d ∈ c :: cs, isMark d = false := by simpa [hc] using hall
          exact Or.inl ⟨hall', cut_of_all_not hall'⟩
        · have hbefore' : ∀ d ∈ c :: before, isMark d = false := by simpa [hc] using hbefore
          exact Or.inr ⟨c :: before, mark, after, rfl, hmark, hbefore',
            cut_append_cons after hbefore' hmark⟩

lemma isExponentMark_iff {c : Char} : isExponentMark c = true ↔ c = 'e' ∨ c = 'E' := by
  simp [isExponentMark]

/-- A row of decimal digits holds none of the marks of a floating-point literal, and no sign. -/
lemma ne_of_isDigit {c : Char} (h : c.isDigit = true) :
    isFloatMark c = false ∧ isExponentMark c = false ∧ c ≠ '.' ∧ c ≠ '+' ∧ c ≠ '-' := by
  refine ⟨?_, ?_, ?_, ?_, ?_⟩
  · rw [Bool.eq_false_iff]
    intro hm
    simp only [isFloatMark, Bool.or_eq_true, beq_iff_eq] at hm
    rcases hm with (rfl | rfl) | rfl <;> exact absurd h (by decide)
  · rw [Bool.eq_false_iff]
    intro hm
    rcases isExponentMark_iff.mp hm with rfl | rfl <;> exact absurd h (by decide)
  all_goals
    rintro rfl
    exact absurd h (by decide)

lemma Digits.isDigit (ds : Digits 10) {c : Char} (hc : c ∈ ds.chars) : c.isDigit = true :=
  digitOf_lt_ten_iff.mp (ds.digitOf_lt c hc)

/-- What is read after an exponent mark is an exponent. -/
lemma exponent?_some_eq_some_iff {mark : Char} (hmark : mark = 'e' ∨ mark = 'E') {cs : List Char}
    {z : ℤ} :
    exponent? (some cs) = some z ↔ ∃ e : Exponent, e.mark = mark ∧ e.tail = cs ∧ e.value = z := by
  constructor
  · intro h
    unfold exponent? at h
    split at h
    · next hnone => cases hnone
    all_goals
      obtain ⟨n, hn, rfl⟩ := Option.map_eq_some_iff.mp h
      obtain ⟨ds, hds, rfl⟩ := digits?_eq_some_iff.mp hn
    · next heq =>
        rw [Option.some.injEq] at heq
        exact ⟨⟨mark, hmark, some '-', by simp, ds⟩, rfl, by simp [Exponent.tail, hds, heq],
          by simp [Exponent.value]⟩
    · next heq =>
        rw [Option.some.injEq] at heq
        exact ⟨⟨mark, hmark, some '+', by simp, ds⟩, rfl, by simp [Exponent.tail, hds, heq],
          by simp [Exponent.value]⟩
    · next heq =>
        rw [Option.some.injEq] at heq
        exact ⟨⟨mark, hmark, none, by simp, ds⟩, rfl, by simp [Exponent.tail, hds, heq],
          by simp [Exponent.value]⟩
  · rintro ⟨⟨mark, hmark, sign, hsign, ds⟩, rfl, rfl, rfl⟩
    have hread : digits? ds.chars = some ds.value := digits?_eq_some_iff.mpr ⟨ds, rfl, rfl⟩
    rcases sign with _ | c
    · -- without a sign the digits themselves do not start with one
      obtain ⟨c, cs, hcs⟩ := List.exists_cons_of_ne_nil ds.ne_nil
      have hc := ne_of_isDigit (ds.isDigit (c := c) (by simp [hcs]))
      simp only [Exponent.tail, Exponent.value, Option.toList_none, List.nil_append, reduceCtorEq,
        if_false]
      rw [exponent?, hread]
      · rfl
      · rintro cs' h
        rw [hcs, List.cons.injEq] at h
        exact hc.2.2.2.2 h.1
      · rintro cs' h
        rw [hcs, List.cons.injEq] at h
        exact hc.2.2.2.1 h.1
    · rcases hsign c rfl with rfl | rfl
      · simp [Exponent.tail, Exponent.value, exponent?, hread]
      · simp [Exponent.tail, Exponent.value, exponent?, hread]

namespace Numeral

/-- The digits of a fraction without its point. -/
def fractionDigits : Option (Digits 10) → List Char
  | none => []
  | some ds => ds.chars

/-- The number of a floating-point numeral, as a coefficient and a power of ten. -/
def floatDecimal (whole : Digits 10) (fraction : Option (Digits 10))
    (exponent : Option Exponent) : Decimal :=
  ⟨numberOf 10 (whole.chars ++ fractionDigits fraction),
    exponentValue exponent - (fractionDigits fraction).length⟩

/-- The part before the exponent holds no exponent mark. -/
lemma isExponentMark_mantissa (whole : Digits 10) (fraction : Option (Digits 10)) {c : Char}
    (hc : c ∈ whole.chars ++ fractionChars fraction) : isExponentMark c = false := by
  rcases List.mem_append.mp hc with hc | hc
  · exact (ne_of_isDigit (whole.isDigit hc)).2.1
  · cases fraction with
    | none => cases hc
    | some ds =>
        rcases List.mem_cons.mp hc with rfl | hc
        · rfl
        · exact (ne_of_isDigit (ds.isDigit hc)).2.1

/-- The first cut separates the exponent. -/
lemma cut_exponent (whole : Digits 10) (fraction : Option (Digits 10))
    (exponent : Option Exponent) :
    cut isExponentMark (whole.chars ++ fractionChars fraction ++ exponentChars exponent)
      = (whole.chars ++ fractionChars fraction, exponent.map Exponent.tail) := by
  have hnone : ∀ c ∈ whole.chars ++ fractionChars fraction, isExponentMark c = false :=
    fun c hc => isExponentMark_mantissa whole fraction hc
  cases exponent with
  | none => rw [exponentChars, List.append_nil, cut_of_all_not hnone]; rfl
  | some e => exact cut_append_cons e.tail hnone (isExponentMark_iff.mpr e.mark_eq)

/-- The second cut separates the fraction. -/
lemma cut_point (whole : Digits 10) (fraction : Option (Digits 10)) :
    cut (· == '.') (whole.chars ++ fractionChars fraction)
      = (whole.chars, fraction.map Digits.chars) := by
  have hnone : ∀ c ∈ whole.chars, (c == '.') = false :=
    fun c hc => beq_false_of_ne (ne_of_isDigit (whole.isDigit hc)).2.2.1
  cases fraction with
  | none => rw [fractionChars, List.append_nil, cut_of_all_not hnone]; rfl
  | some ds => exact cut_append_cons ds.chars hnone rfl

/-- The parts of a floating-point numeral are read. -/
lemma float?_append (whole : Digits 10) (fraction : Option (Digits 10))
    (exponent : Option Exponent) :
    float? (whole.chars ++ fractionChars fraction ++ exponentChars exponent)
      = some (floatDecimal whole fraction exponent) := by
  have hwhole : digits? whole.chars = some whole.value :=
    digits?_eq_some_iff.mpr ⟨whole, rfl, rfl⟩
  have hfraction : fraction? (fraction.map Digits.chars) = some (fractionDigits fraction) := by
    cases fraction with
    | none => rfl
    | some ds =>
        have hds : digits? ds.chars = some ds.value := digits?_eq_some_iff.mpr ⟨ds, rfl, rfl⟩
        simp [fraction?, hds, fractionDigits]
  have hexponent : exponent? (exponent.map Exponent.tail) = some (exponentValue exponent) := by
    cases exponent with
    | none => rfl
    | some e => exact (exponent?_some_eq_some_iff e.mark_eq).mpr ⟨e, rfl, rfl, rfl⟩
  have hdigits : ∀ c ∈ fractionDigits fraction, c.isDigit = true := by
    cases fraction with
    | none => simp [fractionDigits]
    | some ds => exact fun c hc => ds.isDigit hc
  simp only [float?, cut_exponent, cut_point, hwhole, hfraction, hexponent, floatDecimal,
    numberOf_append, ofDigitChars_eq hdigits]
  rfl

/-- Where an exponent is read, the first cut leaves the spelling of one. -/
lemma exists_exponentChars {cs : List Char} {z : ℤ}
    (h : exponent? (cut isExponentMark cs).2 = some z) :
    ∃ exponent, cs = (cut isExponentMark cs).1 ++ exponentChars exponent := by
  rcases cut_cases isExponentMark cs with ⟨-, hcut⟩ | ⟨before, mark, after, hcs, hmark, -, hcut⟩
  · exact ⟨none, by rw [hcut, exponentChars, List.append_nil]⟩
  · rw [hcut] at h
    obtain ⟨e, rfl, rfl, -⟩ :=
      (exponent?_some_eq_some_iff (isExponentMark_iff.mp hmark)).mp h
    exact ⟨some e, by rw [hcut, hcs]; rfl⟩

/-- Where a fraction is read, the second cut leaves the spelling of one. -/
lemma exists_fractionChars {cs fs : List Char} (h : fraction? (cut (· == '.') cs).2 = some fs) :
    ∃ fraction, cs = (cut (· == '.') cs).1 ++ fractionChars fraction := by
  rcases cut_cases (· == '.') cs with ⟨-, hcut⟩ | ⟨before, mark, after, hcs, hmark, -, hcut⟩
  · exact ⟨none, by rw [hcut, fractionChars, List.append_nil]⟩
  · rw [hcut] at h
    obtain ⟨n, hn, -⟩ := Option.map_eq_some_iff.mp h
    obtain ⟨ds, rfl, -⟩ := digits?_eq_some_iff.mp hn
    exact ⟨some ds, by rw [hcut, hcs, beq_iff_eq.mp hmark]; rfl⟩

/-- What is read as a floating-point literal has the parts of a floating-point numeral. -/
lemma exists_parts_of_float? {cs : List Char} {d : Decimal} (h : float? cs = some d) :
    ∃ (whole : Digits 10) (fraction : Option (Digits 10)) (exponent : Option Exponent),
      cs = whole.chars ++ fractionChars fraction ++ exponentChars exponent := by
  simp only [float?] at h
  split at h
  · next n fs z hwhole hfraction hexponent =>
      obtain ⟨exponent, hcs⟩ := exists_exponentChars hexponent
      obtain ⟨fraction, hmantissa⟩ := exists_fractionChars hfraction
      obtain ⟨whole, hchars, -⟩ := digits?_eq_some_iff.mp hwhole
      refine ⟨whole, fraction, exponent, ?_⟩
      rw [hchars, ← hmantissa]
      exact hcs
  · cases h

end Numeral

/-! ### The form of a text -/

/-- Without one of the markers, a text that starts with a digit has its form from its marks and
its first digit. -/
lemma ofChars?_cons {c : Char} {cs : List Char} (hc : c.isDigit = true)
    (hcs : ∀ l ∈ cs.head?, l ≠ 'x' ∧ l ≠ 'X' ∧ l ≠ 'o' ∧ l ≠ 'O') :
    Form.ofChars? (c :: cs) =
      if cs.any isFloatMark then some .float
      else if c == '0' && !cs.isEmpty then some .octal
      else some .decimal := by
  rw [Form.ofChars?]
  · rw [hc, Bool.not_true, if_neg Bool.false_ne_true]
  all_goals
    rintro l - rfl
    have h := hcs _ rfl
    simp at h

/-- What a text looks like that announces a form. -/
lemma ofChars?_cases {cs : List Char} {form : Form} (h : Form.ofChars? cs = some form) :
    (form = .hex ∧ ∃ l ds, (l = 'x' ∨ l = 'X') ∧ cs = '0' :: l :: ds)
    ∨ (form = .octal ∧ ∃ l ds, (l = 'o' ∨ l = 'O') ∧ cs = '0' :: l :: ds)
    ∨ (form = .float ∧ cs.tail.any isFloatMark = true)
    ∨ (form = .octal ∧ ∃ l ds, l ≠ 'o' ∧ l ≠ 'O' ∧ cs = '0' :: l :: ds)
    ∨ (form = .decimal ∧ (cs = ['0'] ∨ cs.head? ≠ some '0')) := by
  unfold Form.ofChars? at h
  split at h
  · cases h
  · exact Or.inl ⟨(Option.some.inj h).symm, _, _, Or.inl rfl, rfl⟩
  · exact Or.inl ⟨(Option.some.inj h).symm, _, _, Or.inr rfl, rfl⟩
  · exact Or.inr (Or.inl ⟨(Option.some.inj h).symm, _, _, Or.inl rfl, rfl⟩)
  · exact Or.inr (Or.inl ⟨(Option.some.inj h).symm, _, _, Or.inr rfl, rfl⟩)
  · next c cs hx hX ho hO =>
      split_ifs at h with hdigit hfloat hzero
      · exact Or.inr (Or.inr (Or.inl ⟨(Option.some.inj h).symm, hfloat⟩))
      · simp only [Bool.and_eq_true, beq_iff_eq, Bool.not_eq_true',
          List.isEmpty_eq_false_iff] at hzero
        obtain ⟨rfl, hne⟩ := hzero
        obtain ⟨l, ds, rfl⟩ := List.exists_cons_of_ne_nil hne
        refine Or.inr (Or.inr (Or.inr (Or.inl ⟨(Option.some.inj h).symm, l, ds, ?_, ?_, rfl⟩)))
        · rintro rfl
          exact ho ds rfl rfl
        · rintro rfl
          exact hO ds rfl rfl
      · refine Or.inr (Or.inr (Or.inr (Or.inr ⟨(Option.some.inj h).symm, ?_⟩)))
        by_cases hc : c = '0'
        · simp_all
        · exact Or.inr (by simpa using hc)

namespace Numeral

/-- No digit of base ten or eight is a letter of a marker. -/
lemma ne_letter_of_digitOf_lt {c : Char} (h : digitOf c < 10) :
    c ≠ 'x' ∧ c ≠ 'X' ∧ c ≠ 'o' ∧ c ≠ 'O' := by
  refine ⟨?_, ?_, ?_, ?_⟩
  all_goals
    rintro rfl
    exact absurd h (by decide)

/-- The parts of a floating-point numeral hold a mark after the first digit. -/
lemma any_isFloatMark_parts {cs : List Char} {fraction : Option (Digits 10)}
    {exponent : Option Exponent} (h : fraction.isSome ∨ exponent.isSome) :
    (cs ++ fractionChars fraction ++ exponentChars exponent).any isFloatMark = true := by
  rw [List.any_eq_true]
  rcases h with h | h
  · obtain ⟨ds, rfl⟩ := Option.isSome_iff_exists.mp h
    exact ⟨'.', by simp [fractionChars], rfl⟩
  · obtain ⟨e, rfl⟩ := Option.isSome_iff_exists.mp h
    refine ⟨e.mark, by simp [exponentChars], ?_⟩
    rcases e.mark_eq with h | h <;> rw [h] <;> rfl

/-- Where the whole part of a floating-point numeral is a single digit, no marker follows it. -/
lemma head?_parts {cs : List Char} (hcs : ∀ c ∈ cs, digitOf c < 10)
    {fraction : Option (Digits 10)} {exponent : Option Exponent} :
    ∀ l ∈ (cs ++ fractionChars fraction ++ exponentChars exponent).head?,
      l ≠ 'x' ∧ l ≠ 'X' ∧ l ≠ 'o' ∧ l ≠ 'O' := by
  intro l hl
  cases cs with
  | cons c cs =>
      cases hl
      exact ne_letter_of_digitOf_lt (hcs l (by simp))
  | nil =>
      cases fraction with
      | some ds =>
          cases hl
          decide
      | none =>
          cases exponent with
          | none => cases hl
          | some e =>
              cases hl
              rcases e.mark_eq with h | h <;> rw [h] <;> decide

/-- Digits of base ten or less hold no mark of a floating-point literal. -/
lemma any_isFloatMark_digits {cs : List Char} (hcs : ∀ c ∈ cs, digitOf c < 10) :
    cs.any isFloatMark = false := by
  rw [List.any_eq_false]
  intro c hc
  rw [(ne_of_isDigit (digitOf_lt_ten_iff.mp (hcs c hc))).1]
  exact Bool.false_ne_true

lemma head?_digits {cs : List Char} (hcs : ∀ c ∈ cs, digitOf c < 10) :
    ∀ l ∈ cs.head?, l ≠ 'x' ∧ l ≠ 'X' ∧ l ≠ 'o' ∧ l ≠ 'O' :=
  fun l hl => ne_letter_of_digitOf_lt (hcs l (List.mem_of_mem_head? hl))

/-- A numeral announces its own form. -/
lemma ofChars?_spelling (n : Numeral) : Form.ofChars? n.spelling = some n.form := by
  cases n with
  | decimal ds leading =>
      obtain ⟨c, cs, hcs⟩ := List.exists_cons_of_ne_nil ds.ne_nil
      have hdigits := ds.digitOf_lt
      rw [hcs] at hdigits leading
      rw [List.forall_mem_cons] at hdigits
      have hzero : (c == '0' && !cs.isEmpty) = false := by
        rcases leading with h | h
        · simp_all
        · simpa using fun hc => absurd (congrArg some hc) h
      rw [spelling, hcs, ofChars?_cons (digitOf_lt_ten_iff.mp hdigits.1) (head?_digits hdigits.2),
        any_isFloatMark_digits hdigits.2, if_neg Bool.false_ne_true, hzero,
        if_neg Bool.false_ne_true, form]
  | float whole fraction exponent marked =>
      obtain ⟨c, cs, hcs⟩ := List.exists_cons_of_ne_nil whole.ne_nil
      have hdigits := whole.digitOf_lt
      rw [hcs, List.forall_mem_cons] at hdigits
      rw [spelling, hcs, List.cons_append, List.cons_append,
        ofChars?_cons (digitOf_lt_ten_iff.mp hdigits.1) (head?_parts hdigits.2),
        if_pos (any_isFloatMark_parts marked), form]
  | octal ds fits =>
      have hdigits : ∀ c ∈ ds.chars, digitOf c < 10 :=
        fun c hc => (ds.digitOf_lt c hc).trans (by decide)
      have hne : ds.chars.isEmpty = false := List.isEmpty_eq_false_iff.mpr ds.ne_nil
      rw [spelling, ofChars?_cons rfl (head?_digits hdigits), any_isFloatMark_digits hdigits,
        if_neg Bool.false_ne_true, hne]
      rfl
  | markedOctal letter letter_eq ds fits =>
      rcases letter_eq with rfl | rfl <;> rfl
  | hex letter letter_eq ds fits =>
      rcases letter_eq with rfl | rfl <;> rfl

end Numeral

/-! ### Reading and spelling -/

/-- A whole number is read from decimal digits alone. -/
lemma readDecimal_eq_ok_iff {cs : List Char} {n : ℕ} :
    readDecimal cs = .ok n ↔ (∀ c ∈ cs, digitOf c < 10) ∧ numberOf 10 cs = n := by
  have hdigits : (∀ c ∈ cs, digitOf c < 10) ↔ cs.find? (!·.isDigit) = none := by
    simp [digitOf_lt_ten_iff]
  rw [hdigits, readDecimal]
  split
  · next c hc => simp [hc]
  · next hnone =>
      have hall : ∀ c ∈ cs, c.isDigit = true := by simpa using hnone
      rw [ofDigitChars_eq hall, Nat.zero_mul, Nat.zero_add]
      simp [hnone]

/-- Without its marker, an octal literal is read after its leading zero. -/
lemma readOctal_cons {c l : Char} (ho : l ≠ 'o') (hO : l ≠ 'O') (cs : List Char) :
    readOctal (c :: l :: cs) = readRadix 8 (l :: cs) := by
  rw [readOctal]
  · rfl
  all_goals
    rintro _ _ h
    simp_all

namespace Numeral

/-- The number of a numeral, as a coefficient and a power of ten. -/
def toDecimal : Numeral → Decimal
  | decimal ds _ => whole ds.value
  | float whole fraction exponent _ => floatDecimal whole fraction exponent
  | octal ds _ | markedOctal _ _ ds _ => whole ds.value
  | hex _ _ ds _ => whole ds.value

/-- A whole number read by one of the readers is the number of the literal. -/
lemma map_whole_eq_ok {r : Except Error ℕ} {n : ℕ} (h : r = .ok n) :
    whole <$> r = .ok (whole n) := by
  rw [h]
  rfl

/-- Every numeral is read as its number. -/
lemma readChars_spelling (n : Numeral) : readChars n.spelling = .ok n.toDecimal := by
  rw [readChars, ofChars?_spelling]
  cases n with
  | decimal ds leading =>
      exact map_whole_eq_ok (readDecimal_eq_ok_iff.mpr ⟨ds.digitOf_lt, rfl⟩)
  | float whole fraction exponent marked =>
      simp only [form, readForm, readFloat, spelling, float?_append, toDecimal]
  | octal ds fits =>
      obtain ⟨l, cs, hcs⟩ := List.exists_cons_of_ne_nil ds.ne_nil
      have hl := ne_letter_of_digitOf_lt (c := l)
        ((ds.digitOf_lt l (by simp [hcs])).trans (by decide))
      refine map_whole_eq_ok ?_
      rw [spelling, hcs, readOctal_cons hl.2.2.1 hl.2.2.2]
      exact (readRadix_eq_ok_iff (by decide) (by decide) (by simp)).mpr ⟨ds, hcs, rfl, fits⟩
  | markedOctal letter letter_eq ds fits =>
      refine map_whole_eq_ok ?_
      have hread : readMarked "0o" 8 ds.chars = .ok ds.value :=
        (readMarked_eq_ok_iff (by decide) (by decide)).mpr ⟨ds, rfl, rfl, fits⟩
      rcases letter_eq with rfl | rfl <;> exact hread
  | hex letter letter_eq ds fits =>
      have hread : readMarked "0x" 16 ds.chars = .ok ds.value :=
        (readMarked_eq_ok_iff (by decide) (by decide)).mpr ⟨ds, rfl, rfl, fits⟩
      exact map_whole_eq_ok hread

/-- Only what one of the readers reads is the number of a literal. -/
lemma eq_ok_of_map_whole {r : Except Error ℕ} {d : Decimal} (h : whole <$> r = .ok d) :
    ∃ n, r = .ok n := by
  cases r with
  | ok n => exact ⟨n, rfl⟩
  | error e => cases h

/-- What is read is the spelling of a numeral. -/
lemma exists_spelling_eq {cs : List Char} {d : Decimal} (h : readChars cs = .ok d) :
    ∃ n : Numeral, n.spelling = cs := by
  rw [readChars] at h
  split at h
  · next form hform =>
      rcases ofChars?_cases hform with ⟨rfl, l, ds, hl, rfl⟩ | ⟨rfl, l, ds, hl, rfl⟩
        | ⟨rfl, hmark⟩ | ⟨rfl, l, ds, ho, hO, rfl⟩ | ⟨rfl, hzero⟩
      · obtain ⟨n, hn⟩ := eq_ok_of_map_whole h
        obtain ⟨digits, rfl, rfl, fits⟩ :=
          (readMarked_eq_ok_iff (by decide) (by decide)).mp hn
        exact ⟨hex l hl digits fits, rfl⟩
      · obtain ⟨n, hn⟩ := eq_ok_of_map_whole h
        have hread : readMarked "0o" 8 ds = .ok n := by rcases hl with rfl | rfl <;> exact hn
        obtain ⟨digits, rfl, rfl, fits⟩ :=
          (readMarked_eq_ok_iff (by decide) (by decide)).mp hread
        exact ⟨markedOctal l hl digits fits, rfl⟩
      · rw [readForm, readFloat] at h
        split at h
        · next hfloat =>
            obtain ⟨whole, fraction, exponent, rfl⟩ := exists_parts_of_float? hfloat
            refine ⟨float whole fraction exponent ?_, rfl⟩
            -- the mark is neither in the whole part nor, without them, anywhere
            by_contra hnone
            rw [not_or, Option.not_isSome_iff_eq_none, Option.not_isSome_iff_eq_none] at hnone
            obtain ⟨rfl, rfl⟩ := hnone
            obtain ⟨c, cs, hcs⟩ := List.exists_cons_of_ne_nil whole.ne_nil
            have hdigits := whole.digitOf_lt
            rw [hcs, List.forall_mem_cons] at hdigits
            simp only [fractionChars, exponentChars, List.append_nil, hcs, List.tail_cons,
              any_isFloatMark_digits hdigits.2, Bool.false_eq_true] at hmark
        · cases h
      · obtain ⟨n, hn⟩ := eq_ok_of_map_whole h
        rw [readOctal_cons ho hO] at hn
        obtain ⟨digits, hchars, rfl, fits⟩ :=
          (readRadix_eq_ok_iff (by decide) (by decide) (by simp)).mp hn
        exact ⟨octal digits fits, by rw [spelling, hchars]⟩
      · obtain ⟨n, hn⟩ := eq_ok_of_map_whole h
        obtain ⟨hdigits, -⟩ := readDecimal_eq_ok_iff.mp hn
        have hne : cs ≠ [] := by
          rintro rfl
          cases hform
        exact ⟨decimal ⟨cs, hne, hdigits⟩ hzero, rfl⟩
  · cases h

/-- A sign is told from the digits after it. -/
lemma sign_append_injective {sign sign' : Option Char} (hsign : ∀ c ∈ sign, c = '+' ∨ c = '-')
    (hsign' : ∀ c ∈ sign', c = '+' ∨ c = '-') {ds ds' : Digits 10}
    (h : sign.toList ++ ds.chars = sign'.toList ++ ds'.chars) : sign = sign' ∧ ds = ds' := by
  have hno : ∀ {c : Char} {cs : List Char} {ds : Digits 10}, (c = '+' ∨ c = '-') →
      ds.chars ≠ c :: cs := by
    intro c cs ds hc hcs
    have hdigit := ne_of_isDigit (ds.isDigit (c := c) (by simp [hcs]))
    exact hc.elim hdigit.2.2.2.1 hdigit.2.2.2.2
  rcases sign with _ | c <;> rcases sign' with _ | c'
  · exact ⟨rfl, Digits.ext h⟩
  · exact absurd h (hno (hsign' c' rfl))
  · exact absurd h.symm (hno (hsign c rfl))
  · simp only [Option.toList_some, List.singleton_append, List.cons.injEq] at h
    exact ⟨congrArg some h.1, Digits.ext h.2⟩

/-- An exponent is determined by its characters. -/
lemma exponentChars_injective : Function.Injective exponentChars := by
  rintro (_ | e) (_ | e') h
  · rfl
  · cases h
  · cases h
  · rw [exponentChars, exponentChars, List.cons.injEq] at h
    obtain ⟨hsign, hdigits⟩ := sign_append_injective e.sign_eq e'.sign_eq h.2
    exact congrArg some (Exponent.ext h.1 hsign hdigits)

/-- A fraction is determined by its characters. -/
lemma fractionChars_injective : Function.Injective fractionChars := by
  rintro (_ | ds) (_ | ds') h
  · rfl
  · cases h
  · cases h
  · rw [fractionChars, fractionChars, List.cons.injEq] at h
    exact congrArg some (Digits.ext h.2)

/-- The parts of a floating-point numeral are determined by its characters. -/
lemma parts_injective {whole whole' : Digits 10} {fraction fraction' : Option (Digits 10)}
    {exponent exponent' : Option Exponent}
    (h : whole.chars ++ fractionChars fraction ++ exponentChars exponent
      = whole'.chars ++ fractionChars fraction' ++ exponentChars exponent') :
    whole = whole' ∧ fraction = fraction' ∧ exponent = exponent' := by
  -- the cuts find the mantissa and the whole part; what is left follows by cancellation
  have hmantissa : whole.chars ++ fractionChars fraction
      = whole'.chars ++ fractionChars fraction' := by
    have hcut := congrArg (fun cs => (cut isExponentMark cs).1) h
    simpa only [cut_exponent] using hcut
  have hwhole : whole.chars = whole'.chars := by
    have hcut := congrArg (fun cs => (cut (· == '.') cs).1) hmantissa
    simpa only [cut_point] using hcut
  refine ⟨Digits.ext hwhole, fractionChars_injective ?_, exponentChars_injective ?_⟩
  · rw [hwhole] at hmantissa
    exact List.append_cancel_left hmantissa
  · rw [hmantissa] at h
    exact List.append_cancel_left h

/-- The letter of a marker is no octal digit. -/
lemma chars_ne_letter_cons {ds : Digits 8} {letter : Char} (h : letter = 'o' ∨ letter = 'O')
    (cs : List Char) : ds.chars ≠ letter :: cs := by
  intro hcs
  have hlt := ds.digitOf_lt letter (by simp [hcs])
  rcases h with rfl | rfl <;> exact absurd hlt (by decide)

/-- No text spells two numerals. -/
lemma spelling_injective : Function.Injective spelling := by
  intro n n' h
  have hform : n.form = n'.form := by
    have hsome := congrArg Form.ofChars? h
    rw [ofChars?_spelling, ofChars?_spelling] at hsome
    exact Option.some.inj hsome
  cases n <;> cases n' <;> simp only [form, reduceCtorEq] at hform
  all_goals simp only [spelling, List.cons.injEq, true_and] at h
  case decimal.decimal => simpa using Digits.ext h
  case float.float => simpa using parts_injective h
  case octal.octal => simpa using Digits.ext h
  case octal.markedOctal hletter _ _ => exact absurd h (chars_ne_letter_cons hletter _)
  case markedOctal.octal hletter _ _ _ _ => exact absurd h.symm (chars_ne_letter_cons hletter _)
  case markedOctal.markedOctal => simpa using ⟨h.1, Digits.ext h.2⟩
  case hex.hex => simpa using ⟨h.1, Digits.ext h.2⟩

end Numeral

end Literal

end Abacus
