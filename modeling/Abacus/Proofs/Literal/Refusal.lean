import Mathlib.Tactic
import Abacus.Proofs.Literal.Reading

/-!
Why a text is refused as a number literal.

* `RefusedDigits`, `Marked`: what is wrong with digits of a base, and where the digits of an octal
  or hexadecimal literal start.
* `Refused`, `refused_of_readChars`: the ways in which a text is refused, form by form.
* `refusal_agrees_with_form`: the cause of a refusal names what is wrong with the text under the
  form that the text announces.
-/

namespace Abacus

namespace Literal

/-! ### Digits of a base -/

variable {radix : ℕ} {cs : List Char}

/-- What is wrong with digits of a base: a character that is not one of them, as long as those
before it write a number of at most 64 bits, or else that they write a greater one. -/
inductive RefusedDigits (radix : ℕ) (ds : List Char) : Error → Prop
  | invalidDigit {c : Char} (first : firstNonDigit? radix ds = some c)
      (fits : numberOf radix (leadingDigits radix ds) < 2 ^ 64) :
      RefusedDigits radix ds (.invalidDigit c radix)
  | overflow (exceeds : 2 ^ 64 ≤ numberOf radix (leadingDigits radix ds)) :
      RefusedDigits radix ds (.overflow (String.ofList ds) radix)

/-- Digits of a base are refused for what is wrong with them. -/
lemma readRadix_eq_error_iff (h1 : 1 ≤ radix) (h16 : radix ≤ 16) {cause : Error} :
    readRadix radix cs = .error cause ↔ RefusedDigits radix cs cause := by
  rw [readRadix_eq h1 h16]
  constructor
  · intro h
    split_ifs at h with hbound
    · cases h
      exact .overflow hbound
    · split at h
      · next c hc =>
          cases h
          exact .invalidDigit hc (not_le.mp hbound)
      · cases h
  · rintro (⟨hc, hfits⟩ | hexceeds)
    · rw [if_neg (not_le.mpr hfits), hc]
    · rw [if_pos hexceeds]

/-- After a marker digits are refused if there are none, else for what is wrong with them. -/
lemma readMarked_eq_error_iff (h1 : 1 ≤ radix) (h16 : radix ≤ 16) {marker : String}
    {cause : Error} :
    readMarked marker radix cs = .error cause ↔
      cs = [] ∧ cause = .missingDigits marker ∨ cs ≠ [] ∧ RefusedDigits radix cs cause := by
  rw [readMarked]
  split_ifs with hcs
  · obtain rfl := List.isEmpty_iff.mp hcs
    simp [eq_comm]
  · have hne : cs ≠ [] := by simpa using hcs
    rw [readRadix_eq_error_iff h1 h16]
    simp [hne]

/-- A whole number is refused for its first character that is not a decimal digit. -/
lemma readDecimal_eq_error_iff {cause : Error} :
    readDecimal cs = .error cause ↔
      ∃ c, firstNonDigit? 10 cs = some c ∧ cause = .invalidDigit c 10 := by
  have hfirst : cs.find? (!·.isDigit) = firstNonDigit? 10 cs := by
    refine congrArg (List.find? · cs) (funext fun c => ?_)
    rw [Bool.eq_iff_iff, Bool.not_eq_true', Bool.eq_false_iff, Ne, ← digitOf_lt_ten_iff, not_lt,
      decide_eq_true_iff]
  rw [readDecimal, hfirst]
  split
  · next c hc => rw [hc]; simp [eq_comm]
  · next hnone => rw [hnone]; simp

/-! ### Forms -/

/-- The marker of a form in lower case; the decimal forms have none. -/
def Form.marker : Form → String
  | decimal | float => ""
  | octal => "0o"
  | hex => "0x"

/-- What stands after the marker of an octal or hexadecimal literal. The zero that an octal
literal starts with is a marker only if something follows it. -/
inductive Marked : Form → List Char → List Char → Prop
  | hex {letter : Char} {ds : List Char} (letter_eq : letter = 'x' ∨ letter = 'X') :
      Marked .hex ('0' :: letter :: ds) ds
  | octal {letter : Char} {ds : List Char} (letter_eq : letter = 'o' ∨ letter = 'O') :
      Marked .octal ('0' :: letter :: ds) ds
  | leadingZero {d : Char} {ds : List Char} (ne_lower : d ≠ 'o') (ne_upper : d ≠ 'O') :
      Marked .octal ('0' :: d :: ds) (d :: ds)

/-- The ways in which a text is refused, by the form that it announces. -/
inductive Refused (cs : List Char) : Option Form → Error → Prop
  | formless : Refused cs none (refusal cs)
  | decimal {c : Char} (first : firstNonDigit? 10 cs = some c) :
      Refused cs (some .decimal) (.invalidDigit c 10)
  | float : Refused cs (some .float) (.malformedFloat (String.ofList cs))
  | missingDigits {form : Form} (marked : Marked form cs []) :
      Refused cs (some form) (.missingDigits form.marker)
  | digits {form : Form} {ds : List Char} {cause : Error} (marked : Marked form cs ds)
      (refused : RefusedDigits form.radix ds cause) : Refused cs (some form) cause

variable {ds : List Char} {form : Form} {cause : Error}

/-- A whole number is refused where its reader refuses it. -/
lemma eq_error_of_map_whole {r : Except Error ℕ} (h : whole <$> r = .error cause) :
    r = .error cause := by
  cases r with
  | ok n => cases h
  | error e => exact congrArg Except.error (Except.error.inj h)

/-- Digits that are refused after a marker are a way in which the text is. -/
lemma Marked.refused (marked : Marked form cs ds)
    (h : ds = [] ∧ cause = .missingDigits form.marker
      ∨ ds ≠ [] ∧ RefusedDigits form.radix ds cause) : Refused cs (some form) cause := by
  obtain ⟨rfl, rfl⟩ | ⟨-, hdigits⟩ := h
  · exact .missingDigits marked
  · exact .digits marked hdigits

/-- What is refused is refused in one of these ways. -/
lemma refused_of_readChars (h : readChars cs = .error cause) :
    Refused cs (Form.ofChars? cs) cause := by
  rw [readChars] at h
  split at h
  · next form hform =>
      rw [hform]
      rcases ofChars?_cases hform with ⟨rfl, l, ds, hl, rfl⟩ | ⟨rfl, l, ds, hl, rfl⟩
        | ⟨rfl, -⟩ | ⟨rfl, l, ds, ho, hO, rfl⟩ | ⟨rfl, -⟩
      · have hread : readMarked "0x" 16 ds = .error cause := eq_error_of_map_whole h
        exact (Marked.hex hl).refused ((readMarked_eq_error_iff (by decide) (by decide)).mp hread)
      · have hread : readMarked "0o" 8 ds = .error cause := by
          rcases hl with rfl | rfl <;> exact eq_error_of_map_whole h
        exact (Marked.octal hl).refused
          ((readMarked_eq_error_iff (by decide) (by decide)).mp hread)
      · rw [readForm, readFloat] at h
        split at h
        · cases h
        · cases h
          exact .float
      · have hread : readOctal ('0' :: l :: ds) = .error cause := eq_error_of_map_whole h
        rw [readOctal_cons ho hO, readRadix_eq_error_iff (by decide) (by decide)] at hread
        exact .digits (.leadingZero ho hO) hread
      · obtain ⟨c, hc, rfl⟩ := readDecimal_eq_error_iff.mp (eq_error_of_map_whole h)
        exact .decimal hc
  · next hnone =>
      rw [hnone]
      cases h
      exact .formless

/-- A value is refused where the exact number is. -/
lemma readChars_eq_error_of_value {text : String} (h : value text = .error cause) :
    readChars text.toList = .error cause := by
  rw [value, read] at h
  cases hread : readChars text.toList with
  | ok d => rw [hread] at h; cases h
  | error e => rw [hread] at h; exact congrArg Except.error (Except.error.inj h)

/-- Only the empty text is refused as empty. -/
lemma Refused.eq_nil {announced : Option Form} (h : Refused cs announced .empty) : cs = [] := by
  generalize hcause : Error.empty = cause at h
  cases h with
  | formless => cases cs with
    | nil => rfl
    | cons c cs => cases hcause
  | decimal first => cases hcause
  | float => cases hcause
  | missingDigits marked => cases hcause
  | digits marked refused => cases refused <;> cases hcause

/-- Digits are missing only after a bare marker. -/
lemma Refused.eq_marker {announced : Option Form} {marker : String}
    (h : Refused cs announced (.missingDigits marker)) :
    marker = "0x" ∧ (cs = ['0', 'x'] ∨ cs = ['0', 'X'])
    ∨ marker = "0o" ∧ (cs = ['0', 'o'] ∨ cs = ['0', 'O']) := by
  generalize hcause : Error.missingDigits marker = cause at h
  cases h with
  | formless => cases cs <;> cases hcause
  | decimal first => cases hcause
  | float => cases hcause
  | missingDigits marked =>
      cases hcause
      cases marked with
      | hex hl => exact Or.inl ⟨rfl, by simpa using hl⟩
      | octal hl => exact Or.inr ⟨rfl, by simpa using hl⟩
  | digits marked refused => cases refused <;> cases hcause

/-- **Why a text is refused.** The cause of a refusal agrees with the form that the text announces.
Exactly the empty text is refused as empty. A text without a form is refused for its first
character, a whole number for the first one that is not a decimal digit, and a floating-point
literal as a whole. Digits are missing exactly after a bare marker; any other octal or hexadecimal
literal is refused for the first character after its marker that is not a digit of its base, or
for a number of more than 64 bits, and then with everything after the marker. A zero alone is a
whole number, not a marker. -/
theorem refusal_agrees_with_form (text : String) (cause : Error) (h : value text = .error cause) :
    (cause = .empty ↔ text = "")
    ∧ (∀ c cs, text.toList = c :: cs → classify text = none → cause = .invalidDigit c 10)
    ∧ (classify text = some .decimal →
        ∃ c, firstNonDigit? 10 text.toList = some c ∧ cause = .invalidDigit c 10)
    ∧ (classify text = some .float → cause = .malformedFloat text)
    ∧ (∀ marker, cause = .missingDigits marker ↔
        marker = "0x" ∧ (text = "0x" ∨ text = "0X") ∨ marker = "0o" ∧ (text = "0o" ∨ text = "0O"))
    ∧ (∀ form, classify text = some form → form = .hex ∨ form = .octal →
        (∃ marker, cause = .missingDigits marker)
        ∨ ∃ ds, Marked form text.toList ds ∧ RefusedDigits form.radix ds cause)
    ∧ classify "0" = some .decimal ∧ value "0" = .ok .zero := by
  have hrefused : Refused text.toList (classify text) cause :=
    refused_of_readChars (readChars_eq_error_of_value h)
  have htext : ∀ {cs : List Char}, text.toList = cs → text = String.ofList cs := by
    rintro _ rfl
    rw [String.ofList_toList]
  refine ⟨⟨?_, ?_⟩, ?_, ?_, ?_, fun marker => ⟨?_, ?_⟩, ?_, by decide +kernel, by decide +kernel⟩
  · rintro rfl
    exact htext hrefused.eq_nil
  · rintro rfl
    exact (Except.error.inj h).symm
  · intro c cs hcs hnone
    rw [hnone, hcs] at hrefused
    cases hrefused
    rfl
  · intro hform
    rw [hform] at hrefused
    cases hrefused with
    | decimal first => exact ⟨_, first, rfl⟩
    | missingDigits marked => cases marked
    | digits marked refused => cases marked
  · intro hform
    rw [hform] at hrefused
    cases hrefused with
    | float => rw [String.ofList_toList]
    | missingDigits marked => cases marked
    | digits marked refused => cases marked
  · rintro rfl
    exact hrefused.eq_marker.imp (And.imp_right (Or.imp htext htext))
      (And.imp_right (Or.imp htext htext))
  · -- the four bare markers, one by one
    rintro (⟨rfl, rfl | rfl⟩ | ⟨rfl, rfl | rfl⟩)
    all_goals exact (Except.error.inj h).symm
  · rintro form hform hradix
    rw [hform] at hrefused
    cases hrefused with
    | decimal first => simp at hradix
    | float => simp at hradix
    | missingDigits marked => exact Or.inl ⟨_, rfl⟩
    | digits marked refused => exact Or.inr ⟨_, marked, refused⟩

/-- The theorem for a text that announces an octal number: the point in it makes it no
floating-point literal and is itself what is refused. -/
theorem refusal_agrees_with_form_octal_point :
    value "0o1.5" = .error (.invalidDigit '.' 8)
    ∧ ∃ ds, Marked .octal "0o1.5".toList ds ∧ RefusedDigits 8 ds (.invalidDigit '.' 8) := by
  have hvalue : value "0o1.5" = .error (.invalidDigit '.' 8) := by decide +kernel
  obtain ⟨-, -, -, -, -, hdigits, -⟩ := refusal_agrees_with_form "0o1.5" _ hvalue
  refine ⟨hvalue, (hdigits .octal (by decide +kernel) (Or.inr rfl)).resolve_left ?_⟩
  rintro ⟨marker, hmarker⟩
  cases hmarker

end Literal

end Abacus
