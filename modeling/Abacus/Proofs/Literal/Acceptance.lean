import Mathlib.Tactic
import Abacus.Proofs.Literal.Bytes
import Abacus.Proofs.Literal.Reading

/-!
Which texts are number literals.

* `mem_literalChars_of_mem_spelling`: the characters that can occur in a numeral.
* `exists_value_eq_ok_iff`: a text has a value exactly if it is the spelling of a numeral.
* `isOk_value_iff_existsUnique_numeral`: a text is accepted exactly if it spells one numeral and no
  other; its form is the numeral's, on characters and on bytes alike, every other text is refused,
  and no text is divided inside a character.
-/

namespace Abacus

namespace Literal

/-- The characters of number literals. -/
def literalChars : List Char :=
  digitSigns ++ ['A', 'B', 'C', 'D', 'E', 'F', 'x', 'X', 'o', 'O', '.', '+', '-']

lemma mem_literalChars_of_digitOf_lt {c : Char} (h : digitOf c < 16) : c ∈ literalChars := by
  have hc : c.toNat < 128 := by
    by_contra hc
    rw [digitOf_of_le (not_lt.mp hc)] at h
    omega
  exact forall_ascii (p := fun c => digitOf c < 16 → c ∈ literalChars) (by decide) c hc h

namespace Numeral

lemma mem_literalChars_of_mem_fractionChars {fraction : Option (Digits 10)} {c : Char}
    (h : c ∈ fractionChars fraction) : c ∈ literalChars := by
  cases fraction with
  | none => cases h
  | some ds =>
      rcases List.mem_cons.mp h with rfl | hc
      · decide
      · exact mem_literalChars_of_digitOf_lt ((ds.digitOf_lt c hc).trans (by decide))

lemma mem_literalChars_of_mem_exponentChars {exponent : Option Exponent} {c : Char}
    (h : c ∈ exponentChars exponent) : c ∈ literalChars := by
  cases exponent with
  | none => cases h
  | some e =>
      rcases List.mem_cons.mp h with rfl | hc
      · rcases e.mark_eq with h | h <;> rw [h] <;> decide
      · rcases List.mem_append.mp hc with hc | hc
        · rcases e.sign_eq c (Option.mem_toList.mp hc) with rfl | rfl <;> decide
        · exact mem_literalChars_of_digitOf_lt ((e.digits.digitOf_lt c hc).trans (by decide))

/-- A numeral is made of characters of number literals. -/
lemma mem_literalChars_of_mem_spelling (n : Numeral) {c : Char} (h : c ∈ n.spelling) :
    c ∈ literalChars := by
  cases n with
  | decimal ds leading =>
      exact mem_literalChars_of_digitOf_lt ((ds.digitOf_lt c h).trans (by decide))
  | float whole fraction exponent marked =>
      rcases List.mem_append.mp h with h | h
      · rcases List.mem_append.mp h with h | h
        · exact mem_literalChars_of_digitOf_lt ((whole.digitOf_lt c h).trans (by decide))
        · exact mem_literalChars_of_mem_fractionChars h
      · exact mem_literalChars_of_mem_exponentChars h
  | octal ds fits =>
      rcases List.mem_cons.mp h with rfl | h
      · decide
      · exact mem_literalChars_of_digitOf_lt ((ds.digitOf_lt c h).trans (by decide))
  | markedOctal letter letter_eq ds fits =>
      rcases List.mem_cons.mp h with rfl | h
      · decide
      · rcases List.mem_cons.mp h with rfl | h
        · rcases letter_eq with rfl | rfl <;> decide
        · exact mem_literalChars_of_digitOf_lt ((ds.digitOf_lt c h).trans (by decide))
  | hex letter letter_eq ds fits =>
      rcases List.mem_cons.mp h with rfl | h
      · decide
      · rcases List.mem_cons.mp h with rfl | h
        · rcases letter_eq with rfl | rfl <;> decide
        · exact mem_literalChars_of_digitOf_lt (ds.digitOf_lt c h)

/-- A numeral starts with a decimal digit. -/
lemma exists_spelling_eq_cons (n : Numeral) : ∃ c cs, n.spelling = c :: cs ∧ c.isDigit = true := by
  cases n with
  | decimal ds leading =>
      obtain ⟨c, cs, hcs⟩ := List.exists_cons_of_ne_nil ds.ne_nil
      exact ⟨c, cs, hcs, ds.isDigit (by simp [hcs])⟩
  | float whole fraction exponent marked =>
      obtain ⟨c, cs, hcs⟩ := List.exists_cons_of_ne_nil whole.ne_nil
      refine ⟨c, cs ++ fractionChars fraction ++ exponentChars exponent, ?_,
        whole.isDigit (by simp [hcs])⟩
      rw [spelling, hcs, List.cons_append, List.cons_append]
  | octal ds fits => exact ⟨'0', ds.chars, rfl, rfl⟩
  | markedOctal letter letter_eq ds fits => exact ⟨'0', letter :: ds.chars, rfl, rfl⟩
  | hex letter letter_eq ds fits => exact ⟨'0', letter :: ds.chars, rfl, rfl⟩

end Numeral

/-- A text has a value exactly if it is the spelling of a numeral. -/
lemma exists_value_eq_ok_iff (text : String) :
    (∃ x, value text = .ok x) ↔ ∃ n : Numeral, n.spelling = text.toList := by
  constructor
  · rintro ⟨x, hx⟩
    rw [value, read] at hx
    cases hread : readChars text.toList with
    | ok d => exact Numeral.exists_spelling_eq hread
    | error cause => rw [hread] at hx; cases hx
  · rintro ⟨n, hn⟩
    exact ⟨n.toDecimal.toDouble, by rw [value, read, ← hn, n.readChars_spelling]; rfl⟩

/-- **The number literals.** A text is read exactly if it is the spelling of one numeral and no
other, and every other text is refused. The form it announces is then the numeral's, and the same
form is told from its bytes. What is read consists of the characters of number literals and starts
with a digit. Whatever the text, the offsets at which it is divided lie between characters. -/
theorem isOk_value_iff_existsUnique_numeral (text : String) :
    ((∃ x, value text = .ok x) ↔ ∃! n : Numeral, n.spelling = text.toList)
    ∧ ((∃ cause, value text = .error cause) ↔ ¬∃ n : Numeral, n.spelling = text.toList)
    ∧ (∀ n : Numeral, n.spelling = text.toList →
        classify text = some n.form
        ∧ (∃ c cs, text.toList = c :: cs ∧ c.isDigit = true)
        ∧ ∀ c ∈ text.toList, c ∈ literalChars)
    ∧ Form.ofBytes? (encoding text.toList) = classify text
    ∧ ∀ i ∈ divisions (encoding text.toList), (⟨i⟩ : String.Pos.Raw).IsValid text := by
  refine ⟨?_, ?_, ?_, ofBytes?_encoding text.toList, fun i hi => isValid_of_mem_divisions hi⟩
  · rw [exists_value_eq_ok_iff]
    constructor
    · rintro ⟨n, hn⟩
      exact ⟨n, hn, fun n' hn' => Numeral.spelling_injective (hn'.trans hn.symm)⟩
    · rintro ⟨n, hn, -⟩
      exact ⟨n, hn⟩
  · rw [← exists_value_eq_ok_iff]
    cases value text <;> simp
  · intro n hn
    refine ⟨?_, ?_, ?_⟩
    · rw [classify, ← hn, n.ofChars?_spelling]
    · rw [← hn]
      exact n.exists_spelling_eq_cons
    · rw [← hn]
      exact fun c hc => n.mem_literalChars_of_mem_spelling hc

/-- The theorem at a floating-point numeral whose whole part starts with a zero, and at the
division before its exponent mark. -/
theorem isOk_value_leading_zero_float :
    (∃ n : Numeral, n.spelling = "09.5e-1".toList ∧ classify "09.5e-1" = some n.form)
    ∧ 4 ∈ divisions (encoding "09.5e-1".toList)
    ∧ (⟨4⟩ : String.Pos.Raw).IsValid "09.5e-1" := by
  obtain ⟨-, -, hform, -, hvalid⟩ := isOk_value_iff_existsUnique_numeral "09.5e-1"
  have hdivision : 4 ∈ divisions (encoding "09.5e-1".toList) := by decide +kernel
  have hspelling : (Numeral.float (.ofChars 10 ['0', '9'] (by decide))
      (some (.ofChars 10 ['5'] (by decide)))
      (some ⟨'e', Or.inl rfl, some '-', by simp, .ofChars 10 ['1'] (by decide)⟩)
      (Or.inl rfl)).spelling = "09.5e-1".toList := by decide +kernel
  exact ⟨⟨_, hspelling, (hform _ hspelling).1⟩, hdivision, hvalid 4 hdivision⟩

end Literal

end Abacus
