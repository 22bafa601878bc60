import Mathlib.Data.Rat.Init
import Mathlib.Tactic
import Abacus.Literal.Form

/-!
The written forms of a number, said without a reader.

* `digitOf`, `numberOf`: the value of a digit, and the number that a row of digits writes in a
  base, each digit counting with its place.
* `Digits`: a row of digits of a base, of which there is at least one.
* `Numeral`: a number as it can be written, in five spellings. A decimal numeral starts with zero
  only if it is zero; a floating-point one has a fraction or an exponent; octal and hexadecimal
  ones write a number of at most 64 bits.
* `Numeral.spelling`, `Numeral.form`, `Numeral.denotes`: the characters of a numeral, the form it
  belongs to, and the rational number it denotes.
-/

namespace Abacus

namespace Literal

/-! ### Digits -/

/-- The signs of the digits in the order of their values. -/
def digitSigns : List Char :=
  ['0', '1', '2', '3', '4', '5', '6', '7', '8', '9', 'a', 'b', 'c', 'd', 'e', 'f']

/-- The value of a digit, letters counting in either case; sixteen for all other characters. -/
def digitOf (c : Char) : ℕ := digitSigns.idxOf c.toLower

/-- The number that digits write: each counts with the power of the base at its place. -/
def numberOf (radix : ℕ) : List Char → ℕ
  | [] => 0
  | c :: cs => digitOf c * radix ^ cs.length + numberOf radix cs

/-- A row of digits of a base. -/
@[ext] structure Digits (radix : ℕ) where
  chars : List Char
  ne_nil : chars ≠ []
  digitOf_lt : ∀ c ∈ chars, digitOf c < radix

/-- A row of digits whose well-formedness is a matter of evaluation. -/
def Digits.ofChars (radix : ℕ) (chars : List Char)
    (h : (!chars.isEmpty && chars.all (digitOf · < radix)) = true) : Digits radix where
  chars := chars
  ne_nil := by
    rintro rfl
    cases h
  digitOf_lt c hc :=
    of_decide_eq_true (List.all_eq_true.mp (Bool.and_eq_true_iff.mp h).2 c hc)

/-- The number that a row of digits writes. -/
def Digits.value {radix : ℕ} (ds : Digits radix) : ℕ := numberOf radix ds.chars

/-! ### Numerals -/

/-- The exponent of a floating-point numeral, with its mark. -/
@[ext] structure Exponent where
  mark : Char
  mark_eq : mark = 'e' ∨ mark = 'E'
  sign : Option Char
  sign_eq : ∀ c ∈ sign, c = '+' ∨ c = '-'
  digits : Digits 10

namespace Exponent

/-- The characters of an exponent after its mark. -/
def tail (e : Exponent) : List Char := e.sign.toList ++ e.digits.chars

/-- The power of ten that an exponent stands for. -/
def value (e : Exponent) : ℤ := if e.sign = some '-' then -e.digits.value else e.digits.value

end Exponent

/-- A number as it can be written. -/
inductive Numeral where
  /-- A whole number in base ten. -/
  | decimal (digits : Digits 10)
      (leading : digits.chars = ['0'] ∨ digits.chars.head? ≠ some '0')
  /-- A number in base ten with a fraction, an exponent or both. -/
  | float (whole : Digits 10) (fraction : Option (Digits 10)) (exponent : Option Exponent)
      (marked : fraction.isSome ∨ exponent.isSome)
  /-- A number in base eight after a zero. -/
  | octal (digits : Digits 8) (fits : digits.value < 2 ^ 64)
  /-- A number in base eight after the marker `0o`. -/
  | markedOctal (letter : Char) (letter_eq : letter = 'o' ∨ letter = 'O') (digits : Digits 8)
      (fits : digits.value < 2 ^ 64)
  /-- A number in base sixteen after the marker `0x`. -/
  | hex (letter : Char) (letter_eq : letter = 'x' ∨ letter = 'X') (digits : Digits 16)
      (fits : digits.value < 2 ^ 64)

namespace Numeral

/-- The fraction of a floating-point numeral with its point. -/
def fractionChars : Option (Digits 10) → List Char
  | none => []
  | some ds => '.' :: ds.chars

/-- The exponent of a floating-point numeral with its mark. -/
def exponentChars : Option Exponent → List Char
  | none => []
  | some e => e.mark :: e.tail

/-- The characters of a numeral. -/
def spelling : Numeral → List Char
  | decimal ds _ => ds.chars
  | float whole fraction exponent _ =>
    whole.chars ++ fractionChars fraction ++ exponentChars exponent
  | octal ds _ => '0' :: ds.chars
  | markedOctal letter _ ds _ | hex letter _ ds _ => '0' :: letter :: ds.chars

/-- The form that a numeral belongs to. -/
def form : Numeral → Form
  | decimal .. => .decimal
  | float .. => .float
  | octal .. | markedOctal .. => .octal
  | hex .. => .hex

/-- The part of one that a fraction denotes. -/
def fractionValue : Option (Digits 10) → ℚ
  | none => 0
  | some ds => ds.value / 10 ^ ds.chars.length

/-- The exponent of the power of ten that a numeral is scaled by. -/
def exponentValue : Option Exponent → ℤ
  | none => 0
  | some e => e.value

/-- The number that a numeral denotes. -/
def denotes : Numeral → ℚ
  | decimal ds _ => ds.value
  | float whole fraction exponent _ =>
    (whole.value + fractionValue fraction) * 10 ^ exponentValue exponent
  | octal ds _ | markedOctal _ _ ds _ => ds.value
  | hex _ _ ds _ => ds.value

end Numeral

end Literal

end Abacus
