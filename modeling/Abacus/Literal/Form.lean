/-!
The forms of a number literal, and what can be wrong with one.

* `Literal.Form`: the four forms, each with the base of its digits.
* `Literal.classify`: the form that a text announces. It looks only far enough to tell the forms
  apart; whether the text is a literal of that form is for the reader.
* `Literal.Error`, `Literal.Error.message`: the causes of refusal and their wording.
-/

namespace Abacus

namespace Literal

/-- The form of a number literal. -/
inductive Form where
  | decimal
  | float
  | octal
  | hex
deriving DecidableEq

/-- The base of a form's digits. -/
def Form.radix : Form → Nat
  | decimal | float => 10
  | octal => 8
  | hex => 16

/-- The characters that tell a floating-point literal from a whole number. -/
def isFloatMark (c : Char) : Bool := c == '.' || c == 'e' || c == 'E'

/-- The form a text announces. The markers `0x` and `0o` come first, in either case; else a text
that starts with a digit is floating-point if it has a point or an exponent mark anywhere, octal if
its first digit is a zero with anything after it, and decimal otherwise. -/
def Form.ofChars? : List Char → Option Form
  | [] => none
  | '0' :: 'x' :: _ | '0' :: 'X' :: _ => some .hex
  | '0' :: 'o' :: _ | '0' :: 'O' :: _ => some .octal
  | c :: rest =>
    if !c.isDigit then none
    else if rest.any isFloatMark then some .float
    else if c == '0' && !rest.isEmpty then some .octal
    else some .decimal

/-- The form a text announces, if it announces one. -/
def classify (text : String) : Option Form := Form.ofChars? text.toList

/-- Why a text is not a number literal. -/
inductive Error where
  /-- There is no text. -/
  | empty
  /-- Nothing follows the marker `0x` or `0o`. -/
  | missingDigits (marker : String)
  /-- A character is not a digit of the base. -/
  | invalidDigit (digit : Char) (radix : Nat)
  /-- The digits after the marker write a number of more than 64 bits. -/
  | overflow (digits : String) (radix : Nat)
  /-- A text with a point or an exponent mark is not a floating-point literal. -/
  | malformedFloat (text : String)
deriving DecidableEq

/-- The wording of a cause. -/
def Error.message : Error → String
  | empty => "empty numeric literal"
  | missingDigits marker => String.join ["missing digits after `", marker, "` prefix"]
  | invalidDigit digit radix =>
    String.join ["invalid digit `", digit.toString, "` in base-", radix.repr, " literal"]
  | overflow digits radix =>
    String.join ["base-", radix.repr, " literal `", digits, "` does not fit in 64 bits"]
  | malformedFloat text => String.join ["malformed floating-point literal `", text, "`"]

end Literal

end Abacus
