import Abacus.Literal.Form
import Abacus.Decimal.Basic

/-!
Reading number literals.

* `Literal.readRadix`: the digits of an octal or hexadecimal literal, at most 64 bits of them.
* `Literal.readDecimal`, `Literal.readFloat`: the other two forms.
* `Literal.read`: the exact number that a text writes, whichever form it has, or the cause of its
  refusal; `Literal.value` is the double nearest to it.
-/

namespace Abacus

namespace Literal

/-! ### Digits -/

/-- The value of a hexadecimal digit; letters count in either case. -/
def hexDigit? (c : Char) : Option Nat :=
  if c.isDigit then some (c.toNat - '0'.toNat)
  else if 'a' ≤ c ∧ c ≤ 'f' then some (c.toNat - 'a'.toNat + 10)
  else if 'A' ≤ c ∧ c ≤ 'F' then some (c.toNat - 'A'.toNat + 10)
  else none

/-- The value of a digit in the given base, which is at most sixteen. -/
def digitValue? (radix : Nat) (c : Char) : Option Nat := (hexDigit? c).filter (· < radix)

theorem digitValue?_lt {radix : Nat} {c : Char} {d : Nat} (h : digitValue? radix c = some d) :
    d < radix := by
  simpa using (Option.filter_eq_some_iff.1 h).2

/-- Continues a number that has the value `n` so far. The number leaves 64 bits at its first
digit that takes it to `2 ^ 64`, and that digit or a character that is no digit ends the reading,
whichever comes first. The text of an overflow is `digits`. -/
def accumulate (radix : Nat) (digits : String) : List Char → Nat → Except Error Nat
  | [], n => .ok n
  | c :: cs, n =>
    match digitValue? radix c with
    | none => .error (.invalidDigit c radix)
    | some d =>
      if n * radix + d < UInt64.size then accumulate radix digits cs (n * radix + d)
      else .error (.overflow digits radix)

/-- The number written by digits of the given base. -/
def readRadix (radix : Nat) (digits : List Char) : Except Error Nat :=
  accumulate radix (String.ofList digits) digits 0

/-- The number written by digits after a marker, of which there must be some. -/
def readMarked (marker : String) (radix : Nat) (digits : List Char) : Except Error Nat :=
  if digits.isEmpty then .error (.missingDigits marker) else readRadix radix digits

/-- The number written by decimal digits, of which there must be some. -/
def digits? (cs : List Char) : Option Nat :=
  if !cs.isEmpty && cs.all Char.isDigit then some (Nat.ofDigitChars 10 cs 0) else none

/-! ### The decimal forms -/

/-- Reads a whole number. -/
def readDecimal (cs : List Char) : Except Error Nat :=
  match cs.find? (!·.isDigit) with
  | some c => .error (.invalidDigit c 10)
  | none => .ok (Nat.ofDigitChars 10 cs 0)

/-- The text before the first mark, and the text after it if there is a mark. -/
def cut (isMark : Char → Bool) (cs : List Char) : List Char × Option (List Char) :=
  (cs.takeWhile (!isMark ·), (cs.dropWhile (!isMark ·)).tail?)

/-- Without its mark, nothing is cut. -/
theorem cut_of_all_not {isMark : Char → Bool} {cs : List Char} (h : ∀ c ∈ cs, isMark c = false) :
    cut isMark cs = (cs, none) := by
  induction cs with
  | nil => rfl
  | cons c cs ih =>
    have hc : isMark c = false := h c (by simp)
    have := ih fun d hd => h d (List.mem_cons_of_mem c hd)
    simp_all [cut]

/-- The first mark divides the text. -/
theorem cut_append_cons {isMark : Char → Bool} {cs : List Char} {m : Char} (rest : List Char)
    (h : ∀ c ∈ cs, isMark c = false) (hm : isMark m = true) :
    cut isMark (cs ++ m :: rest) = (cs, some rest) := by
  induction cs with
  | nil => simp [cut, hm]
  | cons c cs ih =>
    have hc : isMark c = false := h c (by simp)
    have := ih fun d hd => h d (List.mem_cons_of_mem c hd)
    simp_all [cut]

/-- The characters that mark an exponent. -/
def isExponentMark (c : Char) : Bool := c == 'e' || c == 'E'

/-- The exponent written after the exponent mark, with one optional sign; zero without a mark. -/
def exponent? : Option (List Char) → Option Int
  | none => some 0
  | some ('-' :: cs) => (digits? cs).map fun (n : Nat) => -(n : Int)
  | some ('+' :: cs) => (digits? cs).map Int.ofNat
  | some cs => (digits? cs).map Int.ofNat

/-- The digits after the point, of which there must be some if there is a point. -/
def fraction? : Option (List Char) → Option (List Char)
  | none => some []
  | some cs => (digits? cs).map fun _ => cs

/-- The number written by a floating-point literal: the exponent mark divides first, then the
point divides what stands before it. -/
def float? (cs : List Char) : Option Decimal :=
  let (mantissa, exponent) := cut isExponentMark cs
  let (whole, fraction) := cut (· == '.') mantissa
  match digits? whole, fraction? fraction, exponent? exponent with
  | some n, some fs, some e => some ⟨Nat.ofDigitChars 10 fs n, e - fs.length⟩
  | _, _, _ => none

/-- Reads a floating-point literal. -/
def readFloat (cs : List Char) : Except Error Decimal :=
  match float? cs with
  | some d => .ok d
  | none => .error (.malformedFloat (String.ofList cs))

/-! ### Literals -/

/-- A whole number as a decimal. -/
def whole (n : Nat) : Decimal := ⟨n, 0⟩

/-- Reads an octal literal, marked by `0o` or by its leading zero alone. -/
def readOctal : List Char → Except Error Nat
  | _ :: 'o' :: ds | _ :: 'O' :: ds => readMarked "0o" 8 ds
  | cs => readRadix 8 (cs.drop 1)

/-- Reads a literal of the given form. -/
def readForm (cs : List Char) : Form → Except Error Decimal
  | .decimal => whole <$> readDecimal cs
  | .float => readFloat cs
  | .octal => whole <$> readOctal cs
  | .hex => whole <$> readMarked "0x" 16 (cs.drop 2)

/-- Why a text that announces no form is refused. -/
def refusal : List Char → Error
  | [] => .empty
  | c :: _ => .invalidDigit c 10

/-- The exact number that the characters of a literal write. -/
def readChars (cs : List Char) : Except Error Decimal :=
  match Form.ofChars? cs with
  | some form => readForm cs form
  | none => .error (refusal cs)

/-- The exact number a text writes. -/
def read (text : String) : Except Error Decimal := readChars text.toList

/-- The double nearest to the number a text writes. -/
def value (text : String) : Except Error Double := Decimal.toDouble <$> read text

end Literal

end Abacus
