import Mathlib.Tactic
import Abacus.Proofs.Literal.Digits
import Abacus.Proofs.Text.Encoding

/-!
Number literals as rows of bytes.

Everything a reader looks for in a literal is a character of a single byte below 128. So the form of
a literal can be told from its bytes, and a literal can be divided at byte offsets.

* `Form.ofBytes?`, `ofBytes?_encoding`: the form told from the bytes is the form told from the
  characters.
* `divisions`: the byte offsets at which a literal is divided in order to be read.
* `isValid_of_mem_divisions`: all of them lie between two characters, whatever the text.
-/

namespace Abacus

namespace Literal

/-! ### The form of a row of bytes -/

/-- The decimal digits. -/
def decimalSigns : List Char := digitSigns.take 10

/-- The form that a row of bytes announces, by the same rules as for characters. -/
def Form.ofBytes? : List UInt8 → Option Form
  | [] => none
  | b :: rest =>
    if b = byteOf '0' && rest.head?.any (isByteOf ['x', 'X']) then some .hex
    else if b = byteOf '0' && rest.head?.any (isByteOf ['o', 'O']) then some .octal
    else if !isByteOf decimalSigns b then none
    else if rest.any (isByteOf ['.', 'e', 'E']) then some .float
    else if b = byteOf '0' && !rest.isEmpty then some .octal
    else some .decimal

lemma no_marker {letters cs : List Char} {c : Char}
    (h : ∀ l ∈ letters, ∀ ds, c = '0' → cs = l :: ds → False) :
    (decide (c = '0') && cs.head?.any letters.contains) = false := by
  rw [Bool.eq_false_iff, Ne, Bool.and_eq_true, decide_eq_true_eq]
  rintro ⟨hc, hany⟩
  rcases cs with _ | ⟨d, ds⟩
  · cases hany
  · exact h d (List.contains_iff_mem.mp hany) ds hc rfl

/-- The rules for the form of a text, with its first two characters tested instead of matched. -/
lemma ofChars?_cons_eq_ite (c : Char) (cs : List Char) :
    Form.ofChars? (c :: cs) =
      if c = '0' && cs.head?.any ['x', 'X'].contains then some .hex
      else if c = '0' && cs.head?.any ['o', 'O'].contains then some .octal
      else if !c.isDigit then none
      else if cs.any isFloatMark then some .float
      else if c = '0' && !cs.isEmpty then some .octal
      else some .decimal := by
  unfold Form.ofChars?
  split
  · next h => cases h
  · next h => cases h; rfl
  · next h => cases h; rfl
  · next h => cases h; rfl
  · next h => cases h; rfl
  · next c' cs' hx hX ho hO h =>
      cases h
      have hhex : (decide (c = '0') && cs.head?.any ['x', 'X'].contains) = false := by
        refine no_marker fun l hl ds hc hcs => ?_
        simp only [List.mem_cons, List.not_mem_nil, or_false] at hl
        rcases hl with rfl | rfl
        · exact hx ds hc hcs
        · exact hX ds hc hcs
      have hoctal : (decide (c = '0') && cs.head?.any ['o', 'O'].contains) = false := by
        refine no_marker fun l hl ds hc hcs => ?_
        simp only [List.mem_cons, List.not_mem_nil, or_false] at hl
        rcases hl with rfl | rfl
        · exact ho ds hc hcs
        · exact hO ds hc hcs
      rw [hhex, hoctal, if_neg Bool.false_ne_true, if_neg Bool.false_ne_true]
      rfl

/-- The decimal digits, one by one. -/
lemma contains_digits (c : Char) : decimalSigns.contains c = c.isDigit := by
  by_cases h : c.toNat < 128
  · exact forall_ascii (p := fun c => decimalSigns.contains c = c.isDigit) (by decide) c h
  · rw [isDigit_of_le (not_lt.mp h), contains_of_le (by decide) (not_lt.mp h)]

/-- The bytes of a text announce the form that its characters announce. -/
lemma ofBytes?_encoding (cs : List Char) : Form.ofBytes? (encoding cs) = Form.ofChars? cs := by
  cases cs with
  | nil => rfl
  | cons c cs =>
      have hmark : isFloatMark = ['.', 'e', 'E'].contains := by
        funext d
        rw [isFloatMark, List.contains_cons, List.contains_cons, List.contains_cons,
          List.contains_nil, Bool.or_false, Bool.or_assoc]
      rw [ofChars?_cons_eq_ite, hmark]
      by_cases hc : c.toNat < 128
      · have hzero : decide (byteOf c = byteOf '0') = decide (c = '0') :=
          decide_eq_decide.mpr (byteOf_inj hc (by decide))
        have hempty : (encoding cs).isEmpty = cs.isEmpty := by
          cases cs <;> simp
        rw [encoding_cons, utf8EncodeChar_of_lt hc, List.singleton_append, Form.ofBytes?, hzero,
          hempty, any_head?_encoding (by decide), any_head?_encoding (by decide),
          any_encoding (by decide), isByteOf_byteOf (by decide) hc, contains_digits]
      · -- neither a first byte nor a first character from 128 on is a digit
        obtain ⟨b, bs, hbs⟩ := List.exists_cons_of_ne_nil (String.utf8EncodeChar_ne_nil (c := c))
        have hb : 128 ≤ b.toNat := le_toNat_of_mem_utf8EncodeChar (not_lt.mp hc) (by simp [hbs])
        have hne : b ≠ byteOf '0' := by
          rintro rfl
          exact absurd hb (by decide)
        have hne' : c ≠ '0' := by
          rintro rfl
          exact hc (by decide)
        rw [encoding_cons, hbs, List.cons_append, Form.ofBytes?, isByteOf_of_le (by decide) hb,
          isDigit_of_le (not_lt.mp hc)]
        simp [hne, hne']

/-! ### The divisions of a literal -/

/-- The offsets on the two sides of the first byte that is one of the characters. -/
def around (chars : List Char) (bytes : List UInt8) : List ℕ :=
  match bytes.findIdx? (isByteOf chars) with
  | some i => [i, i + 1]
  | none => []

/-- The offsets at which the bytes of a literal are divided. The digits of a hexadecimal or octal
literal stand after its marker. A floating-point literal is divided around its exponent mark, what
stands before the mark around the point, and what stands after it behind a sign. -/
def divisions (bytes : List UInt8) : List ℕ :=
  match Form.ofBytes? bytes with
  | some .hex => [2]
  | some .octal => if bytes[1]?.any (isByteOf ['o', 'O']) then [2] else [1]
  | some .float =>
    let mark := bytes.findIdx (isByteOf ['e', 'E'])
    around ['e', 'E'] bytes ++ around ['.'] (bytes.take mark)
      ++ if bytes[mark + 1]?.any (isByteOf ['+', '-']) then [mark + 2] else []
  | some .decimal | none => []

/-- The sides of a byte found among the first bytes of a text are divisions of the text. -/
lemma isValid_of_mem_around {chars : List Char} (hchars : isAscii chars = true)
    {text : String} {n i : ℕ} (h : i ∈ around chars ((encoding text.toList).take n)) :
    (⟨i⟩ : String.Pos.Raw).IsValid text := by
  unfold around at h
  split at h
  · next k hk =>
      obtain ⟨hlt, hbyte, -⟩ := List.findIdx?_eq_some_iff_getElem.mp hk
      rw [List.length_take] at hlt
      rw [List.getElem_take] at hbyte
      have hget : (encoding text.toList)[k]?.any (isByteOf chars) = true := by
        rw [List.getElem?_eq_getElem (by omega), Option.any_some]
        exact hbyte
      have hvalid := isValid_of_isByteOf hchars hget
      simp only [List.mem_cons, List.not_mem_nil, or_false] at h
      rcases h with rfl | rfl
      · exact hvalid.1
      · exact hvalid.2
  · cases h

/-- The second byte of a hexadecimal literal is the letter of its marker. -/
lemma getElem?_one_of_hex {bytes : List UInt8} (h : Form.ofBytes? bytes = some .hex) :
    bytes[1]?.any (isByteOf ['x', 'X']) = true := by
  rcases bytes with _ | ⟨b, rest⟩
  · cases h
  · rw [Form.ofBytes?] at h
    split_ifs at h with hhex
    · rw [List.getElem?_cons_succ, ← List.head?_eq_getElem?]
      exact ((Bool.and_eq_true _ _).mp hhex).2
    all_goals cases h

/-- The first byte of an octal literal is a zero. -/
lemma getElem?_zero_of_octal {bytes : List UInt8} (h : Form.ofBytes? bytes = some .octal) :
    bytes[0]?.any (isByteOf ['0']) = true := by
  rcases bytes with _ | ⟨b, rest⟩
  · cases h
  · have hzero : isByteOf ['0'] b = decide (b = byteOf '0') := by
      simp [isByteOf]
    rw [List.getElem?_cons_zero, Option.any_some, hzero]
    rw [Form.ofBytes?] at h
    split_ifs at h with hhex hoctal hdigit hmark hlegacy
    · cases h
    · exact ((Bool.and_eq_true _ _).mp hoctal).1
    · cases h
    · exact ((Bool.and_eq_true _ _).mp hlegacy).1
    · cases h

/-- Whatever the text, the offsets at which its literal is divided lie between two characters. -/
lemma isValid_of_mem_divisions {text : String} {i : ℕ}
    (h : i ∈ divisions (encoding text.toList)) : (⟨i⟩ : String.Pos.Raw).IsValid text := by
  unfold divisions at h
  split at h
  · next hform =>
      rw [List.mem_singleton.mp h]
      exact (isValid_of_isByteOf (by decide) (getElem?_one_of_hex hform)).2
  · next hform =>
      split_ifs at h with hmarker
      · rw [List.mem_singleton.mp h]
        exact (isValid_of_isByteOf (by decide) hmarker).2
      · rw [List.mem_singleton.mp h]
        exact (isValid_of_isByteOf (by decide) (getElem?_zero_of_octal hform)).2
  · rw [List.mem_append, List.mem_append] at h
    rcases h with (h | h) | h
    · rw [← List.take_length (l := encoding text.toList)] at h
      exact isValid_of_mem_around (by decide) h
    · exact isValid_of_mem_around (by decide) h
    · split_ifs at h with hsign
      · rw [List.mem_singleton.mp h]
        exact (isValid_of_isByteOf (by decide) hsign).2
      · cases h
  · cases h
  · cases h

end Literal

end Abacus
