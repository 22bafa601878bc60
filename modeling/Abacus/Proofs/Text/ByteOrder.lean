import Mathlib.Tactic
import Mathlib.Data.List.Lex
import Abacus.Proofs.Text.Encoding

/-!
The order of texts by their bytes.

UTF-8 writes the code point of a character in base 64, one digit to a byte. The first byte carries a
mark that tells how many bytes there are, and the marks are in the order of these numbers. So the
bytes of texts are in the order of their code points.

* `Precedes`: a row of bytes comes before another one, whatever follows the two.
* `digitBytes`: the digits of a number in base 64, with a mark on the first. Under one mark they are
  in the order of the numbers (`digitBytes_precedes`).
* `utf8EncodeChar_eq`: the encoding of a character by its digits. Under different marks the first
  bytes are in the order of the code points (`firstByte_lt`).
* `utf8Bytes_lt_iff`: the order of texts by their bytes is their order by code points.
-/

namespace Abacus

/-! ### Rows of bytes -/

/-- A row of bytes comes before another one, whatever follows the two. -/
def Precedes (bs bs' : List UInt8) : Prop := ∀ rest rest', bs ++ rest < bs' ++ rest'

lemma precedes_of_lt {b b' : UInt8} (h : b < b') (bs bs' : List UInt8) :
    Precedes (b :: bs) (b' :: bs') :=
  fun _ _ => List.Lex.rel h

lemma Precedes.append {bs bs' : List UInt8} (h : Precedes bs bs') (cs cs' : List UInt8) :
    Precedes (bs ++ cs) (bs' ++ cs') := by
  intro rest rest'
  rw [List.append_assoc, List.append_assoc]
  exact h (cs ++ rest) (cs' ++ rest')

lemma Precedes.append_left {bs bs' : List UInt8} (h : Precedes bs bs') (cs : List UInt8) :
    Precedes (cs ++ bs) (cs ++ bs') := by
  intro rest rest'
  rw [List.append_assoc, List.append_assoc]
  exact List.Lex.append_left _ (h rest rest') cs

lemma ofNat_lt_ofNat {n m : ℕ} (h : n < m) (hm : m < 256) : UInt8.ofNat n < UInt8.ofNat m := by
  rw [UInt8.lt_iff_toNat_lt, UInt8.toNat_ofNat_of_lt' hm, UInt8.toNat_ofNat_of_lt' (h.trans hm)]
  exact h

/-! ### Digits in base 64 -/

/-- The digits of a number in base 64, with `k` of them after the first, which holds the rest of the
number and a mark. -/
def digitBytes (mark : ℕ) : ℕ → ℕ → List UInt8
  | 0, n => [.ofNat (n + mark)]
  | k + 1, n => digitBytes mark k (n / 64) ++ [.ofNat (n % 64 + 128)]

lemma exists_digitBytes_eq_cons (mark k n : ℕ) :
    ∃ bs, digitBytes mark k n = .ofNat (n / 64 ^ k + mark) :: bs := by
  induction k generalizing n with
  | zero => exact ⟨[], by rw [digitBytes, pow_zero, Nat.div_one]⟩
  | succ k ih =>
      obtain ⟨bs, hbs⟩ := ih (n / 64)
      refine ⟨bs ++ [.ofNat (n % 64 + 128)], ?_⟩
      rw [digitBytes, hbs, Nat.div_div_eq_div_mul, pow_succ', List.cons_append]

/-- Under one mark the digits are in the order of the numbers. -/
lemma digitBytes_precedes {mark k n m : ℕ} (h : n < m) (hm : m / 64 ^ k + mark < 256) :
    Precedes (digitBytes mark k n) (digitBytes mark k m) := by
  induction k generalizing n m with
  | zero =>
      rw [pow_zero, Nat.div_one] at hm
      exact precedes_of_lt (ofNat_lt_ofNat (Nat.add_lt_add_right h mark) hm) [] []
  | succ k ih =>
      rw [digitBytes, digitBytes]
      rcases (Nat.div_le_div_right h.le : n / 64 ≤ m / 64).lt_or_eq with hlt | heq
      · rw [pow_succ', ← Nat.div_div_eq_div_mul] at hm
        exact (ih hlt hm).append _ _
      · -- all digits but the last are the same
        have hlast : n % 64 < m % 64 := by omega
        rw [heq]
        exact (precedes_of_lt (ofNat_lt_ofNat (by omega) (by omega)) [] []).append_left _

/-! ### Characters -/

/-- How many bytes of the encoding of a code point follow the first. -/
def trailCount (n : ℕ) : ℕ :=
  if n ≤ 0x7f then 0 else if n ≤ 0x7ff then 1 else if n ≤ 0xffff then 2 else 3

/-- The mark of the first byte, given how many follow. -/
def leadMark : ℕ → ℕ
  | 0 => 0
  | 1 => 0xc0
  | 2 => 0xe0
  | _ => 0xf0

/-- The first byte of the encoding of a code point. -/
def firstByte (n : ℕ) : ℕ := n / 64 ^ trailCount n + leadMark (trailCount n)

lemma trailCount_cases (n : ℕ) :
    n ≤ 0x7f ∧ trailCount n = 0 ∨ 0x7f < n ∧ n ≤ 0x7ff ∧ trailCount n = 1
    ∨ 0x7ff < n ∧ n ≤ 0xffff ∧ trailCount n = 2 ∨ 0xffff < n ∧ trailCount n = 3 := by
  unfold trailCount
  split_ifs <;> omega

lemma toNat_lt_of_char (c : Char) : c.toNat < 0x110000 := by
  rcases c.valid with h | ⟨-, h⟩
  · exact h.trans (by decide)
  · exact h

/-- The encoding of a character. -/
lemma utf8EncodeChar_eq (c : Char) :
    String.utf8EncodeChar c
      = digitBytes (leadMark (trailCount c.toNat)) (trailCount c.toNat) c.toNat := by
  have hlt := toNat_lt_of_char c
  rw [String.utf8EncodeChar]
  simp only [Char.toNat_val]
  generalize c.toNat = n at hlt ⊢
  unfold trailCount
  split_ifs with h₁ h₂ h₃
  · rfl
  · have hfirst : n / 64 % 32 = n / 64 := by omega
    rw [hfirst]
    rfl
  · have hfirst : n / 4096 % 16 = n / 64 / 64 := by omega
    rw [hfirst]
    rfl
  · have hfirst : n / 262144 % 8 = n / 64 / 64 / 64 := by omega
    have hsecond : n / 4096 % 64 = n / 64 / 64 % 64 := by omega
    rw [hfirst, hsecond]
    rfl

lemma firstByte_lt_size {n : ℕ} (hn : n < 0x110000) : firstByte n < 256 := by
  unfold firstByte
  obtain ⟨_, h⟩ | ⟨_, _, h⟩ | ⟨_, _, h⟩ | ⟨_, h⟩ := trailCount_cases n
  all_goals
    rw [h]
    simp only [leadMark]
    omega

/-- Where the numbers of bytes differ, the first bytes are in order. -/
lemma firstByte_lt {n m : ℕ} (h : n < m) (hne : trailCount n ≠ trailCount m) :
    firstByte n < firstByte m := by
  unfold firstByte
  obtain ⟨_, hn⟩ | ⟨_, _, hn⟩ | ⟨_, _, hn⟩ | ⟨_, hn⟩ := trailCount_cases n
  all_goals
    obtain ⟨_, hm⟩ | ⟨_, _, hm⟩ | ⟨_, _, hm⟩ | ⟨_, hm⟩ := trailCount_cases m
    all_goals
      rw [hn, hm] at hne ⊢
      simp only [leadMark]
      omega

/-- The encodings of characters are in the order of their code points. -/
lemma utf8EncodeChar_precedes {c d : Char} (h : c.toNat < d.toNat) :
    Precedes (String.utf8EncodeChar c) (String.utf8EncodeChar d) := by
  have hbyte : firstByte d.toNat < 256 := firstByte_lt_size (toNat_lt_of_char d)
  rw [utf8EncodeChar_eq, utf8EncodeChar_eq]
  by_cases hcount : trailCount c.toNat = trailCount d.toNat
  · rw [hcount]
    exact digitBytes_precedes h hbyte
  · obtain ⟨bs, hbs⟩ := exists_digitBytes_eq_cons (leadMark (trailCount c.toNat)) _ c.toNat
    obtain ⟨bs', hbs'⟩ := exists_digitBytes_eq_cons (leadMark (trailCount d.toNat)) _ d.toNat
    rw [hbs, hbs']
    exact precedes_of_lt (ofNat_lt_ofNat (firstByte_lt h hcount) hbyte) bs bs'

/-! ### Texts -/

/-- The bytes of a text in UTF-8. -/
def utf8Bytes (text : String) : List UInt8 := text.toUTF8.data.toList

/-- The code points of the characters of a text. -/
def codePoints (text : String) : List ℕ := text.toList.map Char.toNat

lemma encoding_lt_of_lt {cs ds : List Char} (h : cs.map Char.toNat < ds.map Char.toNat) :
    encoding cs < encoding ds := by
  induction cs generalizing ds with
  | nil =>
      cases ds with
      | nil => exact absurd h (List.lt_irrefl _)
      | cons d ds =>
          obtain ⟨bs, hbs⟩ := exists_digitBytes_eq_cons (leadMark (trailCount d.toNat)) _ d.toNat
          rw [encoding_cons, utf8EncodeChar_eq, hbs]
          exact List.Lex.nil
  | cons c cs ih =>
      cases ds with
      | nil => exact absurd h (List.not_lt_nil _)
      | cons d ds =>
          rw [List.map_cons, List.map_cons, List.cons_lt_cons_iff] at h
          rcases h with hlt | ⟨heq, hrest⟩
          · exact utf8EncodeChar_precedes hlt _ _
          · rw [Char.toNat_inj.mp heq]
            exact List.Lex.append_left _ (ih hrest) _

lemma utf8Bytes_lt_of_lt {a b : String} (h : codePoints a < codePoints b) :
    utf8Bytes a < utf8Bytes b := by
  have hlt := encoding_lt_of_lt h
  rwa [encoding_toList, encoding_toList] at hlt

/-- **The order of bytes is the order of code points.** One text comes before another one by its
bytes in UTF-8 exactly if it does by its code points. -/
theorem utf8Bytes_lt_iff (a b : String) :
    utf8Bytes a < utf8Bytes b ↔ codePoints a < codePoints b := by
  refine ⟨fun h => ?_, utf8Bytes_lt_of_lt⟩
  rcases lt_trichotomy (codePoints a) (codePoints b) with hlt | heq | hgt
  · exact hlt
  · have hab : a = b :=
      String.toList_inj.mp (List.map_injective_iff.mpr (fun _ _ => Char.toNat_inj.mp) heq)
    rw [hab] at h
    exact absurd h (List.lt_irrefl _)
  · exact absurd h (List.lt_asymm (utf8Bytes_lt_of_lt hgt))

end Abacus
