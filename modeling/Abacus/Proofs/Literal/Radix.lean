import Mathlib.Tactic
import Abacus.Proofs.Literal.Refusal

/-!
The digits of a base, read into 64 bits.

* `leadingDigits_append`, `firstNonDigit?_append`: a text divided where its digits end.
* `readRadix_replicate_zero_append`: zeros in front change nothing but the text of an overflow.
* `numberOf_map_toLower`: the number that digits write does not depend on the case of letters.
* `nextWord?`, `readWords`: the same reading with words of 64 bits, where the product and the sum
  are checked one after the other. No word ever wraps (`nextWord?_eq`), and the words are the
  numbers (`accumulate_toNat`).
* `readRadix_iff_longest_digits`: which texts are read, which write too great a number, and which
  are refused for a character.
-/

namespace Abacus

namespace Literal

variable {radix : ℕ} {cs ds rest : List Char}

/-! ### Where the digits end -/

/-- If digits are followed by nothing or by a character that is not one, they are all of them. -/
lemma leadingDigits_append (hds : ∀ c ∈ ds, digitOf c < radix)
    (hrest : ∀ c ∈ rest.head?, radix ≤ digitOf c) : leadingDigits radix (ds ++ rest) = ds := by
  have hempty : leadingDigits radix rest = [] := by
    cases rest with
    | nil => rfl
    | cons c cs => exact leadingDigits_cons_of_le (hrest c rfl)
  rw [leadingDigits, List.takeWhile_append_of_pos fun c hc => decide_eq_true (hds c hc)]
  exact (congrArg (ds ++ ·) hempty).trans (List.append_nil ds)

/-- What ends the digits is the character after them. -/
lemma firstNonDigit?_append (hds : ∀ c ∈ ds, digitOf c < radix)
    (hrest : ∀ c ∈ rest.head?, radix ≤ digitOf c) :
    firstNonDigit? radix (ds ++ rest) = rest.head? := by
  have hnone : firstNonDigit? radix ds = none := firstNonDigit?_eq_none_iff.mpr hds
  have hhead : firstNonDigit? radix rest = rest.head? := by
    cases rest with
    | nil => rfl
    | cons c cs => exact firstNonDigit?_cons_of_le (hrest c rfl)
  rw [firstNonDigit?] at hnone hhead ⊢
  rw [List.find?_append, hnone, hhead, Option.none_or]

/-! ### Zeros in front, and the case of letters -/

/-- The cause of a refusal, with another text for the digits that write too great a number. -/
def Error.withDigits (text : String) : Error → Error
  | overflow _ radix => overflow text radix
  | cause => cause

/-- What is read does not depend on the text that an overflow would report. -/
lemma accumulate_withDigits (radix : ℕ) (text text' : String) (cs : List Char) (n : ℕ) :
    accumulate radix text' cs n
      = (accumulate radix text cs n).mapError (Error.withDigits text') := by
  induction cs generalizing n with
  | nil => rfl
  | cons c cs ih =>
      rw [accumulate, accumulate]
      cases digitValue? radix c with
      | none => rfl
      | some d =>
          by_cases hfits : n * radix + d < UInt64.size
          · simp only [hfits, if_true, ih]
          · simp only [hfits, if_false]
            rfl

/-- Zeros in front leave the number at zero. -/
lemma accumulate_replicate_zero_append (h1 : 1 ≤ radix) (h16 : radix ≤ 16) (text : String)
    (k : ℕ) :
    accumulate radix text (List.replicate k '0' ++ cs) 0 = accumulate radix text cs 0 := by
  have hzero : digitValue? radix '0' = some 0 := by
    have hdigit : digitOf '0' = 0 := by decide
    rw [digitValue?_eq h16, hdigit, if_pos (by omega)]
  induction k with
  | zero => rfl
  | succ k ih =>
      rw [List.replicate_succ, List.cons_append, accumulate, hzero]
      simpa using ih

/-- Zeros in front change nothing but the text of an overflow. -/
lemma readRadix_replicate_zero_append (h1 : 1 ≤ radix) (h16 : radix ≤ 16) (k : ℕ)
    (cs : List Char) :
    readRadix radix (List.replicate k '0' ++ cs)
      = (readRadix radix cs).mapError
          (Error.withDigits (String.ofList (List.replicate k '0' ++ cs))) := by
  rw [readRadix, accumulate_replicate_zero_append h1 h16, readRadix, ← accumulate_withDigits]

/-- The number that digits write does not depend on the case of letters. -/
lemma numberOf_map_toLower (radix : ℕ) (cs : List Char) :
    numberOf radix (cs.map Char.toLower) = numberOf radix cs := by
  induction cs with
  | nil => rfl
  | cons c cs ih => simp [numberOf, digitOf_toLower, ih]

/-! ### Words of 64 bits -/

/-- The product of two words, if it does not wrap. -/
def timesWord? (a b : UInt64) : Option UInt64 :=
  if a.toNat * b.toNat < UInt64.size then some (a * b) else none

/-- The sum of two words, if it does not wrap. -/
def plusWord? (a b : UInt64) : Option UInt64 :=
  if a.toNat + b.toNat < UInt64.size then some (a + b) else none

/-- A word moved up by one place with a digit put after it, if neither the product nor the sum
wraps. -/
def nextWord? (radix d : ℕ) (n : UInt64) : Option UInt64 :=
  (timesWord? n (.ofNat radix)).bind (plusWord? · (.ofNat d))

/-- Continues a word with the digits of a base, the steps being checked for wrapping. -/
def accumulateWords (radix : ℕ) (digits : String) : List Char → UInt64 → Except Error UInt64
  | [], n => .ok n
  | c :: cs, n =>
    match digitValue? radix c with
    | none => .error (.invalidDigit c radix)
    | some d =>
      match nextWord? radix d n with
      | none => .error (.overflow digits radix)
      | some n => accumulateWords radix digits cs n

/-- The word written by digits of a base. -/
def readWords (radix : ℕ) (digits : List Char) : Except Error UInt64 :=
  accumulateWords radix (String.ofList digits) digits 0

/-- The two checks together are one check of the number that the next word would be, and the next
word is this number. -/
lemma nextWord?_eq {d : ℕ} (h16 : radix ≤ 16) (hd : d < radix) (n : UInt64) :
    nextWord? radix d n =
      if n.toNat * radix + d < UInt64.size then some (.ofNat (n.toNat * radix + d))
      else none := by
  have hsize : UInt64.size = 18446744073709551616 := rfl
  have hradix : (UInt64.ofNat radix).toNat = radix := UInt64.toNat_ofNat_of_lt' (by omega)
  have hdigit : (UInt64.ofNat d).toNat = d := UInt64.toNat_ofNat_of_lt' (by omega)
  by_cases hproduct : n.toNat * radix < UInt64.size
  · have hmul : (n * UInt64.ofNat radix).toNat = n.toNat * radix := by
      rw [UInt64.toNat_mul, hradix, Nat.mod_eq_of_lt hproduct]
    rw [nextWord?, timesWord?, hradix, if_pos hproduct, Option.bind_some, plusWord?, hmul, hdigit]
    by_cases hsum : n.toNat * radix + d < UInt64.size
    · rw [if_pos hsum, if_pos hsum, Option.some_inj, ← UInt64.toNat_inj, UInt64.toNat_add, hmul,
        hdigit, UInt64.toNat_ofNat_of_lt' hsum, Nat.mod_eq_of_lt hsum]
    · rw [if_neg hsum, if_neg hsum]
  · -- where the product wraps already, so would the sum
    rw [nextWord?, timesWord?, hradix, if_neg hproduct, Option.bind_none, if_neg (by omega)]

/-- The words are the numbers. -/
lemma accumulate_toNat (h16 : radix ≤ 16) (text : String) (cs : List Char) (n : UInt64) :
    accumulate radix text cs n.toNat = UInt64.toNat <$> accumulateWords radix text cs n := by
  induction cs generalizing n with
  | nil => rfl
  | cons c cs ih =>
      rw [accumulate, accumulateWords]
      cases hdigit : digitValue? radix c with
      | none => rfl
      | some d =>
          simp only [nextWord?_eq h16 (digitValue?_lt hdigit)]
          by_cases hfits : n.toNat * radix + d < UInt64.size
          · have hnext := ih (UInt64.ofNat (n.toNat * radix + d))
            rw [UInt64.toNat_ofNat_of_lt' hfits] at hnext
            simp only [hfits, if_true, hnext]
          · simp only [hfits, if_false]
            rfl

/-! ### Every text -/

section

variable (h1 : 1 ≤ radix) (h16 : radix ≤ 16) (hds : ∀ c ∈ ds, digitOf c < radix)
  (hrest : ∀ c ∈ rest.head?, radix ≤ digitOf c)
include h1 h16 hds hrest

/-- A text is read exactly if it has digits only and their number fits into 64 bits. -/
lemma readRadix_append_eq_ok_iff (n : ℕ) :
    readRadix radix (ds ++ rest) = .ok n
      ↔ rest = [] ∧ n = numberOf radix (ds ++ rest) ∧ n < 2 ^ 64 := by
  rw [readRadix_eq h1 h16, leadingDigits_append hds hrest, firstNonDigit?_append hds hrest]
  cases rest with
  | nil =>
      rw [List.append_nil, List.head?_nil]
      split_ifs with hbound
      · refine iff_of_false (fun h => by cases h) ?_
        rintro ⟨-, rfl, hlt⟩
        exact absurd hbound (not_le.mpr hlt)
      · rw [Except.ok.injEq]
        exact ⟨fun h => ⟨rfl, h.symm, h ▸ not_le.mp hbound⟩, fun h => h.2.1.symm⟩
  | cons c cs => split_ifs <;> simp

/-- A text writes too great a number exactly if the digits that it starts with do. -/
lemma readRadix_append_eq_overflow_iff :
    readRadix radix (ds ++ rest) = .error (.overflow (String.ofList (ds ++ rest)) radix)
      ↔ 2 ^ 64 ≤ numberOf radix ds := by
  have hleading := leadingDigits_append hds hrest
  rw [readRadix_eq_error_iff h1 h16]
  constructor
  · intro h
    cases h with
    | overflow exceeds => rwa [hleading] at exceeds
  · intro hexceeds
    exact .overflow (by rwa [hleading])

/-- A text is refused for the character after its digits exactly if their number fits. -/
lemma readRadix_append_eq_invalidDigit_iff (c : Char) :
    readRadix radix (ds ++ rest) = .error (.invalidDigit c radix)
      ↔ numberOf radix ds < 2 ^ 64 ∧ rest.head? = some c := by
  have hleading := leadingDigits_append hds hrest
  have hfirst := firstNonDigit?_append hds hrest
  rw [readRadix_eq_error_iff h1 h16]
  constructor
  · intro h
    cases h with
    | invalidDigit first fits =>
        exact ⟨by rwa [hleading] at fits, by rwa [hfirst] at first⟩
  · rintro ⟨fits, first⟩
    exact .invalidDigit (by rwa [hfirst]) (by rwa [hleading])

end

/-- Digits of a number of at most 64 bits are read as the number, with letters in any case. -/
lemma readRadix_of_map_toLower (h1 : 1 < radix) (h16 : radix ≤ 16) {n : ℕ} (hn : n < 2 ^ 64)
    (hcs : cs.map Char.toLower = Nat.toDigits radix n) : readRadix radix cs = .ok n := by
  have hnumber : numberOf radix cs = n := by
    rw [← numberOf_map_toLower, hcs, numberOf_toDigits h1 h16]
  have hdigits : ∀ c ∈ cs, digitOf c < radix := by
    intro c hc
    rw [← digitOf_toLower]
    exact digitOf_lt_of_mem_toDigits h1 h16 (hcs ▸ List.mem_map_of_mem hc)
  rw [readRadix_eq h1.le h16, leadingDigits_eq_self hdigits, hnumber, if_neg (not_le.mpr hn),
    firstNonDigit?_eq_none_iff.mpr hdigits]

/-- **What the digits of a base are read as.** Let a text start with digits of base eight or sixteen
that are followed by nothing or by a character that is not one. It is read exactly if there is
nothing after the digits and their number is below `2 ^ 64`, and then as this number; it is refused
as too great exactly if the digits, whatever follows them, write `2 ^ 64` or more, and for the
character after them exactly if they write less. So zeros in front change nothing but the text of
an overflow, and the digits of a number below `2 ^ 64` are read as the number, with letters in any
case. With words of 64 bits the product and the sum are refused exactly from `2 ^ 64` on and never
wrap, so words read the same. -/
theorem readRadix_iff_longest_digits (radix : ℕ) (hradix : radix = 8 ∨ radix = 16) :
    (∀ (text : String) (ds rest : List Char), text.toList = ds ++ rest →
      (∀ c ∈ ds, digitOf c < radix) → (∀ c ∈ rest.head?, radix ≤ digitOf c) →
      (∀ n, readRadix radix text.toList = .ok n
        ↔ rest = [] ∧ n = numberOf radix text.toList ∧ n < 2 ^ 64)
      ∧ (readRadix radix text.toList = .error (.overflow text radix)
        ↔ 2 ^ 64 ≤ numberOf radix ds)
      ∧ ∀ c, readRadix radix text.toList = .error (.invalidDigit c radix)
        ↔ numberOf radix ds < 2 ^ 64 ∧ rest.head? = some c)
    ∧ (∀ (k : ℕ) (cs : List Char), readRadix radix (List.replicate k '0' ++ cs)
        = (readRadix radix cs).mapError
            (Error.withDigits (String.ofList (List.replicate k '0' ++ cs))))
    ∧ (∀ n < 2 ^ 64, ∀ cs : List Char, cs.map Char.toLower = Nat.toDigits radix n →
        readRadix radix cs = .ok n)
    ∧ (∀ (n : UInt64), ∀ d < radix,
        (nextWord? radix d n = none ↔ 2 ^ 64 ≤ n.toNat * radix + d)
        ∧ ∀ m, nextWord? radix d n = some m → m.toNat = n.toNat * radix + d)
    ∧ ∀ cs : List Char, readRadix radix cs = UInt64.toNat <$> readWords radix cs := by
  have hbounds : 1 < radix ∧ radix ≤ 16 := by omega
  obtain ⟨h1, h16⟩ := hbounds
  refine ⟨fun text ds rest htext hds hrest => ⟨?_, ?_, ?_⟩, ?_, ?_, fun n d hd => ?_, fun cs => ?_⟩
  · rw [htext]
    exact readRadix_append_eq_ok_iff h1.le h16 hds hrest
  · have hoverflow := readRadix_append_eq_overflow_iff h1.le h16 hds hrest
    rwa [← htext, String.ofList_toList] at hoverflow
  · rw [htext]
    exact readRadix_append_eq_invalidDigit_iff h1.le h16 hds hrest
  · exact readRadix_replicate_zero_append h1.le h16
  · exact fun n hn cs hcs => readRadix_of_map_toLower h1 h16 hn hcs
  · have hsize : UInt64.size = 2 ^ 64 := rfl
    rw [nextWord?_eq h16 hd, hsize]
    split_ifs with hfits
    · refine ⟨by simpa using hfits, fun m hm => ?_⟩
      rw [← Option.some.inj hm, UInt64.toNat_ofNat_of_lt' hfits]
    · exact ⟨by simpa using hfits, fun m hm => by cases hm⟩
  · exact accumulate_toNat h16 (String.ofList cs) cs 0

/-- The theorem at a text whose seventeenth digit takes its number to `2 ^ 64`, followed by a
character that is not a digit, and at the text without that digit. -/
theorem readRadix_iff_longest_digits_full :
    readRadix 16 "10000000000000000z".toList = .error (.overflow "10000000000000000z" 16)
    ∧ readRadix 16 "1000000000000000z".toList = .error (.invalidDigit 'z' 16)
    ∧ readRadix 16 "FfFfFfFfFfFfFfFf".toList = .ok (2 ^ 64 - 1) := by
  obtain ⟨hcases, -, hdigits, -⟩ := readRadix_iff_longest_digits 16 (Or.inr rfl)
  have hz : ∀ c ∈ ['z'].head?, 16 ≤ digitOf c := by
    rintro c ⟨⟩
    decide
  have hall : ∀ ds : List Char, ds.all (digitOf · < 16) = true → ∀ c ∈ ds, digitOf c < 16 := by
    simp
  refine ⟨?_, ?_, ?_⟩
  · exact (hcases "10000000000000000z" "10000000000000000".toList ['z'] (by decide)
      (hall _ (by decide +kernel)) hz).2.1.mpr (by decide +kernel)
  · exact ((hcases "1000000000000000z" "1000000000000000".toList ['z'] (by decide)
      (hall _ (by decide +kernel)) hz).2.2 'z').mpr ⟨by decide +kernel, rfl⟩
  · exact hdigits (2 ^ 64 - 1) (by norm_num) _ (by decide +kernel)

end Literal

end Abacus
