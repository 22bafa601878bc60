import Mathlib.Data.List.TakeWhile
import Mathlib.Tactic
import Abacus.Literal.Reader
import Abacus.Proofs.Literal.Numeral

/-!
Reading rows of digits.

* `hexDigit?_eq`, `digitValue?_eq`: a digit is read as its value, and no other character is.
* `digits?_eq_some_iff`: what is read as decimal digits.
* `leadingDigits`, `firstNonDigit?`: how far the digits of a base reach, and what ends them.
* `accumulate_eq`, `readRadix_eq`: the digits of an octal or hexadecimal literal. The 64-bit bound
  that is checked digit by digit is a bound on the number that the leading digits write, and is
  noticed before the character that ends them.
* `readRadix_eq_ok_iff`, `readMarked_eq_ok_iff`: which of them are read.
-/

namespace Abacus

namespace Literal

/-! ### Characters -/

/-- What holds of the first 128 characters, one by one, holds of each of them. -/
lemma forall_ascii {p : Char → Prop} (h : ∀ n < 128, p (Char.ofNat n)) (c : Char)
    (hc : c.toNat < 128) : p c := by
  rw [← Char.ofNat_toNat c]
  exact h c.toNat hc

lemma toLower_of_le {c : Char} (h : 128 ≤ c.toNat) : c.toLower = c := by
  unfold Char.toLower
  rw [dif_neg]
  rintro ⟨-, hz⟩
  have hz' : c.toNat ≤ 90 := UInt32.le_iff_toNat_le.mp hz
  omega

/-- Beyond the first 128 characters there are no digits. -/
lemma digitOf_of_le {c : Char} (h : 128 ≤ c.toNat) : digitOf c = 16 := by
  have hmem : c ∉ digitSigns := by
    have hsigns : digitSigns.all (·.toNat < 128) = true := by decide
    intro hmem
    have := of_decide_eq_true (List.all_eq_true.mp hsigns c hmem)
    omega
  rw [digitOf, toLower_of_le h, List.idxOf_eq_length hmem]
  rfl

/-- A letter is the same digit in either case. -/
lemma digitOf_toLower (c : Char) : digitOf c.toLower = digitOf c := by
  by_cases h : c.toNat < 128
  · exact forall_ascii (p := fun c => digitOf c.toLower = digitOf c) (by decide) c h
  · rw [toLower_of_le (not_lt.mp h)]

lemma isDigit_of_le {c : Char} (h : 128 ≤ c.toNat) : c.isDigit = false := by
  rw [Bool.eq_false_iff]
  intro hd
  have hc := (Char.isDigit_iff_toNat.mp hd).2
  have hnine : '9'.toNat = 57 := rfl
  omega

lemma toNat_lt_of_isDigit {c : Char} (h : c.isDigit = true) : c.toNat < 128 := by
  by_contra hc
  rw [isDigit_of_le (not_lt.mp hc)] at h
  cases h

lemma hexDigit?_of_le {c : Char} (h : 128 ≤ c.toNat) : hexDigit? c = none := by
  have hletter : ∀ d : Char, d.toNat < 128 → ¬c ≤ d := by
    intro d hd hle
    have : c.toNat ≤ d.toNat := UInt32.le_iff_toNat_le.mp hle
    omega
  rw [hexDigit?, isDigit_of_le h, if_neg Bool.false_ne_true,
    if_neg fun hc => hletter 'f' (by decide) hc.2, if_neg fun hc => hletter 'F' (by decide) hc.2]

/-- A hexadecimal digit is read as its value. -/
lemma hexDigit?_eq (c : Char) :
    hexDigit? c = if digitOf c < 16 then some (digitOf c) else none := by
  by_cases h : c.toNat < 128
  · exact forall_ascii (p := fun c => hexDigit? c = if digitOf c < 16 then some (digitOf c)
      else none) (by decide) c h
  · rw [hexDigit?_of_le (not_lt.mp h), digitOf_of_le (not_lt.mp h), if_neg (by omega)]

/-- A digit of a base up to sixteen is read as its value. -/
lemma digitValue?_eq {radix : ℕ} (hr : radix ≤ 16) (c : Char) :
    digitValue? radix c = if digitOf c < radix then some (digitOf c) else none := by
  rw [digitValue?, hexDigit?_eq]
  split_ifs with h16 hr' hr' <;> simp <;> omega

/-- The decimal digits are the characters with a value below ten. -/
lemma digitOf_lt_ten_iff {c : Char} : digitOf c < 10 ↔ c.isDigit = true := by
  by_cases h : c.toNat < 128
  · exact forall_ascii (p := fun c => digitOf c < 10 ↔ c.isDigit = true) (by decide) c h
  · rw [digitOf_of_le (not_lt.mp h), isDigit_of_le (not_lt.mp h)]
    decide

/-- The value of a decimal digit is its distance from zero. -/
lemma toNat_sub_of_isDigit {c : Char} (h : c.isDigit = true) :
    c.toNat - '0'.toNat = digitOf c :=
  forall_ascii (p := fun c => c.isDigit = true → c.toNat - '0'.toNat = digitOf c) (by decide) c
    (toNat_lt_of_isDigit h) h

/-! ### Rows of digits -/

/-- Reading digits from the left: a number so far is moved up by as many places as there are
digits. -/
lemma numberOf_append (radix : ℕ) (cs ds : List Char) :
    numberOf radix (cs ++ ds) = numberOf radix cs * radix ^ ds.length + numberOf radix ds := by
  induction cs with
  | nil => simp [numberOf]
  | cons c cs ih =>
      rw [List.cons_append, numberOf, numberOf, ih, List.length_append, pow_add]
      ring

lemma numberOf_replicate_zero (radix k : ℕ) : numberOf radix (List.replicate k '0') = 0 := by
  have hzero : digitOf '0' = 0 := by decide
  induction k with
  | zero => rfl
  | succ k ih => rw [List.replicate_succ, numberOf, ih, hzero, Nat.zero_mul]

/-- The sign of a digit is read as its value. -/
lemma digitOf_digitChar {d : ℕ} (h : d < 16) : digitOf d.digitChar = d := by
  have hall : ∀ d < 16, digitOf d.digitChar = d := by decide
  exact hall d h

lemma digitOf_lt_of_mem_toDigits {radix n : ℕ} {c : Char} (h1 : 1 < radix) (h16 : radix ≤ 16)
    (h : c ∈ Nat.toDigits radix n) : digitOf c < radix := by
  induction n using Nat.strong_induction_on with
  | _ n ih =>
      rcases Nat.lt_or_ge n radix with hlt | hge
      · rw [Nat.toDigits_of_lt_base hlt, List.mem_singleton] at h
        rw [h, digitOf_digitChar (by omega)]
        exact hlt
      · have hmod : n % radix < radix := Nat.mod_lt n (by omega)
        rw [Nat.toDigits_of_base_le h1 hge, List.mem_append, List.mem_singleton] at h
        rcases h with h | h
        · exact ih (n / radix) (Nat.div_lt_self (by omega) h1) h
        · rw [h, digitOf_digitChar (by omega)]
          exact hmod

/-- The digits of a number write it. -/
lemma numberOf_toDigits {radix : ℕ} (h1 : 1 < radix) (h16 : radix ≤ 16) (n : ℕ) :
    numberOf radix (Nat.toDigits radix n) = n := by
  induction n using Nat.strong_induction_on with
  | _ n ih =>
      rcases Nat.lt_or_ge n radix with hlt | hge
      · rw [Nat.toDigits_of_lt_base hlt]
        simp [numberOf, digitOf_digitChar (hlt.trans_le h16)]
      · have hmod : n % radix < radix := Nat.mod_lt n (by omega)
        rw [Nat.toDigits_of_base_le h1 hge, numberOf_append,
          ih (n / radix) (Nat.div_lt_self (by omega) h1)]
        simp [numberOf, digitOf_digitChar (hmod.trans_le h16), Nat.div_add_mod']

/-- The library's fold over decimal digits computes the number they write. -/
lemma ofDigitChars_eq {cs : List Char} (h : ∀ c ∈ cs, c.isDigit = true) (n : ℕ) :
    Nat.ofDigitChars 10 cs n = n * 10 ^ cs.length + numberOf 10 cs := by
  induction cs generalizing n with
  | nil => simp [numberOf]
  | cons c cs ih =>
      rw [Nat.ofDigitChars_cons, toNat_sub_of_isDigit (h c (by simp)),
        ih fun d hd => h d (List.mem_cons_of_mem c hd), numberOf, List.length_cons, pow_succ]
      ring

/-- The digits that are read as decimal ones are the rows of decimal digits. -/
lemma digits?_eq_some_iff {cs : List Char} {n : ℕ} :
    digits? cs = some n ↔ ∃ ds : Digits 10, ds.chars = cs ∧ ds.value = n := by
  constructor
  · intro h
    unfold digits? at h
    split at h
    · next hcs =>
        simp only [Bool.and_eq_true, Bool.not_eq_true', List.isEmpty_eq_false_iff,
          List.all_eq_true] at hcs
        refine ⟨⟨cs, hcs.1, fun c hc => digitOf_lt_ten_iff.mpr (hcs.2 c hc)⟩, rfl, ?_⟩
        have hn := Option.some.inj h
        rw [ofDigitChars_eq hcs.2, Nat.zero_mul, Nat.zero_add] at hn
        exact hn
    · cases h
  · rintro ⟨ds, rfl, rfl⟩
    have hall : ∀ c ∈ ds.chars, c.isDigit = true := fun c hc =>
      digitOf_lt_ten_iff.mp (ds.digitOf_lt c hc)
    rw [digits?, if_pos (by simpa [ds.ne_nil] using hall), ofDigitChars_eq hall, Nat.zero_mul,
      Nat.zero_add]
    rfl

/-! ### Digits of an octal or hexadecimal literal -/

/-- The digits of a base that a text starts with. -/
def leadingDigits (radix : ℕ) (cs : List Char) : List Char := cs.takeWhile (digitOf · < radix)

/-- The first character that is not a digit of a base. -/
def firstNonDigit? (radix : ℕ) (cs : List Char) : Option Char := cs.find? (radix ≤ digitOf ·)

variable {radix : ℕ} {c : Char} {cs : List Char}

lemma leadingDigits_cons_of_lt (h : digitOf c < radix) :
    leadingDigits radix (c :: cs) = c :: leadingDigits radix cs :=
  List.takeWhile_cons_of_pos (decide_eq_true h)

lemma leadingDigits_cons_of_le (h : radix ≤ digitOf c) : leadingDigits radix (c :: cs) = [] :=
  List.takeWhile_cons_of_neg (by simpa using h)

lemma firstNonDigit?_cons_of_lt (h : digitOf c < radix) :
    firstNonDigit? radix (c :: cs) = firstNonDigit? radix cs :=
  List.find?_cons_of_neg (by simpa using h)

lemma firstNonDigit?_cons_of_le (h : radix ≤ digitOf c) :
    firstNonDigit? radix (c :: cs) = some c :=
  List.find?_cons_of_pos (decide_eq_true h)

lemma leadingDigits_eq_self (h : ∀ c ∈ cs, digitOf c < radix) : leadingDigits radix cs = cs :=
  List.takeWhile_eq_self_iff.mpr fun c hc => decide_eq_true (h c hc)

lemma firstNonDigit?_eq_none_iff :
    firstNonDigit? radix cs = none ↔ ∀ c ∈ cs, digitOf c < radix := by
  simp [firstNonDigit?]

/-- Digits after a number of at most 64 bits are refused if with those of them that come before
any other character the number has more, else because of that character, else not at all. -/
lemma accumulate_eq (h1 : 1 ≤ radix) (h16 : radix ≤ 16) {text : String} {n : ℕ}
    (hn : n < 2 ^ 64) :
    accumulate radix text cs n =
      if 2 ^ 64 ≤ n * radix ^ (leadingDigits radix cs).length
          + numberOf radix (leadingDigits radix cs) then .error (.overflow text radix)
      else match firstNonDigit? radix cs with
        | some c => .error (.invalidDigit c radix)
        | none => .ok (n * radix ^ cs.length + numberOf radix cs) := by
  have hsize : UInt64.size = 2 ^ 64 := rfl
  induction cs generalizing n with
  | nil => simpa [accumulate, leadingDigits, firstNonDigit?, numberOf] using hn
  | cons c cs ih =>
      rw [accumulate, digitValue?_eq h16]
      rcases Nat.lt_or_ge (digitOf c) radix with hc | hc
      · rw [if_pos hc, leadingDigits_cons_of_lt hc, firstNonDigit?_cons_of_lt hc]
        -- a digit moves the number so far up by one place, whichever digits follow
        have hmoved : ∀ ds : List Char, n * radix ^ (c :: ds).length + numberOf radix (c :: ds)
            = (n * radix + digitOf c) * radix ^ ds.length + numberOf radix ds := by
          intro ds
          rw [numberOf, List.length_cons]
          ring
        simp only [hmoved, hsize]
        split_ifs with hlt hbound hbound
        · rw [ih hlt, if_pos hbound]
        · rw [ih hlt, if_neg hbound]
        · rfl
        · have hgrow : n * radix + digitOf c
              ≤ (n * radix + digitOf c) * radix ^ (leadingDigits radix cs).length :=
            Nat.le_mul_of_pos_right _ (Nat.pow_pos h1)
          omega
      · rw [if_neg (not_lt.mpr hc), leadingDigits_cons_of_le hc, firstNonDigit?_cons_of_le hc,
          List.length_nil, pow_zero, mul_one, numberOf, add_zero, if_neg (not_le.mpr hn)]

/-- The number of digits of a base, or why they have none. -/
lemma readRadix_eq (h1 : 1 ≤ radix) (h16 : radix ≤ 16) :
    readRadix radix cs =
      if 2 ^ 64 ≤ numberOf radix (leadingDigits radix cs) then
        .error (.overflow (String.ofList cs) radix)
      else match firstNonDigit? radix cs with
        | some c => .error (.invalidDigit c radix)
        | none => .ok (numberOf radix cs) := by
  rw [readRadix, accumulate_eq h1 h16 (by norm_num)]
  simp only [Nat.zero_mul, Nat.zero_add]

/-- The digits after a marker are read exactly if they are a row of digits of the base and write a
number of at most 64 bits. -/
lemma readRadix_eq_ok_iff (h1 : 1 ≤ radix) (h16 : radix ≤ 16) {n : ℕ} (hcs : cs ≠ []) :
    readRadix radix cs = .ok n ↔
      ∃ ds : Digits radix, ds.chars = cs ∧ ds.value = n ∧ n < 2 ^ 64 := by
  rw [readRadix_eq h1 h16]
  constructor
  · intro h
    split_ifs at h with hbound
    split at h
    · cases h
    · next hnone =>
        cases h
        have hdigits := firstNonDigit?_eq_none_iff.mp hnone
        rw [leadingDigits_eq_self hdigits, not_le] at hbound
        exact ⟨⟨cs, hcs, hdigits⟩, rfl, rfl, hbound⟩
  · rintro ⟨ds, rfl, rfl, hlt⟩
    rw [Digits.value] at hlt ⊢
    rw [leadingDigits_eq_self ds.digitOf_lt, if_neg (not_le.mpr hlt),
      firstNonDigit?_eq_none_iff.mpr ds.digitOf_lt]

/-- After a marker an empty row is refused before it is read. -/
lemma readMarked_eq_ok_iff {marker : String} (h1 : 1 ≤ radix) (h16 : radix ≤ 16) {n : ℕ} :
    readMarked marker radix cs = .ok n ↔
      ∃ ds : Digits radix, ds.chars = cs ∧ ds.value = n ∧ n < 2 ^ 64 := by
  by_cases hcs : cs = []
  · subst hcs
    rw [readMarked, if_pos List.isEmpty_nil]
    constructor
    · exact fun h => nomatch h
    · rintro ⟨ds, hds, -⟩
      exact absurd hds ds.ne_nil
  · rw [readMarked, if_neg (by simpa using hcs), readRadix_eq_ok_iff h1 h16 hcs]

end Literal

end Abacus
