import Mathlib.Tactic

/-!
Texts as rows of bytes.

A text is stored as the UTF-8 encodings of its characters. A character below 128 is a single byte,
and such a byte never occurs inside the encoding of another character. So characters below 128 can
be looked for among the bytes, and a text can be divided where one of them is found.

* `encoding`: the bytes of a list of characters.
* `exists_char_of_encoding_eq`: a byte below 128 in an encoding is a character by itself, so a text
  can be divided on both sides of it (`isValid_of_getElem?`).
* `isByteOf`: whether a byte is one of some characters. The bytes of a text tell whether one of them
  is its first character (`any_head?_encoding`), and whether there is one in it (`any_encoding`).
-/

namespace Abacus

/-! ### Encodings -/

/-- The bytes of a list of characters. -/
def encoding (cs : List Char) : List UInt8 := cs.flatMap String.utf8EncodeChar

@[simp] lemma encoding_nil : encoding [] = [] := rfl

@[simp] lemma encoding_cons (c : Char) (cs : List Char) :
    encoding (c :: cs) = String.utf8EncodeChar c ++ encoding cs := rfl

lemma encoding_append (cs ds : List Char) : encoding (cs ++ ds) = encoding cs ++ encoding ds :=
  List.flatMap_append

/-- The bytes of a text are the encodings of its characters. -/
lemma encoding_toList (text : String) : encoding text.toList = text.toByteArray.data.toList := by
  rw [← String.utf8Encode_toList, List.utf8Encode, encoding, List.toList_data_toByteArray]

lemma length_encoding (cs : List Char) :
    (encoding cs).length = (String.ofList cs).utf8ByteSize := by
  rw [← String.size_toByteArray, ← ByteArray.size_data, ← Array.length_toList, ← encoding_toList,
    String.toList_ofList]

/-- The byte of a character below 128. -/
def byteOf (c : Char) : UInt8 := .ofNat c.toNat

/-- A character below 128 is encoded by its byte. -/
lemma utf8EncodeChar_of_lt {c : Char} (h : c.toNat < 128) :
    String.utf8EncodeChar c = [byteOf c] := by
  rw [String.utf8EncodeChar]
  exact if_pos (Nat.le_of_lt_succ h)

/-- The bytes of all other characters are not below 128. -/
lemma le_toNat_of_mem_utf8EncodeChar {c : Char} (h : 128 ≤ c.toNat) {b : UInt8}
    (hb : b ∈ String.utf8EncodeChar c) : 128 ≤ b.toNat := by
  have hv : ¬c.val.toNat ≤ 0x7f := by
    rw [Char.toNat_val]
    omega
  rw [String.utf8EncodeChar] at hb
  simp only [hv, if_false] at hb
  split_ifs at hb
  all_goals
    simp only [List.mem_cons, List.not_mem_nil, or_false] at hb
    rcases hb with rfl | rfl | rfl | rfl
    all_goals
      rw [UInt8.toNat_ofNat']
      omega

/-- A byte below 128 in an encoding is a character by itself: the bytes before it and after it are
encodings, too. -/
lemma exists_char_of_encoding_eq {cs : List Char} {before after : List UInt8} {b : UInt8}
    (hb : b.toNat < 128) (h : encoding cs = before ++ b :: after) :
    ∃ cs₁ c cs₂, cs = cs₁ ++ c :: cs₂ ∧ encoding cs₁ = before
      ∧ String.utf8EncodeChar c = [b] ∧ encoding cs₂ = after := by
  induction cs generalizing before with
  | nil => simp at h
  | cons c cs ih =>
      rw [encoding_cons, List.append_eq_append_iff] at h
      rcases h with ⟨before', rfl, hcs⟩ | ⟨mid, hc, hmid⟩
      · -- the byte comes after the first character
        obtain ⟨cs₁, c', cs₂, rfl, rfl, hc', hcs₂⟩ := ih hcs
        exact ⟨c :: cs₁, c', cs₂, rfl, rfl, hc', hcs₂⟩
      · rcases mid with _ | ⟨b', mid⟩
        · rw [List.append_nil] at hc
          obtain ⟨cs₁, c', cs₂, rfl, hcs₁, hc', hcs₂⟩ :=
            ih (show encoding cs = [] ++ b :: after from hmid.symm)
          refine ⟨c :: cs₁, c', cs₂, rfl, ?_, hc', hcs₂⟩
          rw [encoding_cons, hcs₁, List.append_nil, hc]
        · -- the byte belongs to the first character, which has no other
          rw [List.cons_append, List.cons.injEq] at hmid
          obtain ⟨rfl, rfl⟩ := hmid
          have hlt : c.toNat < 128 := by
            by_contra hge
            have := le_toNat_of_mem_utf8EncodeChar (not_lt.mp hge) (b := b) (by simp [hc])
            omega
          have hone := utf8EncodeChar_of_lt hlt
          rw [hc] at hone
          have hbefore : before = [] := by
            rcases before with _ | ⟨b', before⟩
            · rfl
            · simp at hone
          subst hbefore
          rw [List.nil_append, List.cons.injEq] at hone
          obtain ⟨rfl, rfl⟩ := hone
          exact ⟨[], c, cs, rfl, rfl, hc, rfl⟩

/-- A text can be divided on both sides of a byte below 128. -/
lemma isValid_of_getElem? {text : String} {i : ℕ} {b : UInt8}
    (h : (encoding text.toList)[i]? = some b) (hb : b.toNat < 128) :
    (⟨i⟩ : String.Pos.Raw).IsValid text ∧ (⟨i + 1⟩ : String.Pos.Raw).IsValid text := by
  obtain ⟨hi, hget⟩ := List.getElem?_eq_some_iff.mp h
  have hsplit : encoding text.toList
      = (encoding text.toList).take i ++ b :: (encoding text.toList).drop (i + 1) := by
    rw [← hget, ← List.drop_eq_getElem_cons hi, List.take_append_drop]
  obtain ⟨cs₁, c, cs₂, hcs, hbefore, hc, -⟩ := exists_char_of_encoding_eq hb hsplit
  have htext : text = String.ofList cs₁ ++ String.ofList (c :: cs₂) := by
    rw [← String.ofList_append, ← hcs, String.ofList_toList]
  have htext' : text = String.ofList (cs₁ ++ [c]) ++ String.ofList cs₂ := by
    rw [← String.ofList_append, List.append_assoc, List.singleton_append, ← hcs,
      String.ofList_toList]
  have hlen : (String.ofList cs₁).utf8ByteSize = i := by
    rw [← length_encoding, hbefore, List.length_take, Nat.min_eq_left hi.le]
  have hlen' : (String.ofList (cs₁ ++ [c])).utf8ByteSize = i + 1 := by
    rw [← length_encoding, encoding_append, List.length_append, length_encoding, hlen,
      encoding_cons, hc]
    rfl
  constructor
  · refine String.Pos.Raw.isValid_iff_exists_append.mpr ⟨_, _, htext, ?_⟩
    rw [String.Pos.Raw.ext_iff, String.byteIdx_rawEndPos, hlen]
  · refine String.Pos.Raw.isValid_iff_exists_append.mpr ⟨_, _, htext', ?_⟩
    rw [String.Pos.Raw.ext_iff, String.byteIdx_rawEndPos, hlen']

/-! ### Looking for characters -/

/-- Whether all characters are below 128. -/
def isAscii (chars : List Char) : Bool := chars.all (·.toNat < 128)

/-- Whether a byte is one of the characters, which are below 128. -/
def isByteOf (chars : List Char) (b : UInt8) : Bool := (chars.map byteOf).contains b

lemma toNat_byteOf {c : Char} (h : c.toNat < 128) : (byteOf c).toNat = c.toNat := by
  rw [byteOf, UInt8.toNat_ofNat']
  omega

/-- No two characters below 128 share a byte. -/
lemma byteOf_inj {c d : Char} (hc : c.toNat < 128) (hd : d.toNat < 128) :
    byteOf c = byteOf d ↔ c = d := by
  rw [← UInt8.toNat_inj, toNat_byteOf hc, toNat_byteOf hd, Char.toNat_inj]

section

variable {chars : List Char} (hchars : isAscii chars = true)
include hchars

lemma toNat_lt_of_isAscii {d : Char} (hd : d ∈ chars) : d.toNat < 128 :=
  of_decide_eq_true (List.all_eq_true.mp hchars d hd)

/-- The byte of a character tells whether it is one of the characters looked for. -/
lemma isByteOf_byteOf {c : Char} (hc : c.toNat < 128) :
    isByteOf chars (byteOf c) = chars.contains c := by
  rw [Bool.eq_iff_iff, isByteOf, List.contains_iff_mem, List.contains_iff_mem, List.mem_map]
  constructor
  · rintro ⟨d, hd, heq⟩
    rwa [← (byteOf_inj (toNat_lt_of_isAscii hchars hd) hc).mp heq]
  · exact fun hmem => ⟨c, hmem, rfl⟩

/-- A byte that is not below 128 is none of the characters looked for. -/
lemma isByteOf_of_le {b : UInt8} (hb : 128 ≤ b.toNat) : isByteOf chars b = false := by
  rw [Bool.eq_false_iff, isByteOf, Ne, List.contains_iff_mem, List.mem_map]
  rintro ⟨d, hd, rfl⟩
  have hlt := toNat_lt_of_isAscii hchars hd
  rw [toNat_byteOf hlt] at hb
  omega

lemma contains_of_le {c : Char} (hc : 128 ≤ c.toNat) : chars.contains c = false := by
  rw [Bool.eq_false_iff, Ne, List.contains_iff_mem]
  intro hmem
  have := toNat_lt_of_isAscii hchars hmem
  omega

/-- The first byte of a text tells whether its first character is one of those looked for. -/
lemma any_head?_encoding (cs : List Char) :
    (encoding cs).head?.any (isByteOf chars) = cs.head?.any chars.contains := by
  cases cs with
  | nil => rfl
  | cons c cs =>
      obtain ⟨b, bs, hbs⟩ := List.exists_cons_of_ne_nil (String.utf8EncodeChar_ne_nil (c := c))
      rw [encoding_cons, hbs]
      simp only [List.cons_append, List.head?_cons, Option.any_some]
      by_cases hc : c.toNat < 128
      · rw [utf8EncodeChar_of_lt hc] at hbs
        rw [← (List.cons.inj hbs).1, isByteOf_byteOf hchars hc]
      · rw [contains_of_le hchars (not_lt.mp hc), isByteOf_of_le hchars]
        exact le_toNat_of_mem_utf8EncodeChar (not_lt.mp hc) (by simp [hbs])

/-- The bytes of a text tell whether a character is among those looked for. -/
lemma any_encoding (cs : List Char) :
    (encoding cs).any (isByteOf chars) = cs.any chars.contains := by
  induction cs with
  | nil => rfl
  | cons c cs ih =>
      rw [encoding_cons, List.any_append, ih, List.any_cons]
      congr 1
      by_cases hc : c.toNat < 128
      · rw [utf8EncodeChar_of_lt hc, List.any_cons, List.any_nil, Bool.or_false,
          isByteOf_byteOf hchars hc]
      · rw [contains_of_le hchars (not_lt.mp hc), List.any_eq_false]
        intro b hb
        rw [isByteOf_of_le hchars (le_toNat_of_mem_utf8EncodeChar (not_lt.mp hc) hb)]
        exact Bool.false_ne_true

end

/-- A text can be divided on both sides of a byte that is one of the characters looked for. -/
lemma isValid_of_isByteOf {chars : List Char} (hchars : isAscii chars = true) {text : String}
    {i : ℕ} (h : (encoding text.toList)[i]?.any (isByteOf chars) = true) :
    (⟨i⟩ : String.Pos.Raw).IsValid text ∧ (⟨i + 1⟩ : String.Pos.Raw).IsValid text := by
  obtain ⟨b, hget, hb⟩ := (Option.any_eq_true _ _).mp h
  have hlt : b.toNat < 128 := by
    by_contra hge
    rw [isByteOf_of_le hchars (not_lt.mp hge)] at hb
    cases hb
  exact isValid_of_getElem? hget hlt

end Abacus
