import Mathlib.Tactic
import Abacus.Expr.Basic
import Abacus.Proofs.Literal.Acceptance

/-!
The grammar of written expressions, and its unambiguity.

* `Tier`: the tiers of the grammar, an assignment being the loosest and an atom the tightest.
* `Derivation`: a derivation from a tier, with the characters that it derives and the expression
  that it builds. On every tier between the two an operation groups to the left, and an
  assignment groups to the right.
* `Opens`: whether a derivation from a tier may start after a text. This depends on the end of the
  text only.
* `Parted`: a derivation is told from the text that stands before it. An operation is divided at
  its last operator, as no derivation of its right operand may start before that operator
  (`parted_binary`); a row of assignments is divided at its last target (`parted_targets`).
* `Derivation.partedBehindTargets`, `Derivation.chars_injective`: this holds of every derivation, so
  no text has two of them.
-/

namespace Abacus

/-! ### Tiers -/

/-- A tier of the grammar. -/
inductive Tier where
  | atom
  | mul
  | add
  | eq
  | assign
deriving DecidableEq

namespace Tier

/-- How loosely what is derived from a tier may bind. -/
def precedence : Tier → ℕ
  | atom => 0
  | mul => 3
  | add => 4
  | eq => 8
  | assign => 15

/-- The next tighter tier. -/
def tighter : Tier → Tier
  | assign => eq
  | eq => add
  | add => mul
  | mul | atom => atom

lemma precedence_tighter_le (τ : Tier) : τ.tighter.precedence ≤ τ.precedence := by
  cases τ <;> decide

lemma precedence_tighter_lt {τ : Tier} (h : τ ≠ .atom) :
    τ.tighter.precedence < τ.precedence := by
  cases τ with
  | atom => exact absurd rfl h
  | _ => decide

lemma precedence_le_assign (τ : Tier) : τ.precedence ≤ assign.precedence := by
  cases τ <;> decide

/-- There is no tier between a tier and the next tighter one. -/
lemma eq_or_le_tighter {τ τ' : Tier} (h : τ.precedence ≤ τ'.precedence) :
    τ = τ' ∨ τ' ≠ .atom ∧ τ.precedence ≤ τ'.tighter.precedence := by
  revert h
  cases τ <;> cases τ' <;> decide

/-- The loosest tier that may start after a text, which is given from its end. -/
def after? : List Char → Option Tier
  | [] => some assign
  | '(' :: _ => some assign
  | ' ' :: '=' :: ' ' :: _ => some eq
  | ' ' :: '=' :: '=' :: ' ' :: _ => some add
  | ' ' :: '+' :: ' ' :: _ | ' ' :: '-' :: ' ' :: _ => some mul
  | ' ' :: '*' :: ' ' :: _ | ' ' :: '/' :: ' ' :: _ => some atom
  | _ => none

end Tier

namespace Operator

/-- The tier on which an operator groups its operands. -/
def tier : Operator → Tier
  | add | sub => .add
  | mul | div => .mul
  | eq => .eq

/-- An operator between its operands. -/
def sign (op : Operator) : List Char := ' ' :: op.symbol.toList ++ [' ']

lemma precedence_tier (op : Operator) : op.tier.precedence = op.precedence := by
  cases op <;> rfl

lemma tier_ne_atom (op : Operator) : op.tier ≠ .atom := by
  cases op <;> decide

lemma tier_ne_assign (op : Operator) : op.tier ≠ .assign := by
  cases op <;> decide

/-- Operators of one tier are told apart by their signs at the end of a text. -/
lemma append_sign_inj {op op' : Operator} (htier : op.tier = op'.tier) {p p' : List Char}
    (h : p ++ op.sign = p' ++ op'.sign) : p = p' ∧ op = op' := by
  have hlength : op.sign.length = op'.sign.length := by
    revert htier
    cases op <;> cases op' <;> decide
  obtain ⟨hp, hsign⟩ := List.append_inj' h hlength
  refine ⟨hp, ?_⟩
  revert hsign
  cases op <;> cases op' <;> decide

end Operator

/-! ### Where a derivation may start -/

/-- Whether a derivation from a tier may start after a text. -/
def Opens (τ : Tier) (p : List Char) : Prop :=
  ∃ loosest, Tier.after? p.reverse = some loosest ∧ τ.precedence ≤ loosest.precedence

/-- The sign of an assignment between its target and its value. -/
def gets : List Char := [' ', '=', ' ']

lemma opens_nil (τ : Tier) : Opens τ [] := ⟨.assign, rfl, τ.precedence_le_assign⟩

lemma opens_parenthesis (τ : Tier) (p : List Char) : Opens τ (p ++ ['(']) := by
  refine ⟨.assign, ?_, τ.precedence_le_assign⟩
  rw [List.reverse_append]
  rfl

lemma after?_gets (p : List Char) : Tier.after? (p ++ gets).reverse = some .eq := by
  rw [List.reverse_append]
  rfl

lemma after?_sign (op : Operator) (p : List Char) :
    Tier.after? (p ++ op.sign).reverse = some op.tier.tighter := by
  rw [List.reverse_append]
  cases op <;> rfl

lemma opens_gets (p : List Char) : Opens .eq (p ++ gets) := ⟨.eq, after?_gets p, le_rfl⟩

/-- After an assignment's sign no row of assignments starts: it has started before. -/
lemma not_opens_gets (p : List Char) : ¬Opens .assign (p ++ gets) := by
  rintro ⟨loosest, hafter, hle⟩
  rw [after?_gets] at hafter
  cases hafter
  exact absurd hle (by decide)

section

variable {τ : Tier} {op : Operator} (hop : op.tier = τ) (p : List Char)
include hop

lemma opens_sign : Opens τ.tighter (p ++ op.sign) := by
  subst hop
  exact ⟨op.tier.tighter, after?_sign op p, le_rfl⟩

/-- After an operator's sign no operation of its tier starts: it has started before. -/
lemma not_opens_sign : ¬Opens τ (p ++ op.sign) := by
  subst hop
  rintro ⟨loosest, hafter, hle⟩
  rw [after?_sign] at hafter
  cases hafter
  exact absurd hle (not_le.mpr (Tier.precedence_tighter_lt op.tier_ne_atom))

end

lemma Opens.tighter {τ : Tier} {p : List Char} (h : Opens τ p) : Opens τ.tighter p := by
  obtain ⟨loosest, hafter, hle⟩ := h
  exact ⟨loosest, hafter, τ.precedence_tighter_le.trans hle⟩

/-! ### Tokens -/

/-- The characters between tokens. -/
def isSeparator (c : Char) : Bool := c == ' ' || c == '(' || c == ')'

/-- What opens a derivation ends with a separator. -/
lemma Opens.isSeparator_getLast {τ : Tier} {p : List Char} {c : Char} (h : Opens τ (p ++ [c])) :
    isSeparator c = true := by
  obtain ⟨loosest, hafter, -⟩ := h
  rw [List.reverse_append] at hafter
  change Tier.after? (c :: p.reverse) = some loosest at hafter
  by_contra hc
  have hspace : c ≠ ' ' := by rintro rfl; exact hc rfl
  have hparen : c ≠ '(' := by rintro rfl; exact hc rfl
  rw [Tier.after?.eq_def] at hafter
  split at hafter <;> simp_all

/-- What opens a derivation does not end inside a token. -/
lemma Opens.eq_nil_of_append {τ : Tier} {p a : List Char} (h : Opens τ (p ++ a))
    (ha : ∀ c ∈ a, isSeparator c = false) : a = [] := by
  rcases List.eq_nil_or_concat a with rfl | ⟨b, c, rfl⟩
  · rfl
  · rw [List.concat_eq_append, ← List.append_assoc] at h
    have hc := h.isSeparator_getLast
    rw [ha c (by simp)] at hc
    cases hc

/-- A token is told from the text before it. -/
lemma append_token_inj {τ τ' : Tier} {p p' t t' : List Char} (hp : Opens τ p) (hp' : Opens τ' p')
    (ht : ∀ c ∈ t, isSeparator c = false) (ht' : ∀ c ∈ t', isSeparator c = false)
    (h : p ++ t = p' ++ t') : p = p' ∧ t = t' := by
  -- what one text has more than the other lies inside a token
  rcases List.append_eq_append_iff.mp h with ⟨a, rfl, rfl⟩ | ⟨a, rfl, rfl⟩
  · obtain rfl := hp'.eq_nil_of_append fun c hc => ht c (List.mem_append_left t' hc)
    exact ⟨(List.append_nil p).symm, rfl⟩
  · obtain rfl := hp.eq_nil_of_append fun c hc => ht' c (List.mem_append_left t hc)
    exact ⟨List.append_nil p', rfl⟩

/-- A character that an identifier starts with. -/
def isNameStart (c : Char) : Bool := c.isAlpha || c == '_'

/-- A character that may follow in an identifier. -/
def isNamePart (c : Char) : Bool := isNameStart c || c.isDigit

/-- Whether a text is an identifier. -/
def isIdentifier : List Char → Bool
  | [] => false
  | c :: cs => isNameStart c && cs.all isNamePart

/-- A name as a token. -/
@[ext] structure Name where
  text : String
  isIdentifier : isIdentifier text.toList = true

/-- A number as a token, with the double that its text is read as. -/
structure NumberToken where
  text : String
  value : Double
  reads : Literal.value text = .ok value

/-- The text of a number is all that there is to it. -/
lemma NumberToken.eq_of_text_eq {t t' : NumberToken} (h : t.text = t'.text) : t = t' := by
  obtain ⟨text, value, reads⟩ := t
  obtain ⟨text', value', reads'⟩ := t'
  obtain rfl : text = text' := h
  obtain rfl : value = value' := Except.ok.inj (reads.symm.trans reads')
  rfl

lemma isSeparator_of_isNamePart {c : Char} (h : isNamePart c = true) : isSeparator c = false := by
  rw [Bool.eq_false_iff]
  intro hc
  simp only [isSeparator, Bool.or_eq_true, beq_iff_eq] at hc
  rcases hc with (rfl | rfl) | rfl <;> exact absurd h (by decide)

/-- No identifier starts with a digit. -/
lemma isNameStart_of_isDigit {c : Char} (h : c.isDigit = true) : isNameStart c = false :=
  Literal.forall_ascii (p := fun c => c.isDigit = true → isNameStart c = false) (by decide) c
    (Literal.toNat_lt_of_isDigit h) h

/-- A name starts with a character that no number starts with. -/
lemma Name.exists_cons (n : Name) :
    ∃ c cs, n.text.toList = c :: cs ∧ c.isDigit = false ∧ ∀ d ∈ c :: cs, isSeparator d = false := by
  have hn := n.isIdentifier
  cases hcs : n.text.toList with
  | nil => rw [hcs] at hn; cases hn
  | cons c cs =>
      rw [hcs, Abacus.isIdentifier, Bool.and_eq_true, List.all_eq_true] at hn
      refine ⟨c, cs, rfl, ?_, List.forall_mem_cons.mpr ⟨?_, ?_⟩⟩
      · rw [Bool.eq_false_iff]
        intro hdigit
        rw [isNameStart_of_isDigit hdigit] at hn
        cases hn.1
      · exact isSeparator_of_isNamePart (by rw [isNamePart, hn.1, Bool.true_or])
      · exact fun d hd => isSeparator_of_isNamePart (hn.2 d hd)

/-- A number starts with a digit. -/
lemma NumberToken.exists_cons (t : NumberToken) :
    ∃ c cs, t.text.toList = c :: cs ∧ c.isDigit = true ∧ ∀ d ∈ c :: cs, isSeparator d = false := by
  obtain ⟨n, hn⟩ := (Literal.exists_value_eq_ok_iff t.text).mp ⟨t.value, t.reads⟩
  obtain ⟨c, cs, hcs, hdigit⟩ := n.exists_spelling_eq_cons
  have hchars : Literal.literalChars.all (!isSeparator ·) = true := by decide
  refine ⟨c, cs, hn.symm.trans hcs, hdigit, fun d hd => ?_⟩
  rw [← hcs] at hd
  simpa using List.all_eq_true.mp hchars d (n.mem_literalChars_of_mem_spelling hd)

/-- No number is a name. -/
lemma NumberToken.toList_ne (t : NumberToken) (n : Name) : t.text.toList ≠ n.text.toList := by
  obtain ⟨c, cs, hcs, hdigit, -⟩ := t.exists_cons
  obtain ⟨c', cs', hcs', hdigit', -⟩ := n.exists_cons
  intro h
  rw [hcs, hcs'] at h
  rw [(List.cons.inj h).1, hdigit'] at hdigit
  cases hdigit

/-! ### Derivations -/

/-- A derivation from a tier of the grammar. -/
inductive Derivation : Tier → Type where
  /-- An assignment is a target and its value, which may be an assignment again. -/
  | assign (target : Name) (value : Derivation .assign) : Derivation .assign
  /-- What binds tighter than a tier asks is derived from the next tighter tier. -/
  | unit {τ : Tier} (loose : τ ≠ .atom) (d : Derivation τ.tighter) : Derivation τ
  /-- An operation has a left operand of its own tier and a tighter right one. -/
  | binary {τ : Tier} (op : Operator) (hop : op.tier = τ) (left : Derivation τ)
      (right : Derivation τ.tighter) : Derivation τ
  /-- A number is an atom. -/
  | number (token : NumberToken) : Derivation .atom
  /-- A name is an atom. -/
  | name (token : Name) : Derivation .atom
  /-- In parentheses anything is an atom. -/
  | parentheses (d : Derivation .assign) : Derivation .atom

namespace Derivation

/-- The characters that are derived. -/
def chars : {τ : Tier} → Derivation τ → List Char
  | _, assign target value => target.text.toList ++ gets ++ value.chars
  | _, unit _ d => d.chars
  | _, binary op _ left right => left.chars ++ op.sign ++ right.chars
  | _, number token => token.text.toList
  | _, name token => token.text.toList
  | _, parentheses d => ['('] ++ d.chars ++ [')']

/-- The expression that is built; parentheses leave no trace in it. -/
def tree : {τ : Tier} → Derivation τ → Expr
  | _, assign target value => .assign target.text value.tree
  | _, unit _ d => d.tree
  | _, binary op _ left right => .binary op left.tree right.tree
  | _, number token => .number token.value
  | _, name token => .symbol token.text
  | _, parentheses d => d.tree

/-! ### Unambiguity -/

/-- A derivation is told from the text before it: where a text ends with the characters of two
derivations from one tier, each of which may start where it does, they start at the same place and
are the same. -/
def Parted {τ : Tier} (d : Derivation τ) : Prop :=
  ∀ (d' : Derivation τ) (p p' : List Char), Opens τ p → Opens τ p' →
    p ++ d.chars = p' ++ d'.chars → p = p' ∧ d = d'

/-- An atom is a token or stands in parentheses. -/
lemma token_or_parentheses (d : Derivation .atom) :
    (d.chars ≠ [] ∧ ∀ c ∈ d.chars, isSeparator c = false) ∨ ∃ e, d = parentheses e := by
  cases d with
  | unit loose d => exact absurd rfl loose
  | binary op hop left right => exact absurd hop op.tier_ne_atom
  | number token =>
      obtain ⟨c, cs, hcs, -, hsep⟩ := token.exists_cons
      rw [chars, hcs]
      exact Or.inl ⟨List.cons_ne_nil c cs, hsep⟩
  | name token =>
      obtain ⟨c, cs, hcs, -, hsep⟩ := token.exists_cons
      rw [chars, hcs]
      exact Or.inl ⟨List.cons_ne_nil c cs, hsep⟩
  | parentheses e => exact Or.inr ⟨e, rfl⟩

/-- The characters of a token tell which atom it is. -/
lemma eq_of_token {d d' : Derivation .atom} (hd : ∀ c ∈ d.chars, isSeparator c = false)
    (h : d.chars = d'.chars) : d = d' := by
  have hparen : ∀ e : Derivation .assign, '(' ∈ (parentheses e).chars := fun e => by simp [chars]
  cases d with
  | unit loose d => exact absurd rfl loose
  | binary op hop left right => exact absurd hop op.tier_ne_atom
  | parentheses e => exact absurd (hd '(' (hparen e)) (by decide)
  | number token =>
      cases d' with
      | unit loose d => exact absurd rfl loose
      | binary op hop left right => exact absurd hop op.tier_ne_atom
      | parentheses e => exact absurd (hd '(' (h ▸ hparen e)) (by decide)
      | number token' => rw [NumberToken.eq_of_text_eq (String.toList_inj.mp h)]
      | name token' => exact absurd h (token.toList_ne token')
  | name token =>
      cases d' with
      | unit loose d => exact absurd rfl loose
      | binary op hop left right => exact absurd hop op.tier_ne_atom
      | parentheses e => exact absurd (hd '(' (h ▸ hparen e)) (by decide)
      | number token' => exact absurd h.symm (token'.toList_ne token)
      | name token' => rw [Name.ext (String.toList_inj.mp h)]

/-- A token does not end with a parenthesis. -/
lemma append_token_ne {p p' t cs : List Char} (hne : t ≠ [])
    (ht : ∀ c ∈ t, isSeparator c = false) : p ++ t ≠ p' ++ (cs ++ [')']) := by
  intro h
  obtain ⟨b, c, rfl⟩ := (List.eq_nil_or_concat t).resolve_left hne
  rw [List.concat_eq_append, ← List.append_assoc, ← List.append_assoc] at h
  obtain rfl : c = ')' := List.singleton_inj.mp (List.append_inj' h rfl).2
  exact absurd (ht ')' (by simp)) (by decide)

lemma parted_token {d : Derivation .atom} (hne : d.chars ≠ [])
    (hd : ∀ c ∈ d.chars, isSeparator c = false) : Parted d := by
  intro d' p p' hp hp' h
  rcases token_or_parentheses d' with ⟨-, hd'⟩ | ⟨e, rfl⟩
  · obtain ⟨hpp, hchars⟩ := append_token_inj hp hp' hd hd' h
    exact ⟨hpp, eq_of_token hd hchars⟩
  · exact absurd h (append_token_ne hne hd)

lemma parted_parentheses {d : Derivation .assign} (hd : Parted d) : Parted (parentheses d) := by
  intro d' p p' hp hp' h
  rcases token_or_parentheses d' with ⟨hne', hd'⟩ | ⟨e, rfl⟩
  · exact absurd h.symm (append_token_ne hne' hd')
  · rw [chars, chars, ← List.append_assoc, ← List.append_assoc, ← List.append_assoc,
      ← List.append_assoc] at h
    have hinner := (List.append_inj' h rfl).1
    obtain ⟨hpp, rfl⟩ := hd e _ _ (opens_parenthesis _ p) (opens_parenthesis _ p') hinner
    exact ⟨(List.append_inj' hpp rfl).1, rfl⟩

/-- A derivation that could start after a sign of its tier has started before the left operand of
that sign. -/
lemma append_ne_of_sign {τ : Tier} {op : Operator} (hop : op.tier = τ) {left : Derivation τ}
    {right d : Derivation τ.tighter} (hparted : Parted right ∨ Parted d) {p p' : List Char}
    (hp' : Opens τ p') : p ++ (left.chars ++ op.sign ++ right.chars) ≠ p' ++ d.chars := by
  intro h
  rw [← List.append_assoc, ← List.append_assoc] at h
  have hstart : p ++ left.chars ++ op.sign = p' := by
    rcases hparted with hright | hd
    · exact (hright d _ _ (opens_sign hop _) hp'.tighter h).1
    · exact (hd right _ _ hp'.tighter (opens_sign hop _) h.symm).1.symm
  rw [← hstart] at hp'
  exact not_opens_sign hop _ hp'

lemma parted_unit {τ : Tier} (loose : τ ≠ .atom) (hne : τ ≠ .assign) {d : Derivation τ.tighter}
    (hd : Parted d) : Parted (unit loose d) := by
  intro d' p p' hp hp' h
  cases d' with
  | assign target value => exact absurd rfl hne
  | unit loose' e =>
      obtain ⟨hpp, rfl⟩ := hd e p p' hp.tighter hp'.tighter h
      exact ⟨hpp, rfl⟩
  | binary op hop left right => exact absurd h.symm (append_ne_of_sign hop (Or.inr hd) hp)
  | number token => exact absurd rfl loose
  | name token => exact absurd rfl loose
  | parentheses e => exact absurd rfl loose

/-- An operation is divided at its last sign: the right operand is told from what stands before
it, and the left operand from what stands before the operation. -/
lemma parted_binary {τ : Tier} {op : Operator} (hop : op.tier = τ) {left : Derivation τ}
    {right : Derivation τ.tighter} (hleft : Parted left) (hright : Parted right) :
    Parted (binary op hop left right) := by
  intro d' p p' hp hp' h
  cases d' with
  | assign target value => exact absurd hop op.tier_ne_assign
  | unit loose e => exact absurd h (append_ne_of_sign hop (Or.inl hright) hp')
  | binary op' hop' left' right' =>
      rw [chars, chars, ← List.append_assoc, ← List.append_assoc, ← List.append_assoc,
        ← List.append_assoc] at h
      obtain ⟨hsign, rfl⟩ := hright right' _ _ (opens_sign hop _) (opens_sign hop' _) h
      obtain ⟨hstart, rfl⟩ := Operator.append_sign_inj (hop.trans hop'.symm) hsign
      obtain ⟨hpp, rfl⟩ := hleft left' p p' hp hp' hstart
      exact ⟨hpp, rfl⟩
  | number token => exact absurd hop op.tier_ne_atom
  | name token => exact absurd hop op.tier_ne_atom
  | parentheses e => exact absurd hop op.tier_ne_atom

/-! ### Rows of assignments -/

/-- A derivation with further targets in front of it. -/
def targets (ns : List Name) (d : Derivation .assign) : Derivation .assign := ns.foldr assign d

/-- The characters of targets, each with its sign. -/
def targetChars (ns : List Name) : List Char := ns.flatMap fun n => n.text.toList ++ gets

lemma chars_targets (ns : List Name) (d : Derivation .assign) :
    (targets ns d).chars = targetChars ns ++ d.chars := by
  induction ns with
  | nil => rfl
  | cons n ns ih =>
      rw [targetChars, List.flatMap_cons, List.append_assoc (n.text.toList ++ gets)]
      exact congrArg _ ih

lemma targetChars_concat (ns : List Name) (n : Name) :
    targetChars (ns ++ [n]) = targetChars ns ++ n.text.toList ++ gets := by
  simp [targetChars]

lemma opens_targetChars {p : List Char} (hp : Opens .assign p) (ns : List Name) :
    Opens .eq (p ++ targetChars ns) := by
  rcases List.eq_nil_or_concat ns with rfl | ⟨ms, n, rfl⟩
  · rw [targetChars, List.flatMap_nil, List.append_nil]
    exact hp.tighter
  · rw [List.concat_eq_append, targetChars_concat, ← List.append_assoc]
    exact opens_gets _

/-- No row of assignments starts after targets: it has started before them. -/
lemma eq_nil_of_opens {p : List Char} {ns : List Name} (h : Opens .assign (p ++ targetChars ns)) :
    ns = [] := by
  rcases List.eq_nil_or_concat ns with rfl | ⟨ms, n, rfl⟩
  · rfl
  · rw [List.concat_eq_append, targetChars_concat, ← List.append_assoc] at h
    exact absurd h (not_opens_gets _)

/-- Targets are told from the text before them, from the last one to the first. -/
lemma append_targetChars_inj {p p' : List Char} (hp : Opens .assign p) (hp' : Opens .assign p')
    {ns ns' : List Name} (h : p ++ targetChars ns = p' ++ targetChars ns') :
    p = p' ∧ ns = ns' := by
  induction ns using List.reverseRecOn generalizing ns' with
  | nil =>
      rw [targetChars, List.flatMap_nil, List.append_nil] at h
      rw [h] at hp
      obtain rfl := eq_nil_of_opens hp
      exact ⟨by rw [h, targetChars, List.flatMap_nil, List.append_nil], rfl⟩
  | append_singleton ns n ih =>
      rcases List.eq_nil_or_concat ns' with rfl | ⟨ms, m, rfl⟩
      · rw [targetChars, targetChars, List.flatMap_nil, List.append_nil] at h
        rw [← h] at hp'
        exact absurd (eq_nil_of_opens hp') (by simp)
      · rw [List.concat_eq_append, targetChars_concat, targetChars_concat, ← List.append_assoc,
          ← List.append_assoc, ← List.append_assoc, ← List.append_assoc] at h
        obtain ⟨c, cs, hcs, -, hsep⟩ := n.exists_cons
        obtain ⟨c', cs', hcs', -, hsep'⟩ := m.exists_cons
        obtain ⟨hstart, hname⟩ := append_token_inj (opens_targetChars hp ns)
          (opens_targetChars hp' ms) (hcs ▸ hsep) (hcs' ▸ hsep') (List.append_inj' h rfl).1
        obtain ⟨hpp, rfl⟩ := ih hstart
        rw [Name.ext (String.toList_inj.mp hname), List.concat_eq_append]
        exact ⟨hpp, rfl⟩

/-- Every derivation of an assignment is a row of targets before an expression of the next tighter
tier. -/
lemma exists_targets : ∀ d : Derivation .assign,
    ∃ ns loose, ∃ e : Derivation .eq, d = targets ns (unit loose e)
  | assign target value => by
      obtain ⟨ns, loose, e, rfl⟩ := exists_targets value
      exact ⟨target :: ns, loose, e, rfl⟩
  | unit loose e => ⟨[], loose, e, rfl⟩
  | binary op hop _ _ => absurd hop op.tier_ne_assign

/-- A row of assignments is divided at its last target: the value is told from the targets, and
they are told from the text before them. -/
lemma parted_targets {loose : Tier.assign ≠ .atom} {e : Derivation .eq} (he : Parted e)
    (ns : List Name) : Parted (targets ns (unit loose e)) := by
  intro d' p p' hp hp' h
  obtain ⟨ns', loose', e', rfl⟩ := exists_targets d'
  rw [chars_targets, chars_targets, ← List.append_assoc, ← List.append_assoc] at h
  obtain ⟨htargets, rfl⟩ := he e' _ _ (opens_targetChars hp ns) (opens_targetChars hp' ns') h
  obtain ⟨hpp, rfl⟩ := append_targetChars_inj hp hp' htargets
  exact ⟨hpp, rfl⟩

/-- What the induction carries: on the loosest tier a derivation is told from the text before it
with any further targets in front. -/
def PartedBehindTargets : {τ : Tier} → Derivation τ → Prop
  | .assign, d => ∀ ns, Parted (targets ns d)
  | .eq, d | .add, d | .mul, d | .atom, d => Parted d

lemma PartedBehindTargets.parted {τ : Tier} {d : Derivation τ} (h : d.PartedBehindTargets) :
    Parted d := by
  cases τ with
  | assign => exact h []
  | _ => exact h

lemma partedBehindTargets_of_ne {τ : Tier} (hne : τ ≠ .assign) {d : Derivation τ}
    (h : Parted d) : d.PartedBehindTargets := by
  cases τ with
  | assign => exact absurd rfl hne
  | _ => exact h

lemma partedBehindTargets {τ : Tier} (d : Derivation τ) : d.PartedBehindTargets := by
  induction d with
  | assign target value ih =>
      intro ns
      have hmoved : targets ns (assign target value) = targets (ns ++ [target]) value := by
        rw [targets, targets, List.foldr_append]
        rfl
      rw [hmoved]
      exact ih (ns ++ [target])
  | @unit τ loose d ih =>
      by_cases hne : τ = .assign
      · subst hne
        exact parted_targets ih.parted
      · exact partedBehindTargets_of_ne hne (parted_unit loose hne ih.parted)
  | @binary τ op hop left right ihleft ihright =>
      have hne : τ ≠ .assign := hop ▸ op.tier_ne_assign
      exact partedBehindTargets_of_ne hne (parted_binary hop ihleft.parted ihright.parted)
  | number token =>
      rcases token_or_parentheses (number token) with ⟨hne, hsep⟩ | ⟨e, he⟩
      · exact parted_token hne hsep
      · cases he
  | name token =>
      rcases token_or_parentheses (name token) with ⟨hne, hsep⟩ | ⟨e, he⟩
      · exact parted_token hne hsep
      · cases he
  | parentheses d ih => exact parted_parentheses ih.parted

/-- **Unambiguity.** No text has two derivations from one tier. -/
theorem chars_injective {τ : Tier} : Function.Injective (@chars τ) := by
  intro d d' h
  exact (d.partedBehindTargets.parted d' [] [] (opens_nil τ) (opens_nil τ) h).2

end Derivation

end Abacus
