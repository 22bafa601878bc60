import Mathlib.Tactic
import Abacus.Proofs.Expr.Rendering

/-!
The written form has the fewest parentheses.

* `Derivation.pairs`: the pairs of parentheses of a derivation. Its text has as many parentheses of
  either kind (`count_chars`), as no token contains any.
* `Expr.pairs`, `Expr.pairsAt`: the pairs of an expression's written form, by itself and at a place
  of a given tier. The tighter the tier, the more there are (`pairsAt_le_tighter`).
* `Derivation.pairsAt_tree_le`: no derivation from a tier has fewer. Where it has parentheses, the
  expression inside may stand on the loosest tier, and this saves at most the one pair.
* `Expr.render_fewest_parentheses`: what this says of the written form.
-/

namespace Abacus

/-- The two parentheses. -/
def isParenthesis (c : Char) : Bool := c == '(' || c == ')'

lemma eq_or_eq_of_isParenthesis {c : Char} (hc : isParenthesis c = true) : c = '(' ∨ c = ')' := by
  simpa [isParenthesis] using hc

section Count

variable {c : Char} (hc : isParenthesis c = true)
include hc

lemma count_token {t : List Char} (ht : ∀ d ∈ t, isSeparator d = false) : t.count c = 0 := by
  rw [List.count_eq_zero]
  intro hmem
  have hsep := ht c hmem
  rcases eq_or_eq_of_isParenthesis hc with rfl | rfl
  · exact absurd hsep (by decide)
  · exact absurd hsep (by decide)

lemma Name.count_text (n : Name) : n.text.toList.count c = 0 := by
  obtain ⟨d, cs, hcs, -, hsep⟩ := n.exists_cons
  rw [hcs]
  exact count_token hc hsep

lemma NumberToken.count_text (t : NumberToken) : t.text.toList.count c = 0 := by
  obtain ⟨d, cs, hcs, -, hsep⟩ := t.exists_cons
  rw [hcs]
  exact count_token hc hsep

lemma count_gets : gets.count c = 0 := by
  rcases eq_or_eq_of_isParenthesis hc with rfl | rfl <;> decide

lemma Operator.count_sign (op : Operator) : op.sign.count c = 0 := by
  rcases eq_or_eq_of_isParenthesis hc with rfl | rfl <;> cases op <;> decide

/-- A text in parentheses has one more of either. -/
lemma count_parentheses (cs : List Char) : (['('] ++ cs ++ [')']).count c = cs.count c + 1 := by
  rcases eq_or_eq_of_isParenthesis hc with rfl | rfl <;> simp

end Count

/-! ### The pairs of a derivation -/

namespace Derivation

/-- The number of pairs of parentheses. -/
def pairs : {τ : Tier} → Derivation τ → ℕ
  | _, assign _ value => value.pairs
  | _, unit _ d => d.pairs
  | _, binary _ _ left right => left.pairs + right.pairs
  | _, number _ => 0
  | _, name _ => 0
  | _, parentheses d => d.pairs + 1

/-- The text of a derivation has a parenthesis of either kind for each pair. -/
lemma count_chars {c : Char} (hc : isParenthesis c = true) {τ : Tier} (d : Derivation τ) :
    d.chars.count c = d.pairs := by
  induction d with
  | assign target value ih =>
      rw [chars, List.count_append, List.count_append, target.count_text hc, count_gets hc, ih,
        pairs, Nat.zero_add]
  | unit loose d ih => exact ih
  | binary op hop left right ihleft ihright =>
      rw [chars, List.count_append, List.count_append, op.count_sign hc, ihleft, ihright, pairs,
        Nat.add_zero]
  | number token => exact token.count_text hc
  | name token => exact token.count_text hc
  | parentheses d ih => rw [chars, count_parentheses hc, ih, pairs]

end Derivation

/-! ### The pairs of a written form -/

namespace Expr

/-- The number of pairs of parentheses in the written form. -/
def pairs : Expr → ℕ
  | number _ | symbol _ => 0
  | binary op l r =>
    l.pairs + (decide (op.precedence < l.precedence)).toNat
      + (r.pairs + (decide (op.precedence ≤ r.precedence)).toNat)
  | assign _ v => v.pairs

/-- The number of pairs of parentheses in the written form at a place of the given tier. -/
def pairsAt (τ : Tier) (e : Expr) : ℕ :=
  e.pairs + (decide (τ.precedence < e.precedence)).toNat

/-- An operator's operands stand on its tier and on the next tighter one. -/
lemma pairs_binary (op : Operator) (l r : Expr) :
    (binary op l r).pairs = l.pairsAt op.tier + r.pairsAt op.tier.tighter := by
  rw [pairs, pairsAt, pairsAt, op.precedence_tier]
  simp only [precedence_le_iff]

/-- A place of an expression's own tier needs no parentheses. -/
lemma pairsAt_tier (e : Expr) : e.pairsAt e.tier = e.pairs := by
  simp [pairsAt, e.precedence_tier]

lemma pairs_le_pairsAt (τ : Tier) (e : Expr) : e.pairs ≤ e.pairsAt τ := Nat.le_add_right _ _

lemma pairsAt_le_succ (τ : Tier) (e : Expr) : e.pairsAt τ ≤ e.pairs + 1 :=
  Nat.add_le_add_left (Bool.toNat_le _) _

/-- At a tighter place there are no fewer pairs. -/
lemma pairsAt_le_tighter (τ : Tier) (e : Expr) : e.pairsAt τ ≤ e.pairsAt τ.tighter := by
  have hle := τ.precedence_tighter_le
  refine Nat.add_le_add_left (Bool.toNat_le_toNat fun h => ?_) _
  rw [decide_eq_true_eq] at h ⊢
  exact hle.trans_lt h

lemma count_enclosed {c : Char} (hc : isParenthesis c = true) (condition : Bool) (text : String) :
    (enclosed condition text).toList.count c = text.toList.count c + condition.toNat := by
  rw [toList_enclosed]
  cases condition with
  | true => exact count_parentheses hc _
  | false => rfl

lemma toList_render_binary (op : Operator) (l r : Expr) :
    (binary op l r).render.toList
      = (enclosed (decide (op.precedence < l.precedence)) l.render).toList ++ op.sign
        ++ (enclosed (decide (op.precedence ≤ r.precedence)) r.render).toList := by
  simp [render, Operator.sign]

/-- The written form has a parenthesis of either kind for each pair. -/
lemma count_render {c : Char} (hc : isParenthesis c = true) {e : Expr} (he : e.isWritable = true) :
    e.render.toList.count c = e.pairs := by
  induction e with
  | number x =>
      obtain ⟨m, rfl⟩ := exists_of_isWritable_number he
      exact NumberToken.count_text hc ⟨_, _, Double.value_text m⟩
  | symbol name => exact Name.count_text hc ⟨name, he⟩
  | binary op l r ihl ihr =>
      obtain ⟨hl, hr⟩ := Bool.and_eq_true_iff.mp he
      rw [toList_render_binary, List.count_append, List.count_append, op.count_sign hc,
        count_enclosed hc, count_enclosed hc, ihl hl, ihr hr, pairs, Nat.add_zero]
  | assign target v ih =>
      obtain ⟨htarget, hv⟩ := Bool.and_eq_true_iff.mp he
      have hname : target.toList.count c = 0 := Name.count_text hc ⟨target, htarget⟩
      have hgets : " = ".toList.count c = 0 := count_gets hc
      rw [render, String.toList_append, String.toList_append, List.count_append,
        List.count_append, hname, hgets, ih hv, pairs, Nat.zero_add]

end Expr

/-! ### No derivation has fewer -/

/-- A derivation from a tier has at least the pairs of the written form at a place of that
tier. -/
lemma Derivation.pairsAt_tree_le {τ : Tier} (d : Derivation τ) : d.tree.pairsAt τ ≤ d.pairs := by
  induction d with
  | assign target value ih =>
      calc (Expr.assign target.text value.tree).pairsAt .assign
          = value.tree.pairs := Expr.pairsAt_tier (.assign target.text value.tree)
        _ ≤ value.tree.pairsAt .assign := Expr.pairs_le_pairsAt _ _
        _ ≤ value.pairs := ih
  | @unit τ loose d ih => exact (Expr.pairsAt_le_tighter τ d.tree).trans ih
  | binary op hop left right ihleft ihright =>
      subst hop
      calc (Expr.binary op left.tree right.tree).pairsAt op.tier
          = (Expr.binary op left.tree right.tree).pairs :=
            Expr.pairsAt_tier (.binary op left.tree right.tree)
        _ = left.tree.pairsAt op.tier + right.tree.pairsAt op.tier.tighter :=
            Expr.pairs_binary op left.tree right.tree
        _ ≤ left.pairs + right.pairs := Nat.add_le_add ihleft ihright
  | number token => exact (Expr.pairsAt_tier (.number token.value)).le
  | name token => exact (Expr.pairsAt_tier (.symbol token.text)).le
  | parentheses d ih =>
      -- inside, the expression has stood on the loosest tier
      calc d.tree.pairsAt .atom
          ≤ d.tree.pairs + 1 := Expr.pairsAt_le_succ _ _
        _ ≤ d.tree.pairsAt .assign + 1 := Nat.add_le_add_right (Expr.pairs_le_pairsAt _ _) 1
        _ ≤ d.pairs + 1 := Nat.add_le_add_right ih 1

namespace Expr

/-- The text of every derivation that builds an expression has at least as many parentheses of
either kind as its written form. -/
lemma count_render_le {c : Char} (hc : isParenthesis c = true) {e : Expr}
    (he : e.isWritable = true) {d : Derivation .assign} (hd : d.tree = e) :
    e.render.toList.count c ≤ d.chars.count c := by
  rw [count_render hc he, d.count_chars hc, ← hd]
  exact (pairs_le_pairsAt .assign d.tree).trans d.pairsAt_tree_le

/-- **The written form has the fewest parentheses.** The written form of an expression has a
derivation that builds the expression, and the text of every other derivation that builds it has at
least as many opening and as many closing parentheses. So if any one pair of parentheses is deleted
from the written form, no derivation of the text that is left builds the expression. -/
theorem render_fewest_parentheses (e : Expr) (he : e.isWritable = true) :
    (∃ d : Derivation .assign, d.chars = e.render.toList ∧ d.tree = e)
    ∧ (∀ d : Derivation .assign, d.tree = e →
        e.render.toList.count '(' ≤ d.chars.count '('
        ∧ e.render.toList.count ')' ≤ d.chars.count ')')
    ∧ ∀ before inner after, e.render.toList = before ++ '(' :: inner ++ ')' :: after →
        ∀ d : Derivation .assign, d.chars = before ++ inner ++ after → d.tree ≠ e := by
  refine ⟨exists_derivation_assign (exists_derivation he),
    fun d hd => ⟨count_render_le rfl he hd, count_render_le rfl he hd⟩, ?_⟩
  intro before inner after hrender d hchars hd
  have hfewer : (before ++ '(' :: inner ++ ')' :: after).count '('
      = (before ++ inner ++ after).count '(' + 1 := by
    simp only [List.count_append, List.count_cons_self,
      List.count_cons_of_ne (show ')' ≠ '(' by decide)]
    omega
  have hle := count_render_le (c := '(') rfl he hd
  rw [hrender, hchars, hfewer] at hle
  exact Nat.not_succ_le_self _ hle

/-- The theorem at an expression with two pairs: without the pair around the right operand of the
subtraction, its written form builds another expression. -/
theorem render_fewest_parentheses_right_operand :
    enclosedOperands.render = "x = y_1 - (1 - z) == (x = y_1) * z"
    ∧ (∀ d : Derivation .assign, d.tree = enclosedOperands → 2 ≤ d.chars.count '(')
    ∧ ∀ d : Derivation .assign,
        d.chars = "x = y_1 - 1 - z == (x = y_1) * z".toList → d.tree ≠ enclosedOperands := by
  have hwritable : enclosedOperands.isWritable = true := by decide +kernel
  have hrender : enclosedOperands.render = "x = y_1 - (1 - z) == (x = y_1) * z" := by
    decide +kernel
  obtain ⟨-, hfewest, hdeleted⟩ := render_fewest_parentheses enclosedOperands hwritable
  refine ⟨hrender, fun d hd => ?_, fun d hd => ?_⟩
  · have hle := (hfewest d hd).1
    rwa [hrender] at hle
  · exact hdeleted "x = y_1 - ".toList "1 - z".toList " == (x = y_1) * z".toList
      (by rw [hrender]; decide) d hd

end Expr

end Abacus
