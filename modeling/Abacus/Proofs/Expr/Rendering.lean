import Mathlib.Tactic
import Abacus.Expr.Render
import Abacus.Proofs.Decimal.RoundTrip
import Abacus.Proofs.Expr.Grammar

/-!
The written form of an expression determines it.

* `Expr.isWritable`: the names of an expression are identifiers, and its numbers are finite and have
  no minus sign.
* `Derivation.exists_raised`: what is derived from a tier is derived from every looser one.
* `Expr.exists_derivation`: parentheses stand where a tier asks for them, so the written form of
  every operand has a derivation from the tier of its place, and it builds the operand.
* `Expr.render_derivation_unique`: the written form has one derivation, and it builds the
  expression.
-/

namespace Abacus

namespace Derivation

/-- What is derived from a tier is derived from every looser tier. -/
lemma exists_raised {τ τ' : Tier} (d : Derivation τ) (h : τ.precedence ≤ τ'.precedence) :
    ∃ d' : Derivation τ', d'.chars = d.chars ∧ d'.tree = d.tree := by
  -- the steps lead from the looser tier down to that of the derivation
  induction hn : τ'.precedence using Nat.strong_induction_on generalizing τ' with
  | _ n ih =>
      rcases Tier.eq_or_le_tighter h with rfl | ⟨loose, hle⟩
      · exact ⟨d, rfl, rfl⟩
      · obtain ⟨d', hchars, htree⟩ := ih _ (hn ▸ Tier.precedence_tighter_lt loose) hle rfl
        exact ⟨unit loose d', hchars, htree⟩

end Derivation

namespace Expr

/-- The tier that an expression is derived from without parentheses. -/
def tier : Expr → Tier
  | number _ | symbol _ => .atom
  | binary op _ _ => op.tier
  | assign _ _ => .assign

/-- Whether the names of an expression are identifiers and its numbers are finite and have no minus
sign. -/
def isWritable : Expr → Bool
  | number (.finite negative _) => !negative
  | number _ => false
  | symbol name => isIdentifier name.toList
  | binary _ l r => l.isWritable && r.isWritable
  | assign target v => isIdentifier target.toList && v.isWritable

lemma exists_of_isWritable_number {x : Double} (h : (number x).isWritable = true) :
    ∃ m, x = .finite false m := by
  rcases x with _ | negative | ⟨negative, m⟩
  · cases h
  · cases h
  · cases negative with
    | false => exact ⟨m, rfl⟩
    | true => cases h

lemma precedence_tier (e : Expr) : e.tier.precedence = e.precedence := by
  cases e with
  | binary op l r => exact op.precedence_tier
  | _ => rfl

/-- In a right operand, to bind as loosely as the operator is to bind more loosely than the next
tighter tier. -/
lemma precedence_le_iff (op : Operator) (e : Expr) :
    op.precedence ≤ e.precedence ↔ op.tier.tighter.precedence < e.precedence := by
  rw [← op.precedence_tier, ← e.precedence_tier]
  generalize e.tier = τ
  cases op <;> cases τ <;> decide

lemma toList_enclosed (condition : Bool) (text : String) :
    (enclosed condition text).toList
      = if condition then ['('] ++ text.toList ++ [')'] else text.toList := by
  cases condition with
  | true =>
      rw [enclosed, if_pos rfl, if_pos rfl, String.toList_append, String.toList_append]
      rfl
  | false => rfl

/-- The written form of an expression can stand where an assignment can. -/
lemma exists_derivation_assign {e : Expr}
    (h : ∃ d : Derivation e.tier, d.chars = e.render.toList ∧ d.tree = e) :
    ∃ d : Derivation .assign, d.chars = e.render.toList ∧ d.tree = e := by
  obtain ⟨d, hchars, htree⟩ := h
  obtain ⟨d', hchars', htree'⟩ := d.exists_raised e.tier.precedence_le_assign
  exact ⟨d', hchars'.trans hchars, htree'.trans htree⟩

/-- At a place of the given tier an expression is written bare if it binds tightly enough, and in
parentheses otherwise. -/
lemma exists_derivation_enclosed {e : Expr}
    (h : ∃ d : Derivation e.tier, d.chars = e.render.toList ∧ d.tree = e) (τ : Tier) :
    ∃ d : Derivation τ,
      d.chars = (enclosed (decide (τ.precedence < e.precedence)) e.render).toList
        ∧ d.tree = e := by
  rw [toList_enclosed, ← e.precedence_tier]
  by_cases hlt : τ.precedence < e.tier.precedence
  · rw [if_pos (decide_eq_true hlt)]
    obtain ⟨inner, hchars, htree⟩ := exists_derivation_assign h
    obtain ⟨d', hchars', htree'⟩ :=
      (Derivation.parentheses inner).exists_raised (Nat.zero_le τ.precedence)
    exact ⟨d', by rw [hchars', Derivation.chars, hchars], htree'.trans htree⟩
  · rw [if_neg (by simpa using hlt)]
    obtain ⟨d, hchars, htree⟩ := h
    obtain ⟨d', hchars', htree'⟩ := d.exists_raised (not_lt.mp hlt)
    exact ⟨d', hchars'.trans hchars, htree'.trans htree⟩

/-- The written form of an expression has a derivation that builds it. -/
lemma exists_derivation {e : Expr} (he : e.isWritable = true) :
    ∃ d : Derivation e.tier, d.chars = e.render.toList ∧ d.tree = e := by
  induction e with
  | number x =>
      obtain ⟨m, rfl⟩ := exists_of_isWritable_number he
      exact ⟨.number ⟨(Double.finite false m).text, _, Double.value_text m⟩, rfl, rfl⟩
  | symbol name => exact ⟨.name ⟨name, he⟩, rfl, rfl⟩
  | binary op l r ihl ihr =>
      obtain ⟨hl, hr⟩ := Bool.and_eq_true_iff.mp he
      obtain ⟨left, hleft, hltree⟩ := exists_derivation_enclosed (ihl hl) op.tier
      obtain ⟨right, hright, hrtree⟩ := exists_derivation_enclosed (ihr hr) op.tier.tighter
      refine ⟨.binary op rfl left right, ?_, ?_⟩
      · change left.chars ++ op.sign ++ right.chars = (render (.binary op l r)).toList
        rw [hleft, hright, render]
        simp only [precedence_le_iff, op.precedence_tier, String.toList_append, Operator.sign]
        simp
      · change binary op left.tree right.tree = _
        rw [hltree, hrtree]
  | assign target v ih =>
      obtain ⟨htarget, hv⟩ := Bool.and_eq_true_iff.mp he
      obtain ⟨value, hvalue, htree⟩ := exists_derivation_assign (ih hv)
      refine ⟨.assign ⟨target, htarget⟩ value, ?_, congrArg (assign target) htree⟩
      change target.toList ++ gets ++ value.chars = (render (.assign target v)).toList
      rw [hvalue, render, String.toList_append, String.toList_append]
      rfl

/-- **Rendering loses nothing.** The written form of an expression has a derivation, which builds
the expression with the same numbers, and it has no other one. So no other expression has the same
written form. -/
theorem render_derivation_unique (e : Expr) (he : e.isWritable = true) :
    (∃ d : Derivation .assign, d.chars = e.render.toList ∧ d.tree = e
      ∧ ∀ d' : Derivation .assign, d'.chars = e.render.toList → d' = d)
    ∧ ∀ e' : Expr, e'.isWritable = true → e'.render = e.render → e' = e := by
  obtain ⟨d, hchars, htree⟩ := exists_derivation_assign (exists_derivation he)
  refine ⟨⟨d, hchars, htree, fun d' hd' => ?_⟩, fun e' he' hrender => ?_⟩
  · exact Derivation.chars_injective (hd'.trans hchars.symm)
  · obtain ⟨d', hchars', htree'⟩ := exists_derivation_assign (exists_derivation he')
    rw [hrender] at hchars'
    rw [← htree, ← htree', Derivation.chars_injective (hchars'.trans hchars.symm)]

/-- An expression in which a right operand needs parentheses that it would not need on the left, and
an assignment needs them as an operand. -/
def enclosedOperands : Expr :=
  .assign "x" (.binary .eq
    (.binary .sub (.symbol "y_1") (.binary .sub (.number .one) (.symbol "z")))
    (.binary .mul (.assign "x" (.symbol "y_1")) (.symbol "z")))

/-- The theorem at an expression whose parentheses depend on the sides of its operators. -/
theorem render_derivation_unique_enclosed :
    enclosedOperands.isWritable = true
    ∧ enclosedOperands.render = "x = y_1 - (1 - z) == (x = y_1) * z"
    ∧ ∃ d : Derivation .assign, d.chars = "x = y_1 - (1 - z) == (x = y_1) * z".toList
        ∧ d.tree = enclosedOperands
        ∧ ∀ d' : Derivation .assign,
            d'.chars = "x = y_1 - (1 - z) == (x = y_1) * z".toList → d' = d := by
  have hwritable : enclosedOperands.isWritable = true := by decide +kernel
  have hrender : enclosedOperands.render = "x = y_1 - (1 - z) == (x = y_1) * z" := by
    decide +kernel
  refine ⟨hwritable, hrender, ?_⟩
  rw [← hrender]
  exact (render_derivation_unique enclosedOperands hwritable).1

end Expr

end Abacus
