import Mathlib.Tactic
import Abacus.Evaluation.Resolve
import Abacus.Proofs.Double.WrittenForm

/-!
What equality of expressions can be trusted for.

Numbers are compared by value, so an expression with a NaN in it differs from itself, and
expressions that differ in the sign of a zero are equal although they need not have the same value.

* `Double.eq_or_zeros_of_equals`: equal numbers are the same number, the two zeros apart.
* `Expr.Alike`: equality of expressions by rules, one for each kind of node (`equals_iff_alike`).
  It is symmetric and transitive since equality of numbers is.
* `Expr.numbers`: the numbers in an expression. Equality is reflexive exactly if none of them is
  NaN (`alike_self_iff`), and it is identity if none is a zero (`Alike.eq_of_no_zero`).
* `Expr.equals_partial_equivalence`: what this says of all expressions.
-/

namespace Abacus

/-! ### Equality of numbers -/

namespace Double

variable {x y z : Double}

lemma equals_trans (hxy : x.equals y = true) (hyz : y.equals z = true) : x.equals z = true := by
  obtain ⟨p, hx, hy⟩ := equals_iff.mp hxy
  obtain ⟨q, hy', hz⟩ := equals_iff.mp hyz
  have hplace : p = q := Option.some.inj (hy.symm.trans hy')
  exact equals_iff.mpr ⟨p, hx, hplace ▸ hz⟩

lemma ne_nan_of_equals (h : x.equals y = true) : x ≠ nan := by
  rintro rfl
  obtain ⟨p, hx, -⟩ := equals_iff.mp h
  cases hx

/-- A place on the line other than zero belongs to one sign and one count. -/
lemma signed_inj {s t : Bool} {m n : ℕ} (h : signed s m = signed t n) (hm : m ≠ 0) :
    s = t ∧ m = n := by
  cases s <;> cases t <;> simp [signed] at h ⊢ <;> omega

lemma eq_zero_of_signed_eq {s t : Bool} {n : ℕ} (h : signed s 0 = signed t n) : n = 0 := by
  cases s <;> cases t <;> simp [signed] at h <;> omega

/-- No finite number stands where an infinite one does. -/
lemma signed_limit_ne (s t : Bool) (m : Magnitude) : signed s limit ≠ signed t m.rank := by
  intro h
  have hrank := (signed_inj h (by decide)).2
  exact m.rank_lt.ne hrank.symm

/-- Equal numbers are the same number, the two zeros apart. -/
lemma eq_or_zeros_of_equals (h : x.equals y = true) :
    x = y ∨ (∃ s, x = finite s .zero) ∧ ∃ t, y = finite t .zero := by
  obtain ⟨p, hx, hy⟩ := equals_iff.mp h
  have hplace : x.position = y.position := hx.trans hy.symm
  cases x with
  | nan => cases hx
  | infinite s =>
      cases y with
      | nan => cases hy
      | infinite t =>
          left
          rw [(signed_inj (Option.some.inj hplace) (by decide)).1]
      | finite t m' => exact absurd (Option.some.inj hplace) (signed_limit_ne s t m')
  | finite s m =>
      cases y with
      | nan => cases hy
      | infinite t => exact absurd (Option.some.inj hplace.symm) (signed_limit_ne t s m)
      | finite t m' =>
          have hsigned : signed s m.rank = signed t m'.rank := Option.some.inj hplace
          by_cases hzero : m.rank = 0
          · rw [hzero] at hsigned
            have hm : m = .zero := Magnitude.eq_of_rank_eq hzero
            have hm' : m' = .zero := Magnitude.eq_of_rank_eq (eq_zero_of_signed_eq hsigned)
            exact Or.inr ⟨⟨s, by rw [hm]⟩, ⟨t, by rw [hm']⟩⟩
          · obtain ⟨rfl, hrank⟩ := signed_inj hsigned hzero
            exact Or.inl (by rw [Magnitude.eq_of_rank_eq hrank])

/-- Rows of bits are told by the numbers that they stand for, as long as none of these is NaN. -/
lemma eq_map_toBits {ws : List UInt64} {xs : List Double} (h : ws.map ofBits = xs)
    (hnan : nan ∉ xs) : ws = xs.map toBits := by
  subst h
  calc ws = ws.map id := (List.map_id ws).symm
    _ = ws.map (toBits ∘ ofBits) := List.map_congr_left fun w hw =>
        (toBits_ofBits fun hw' => hnan (hw' ▸ List.mem_map_of_mem hw)).symm
    _ = (ws.map ofBits).map toBits := List.map_map.symm

end Double

namespace Expr

/-! ### Equality by rules -/

/-- Expressions with the same structure and numerically equal numbers. -/
inductive Alike : Expr → Expr → Prop
  | number {x y : Double} (equal : x.equals y = true) : Alike (number x) (number y)
  | symbol (name : String) : Alike (symbol name) (symbol name)
  | binary (op : Operator) {l l' r r' : Expr} (left : Alike l l') (right : Alike r r') :
      Alike (binary op l r) (binary op l' r')
  | assign (target : String) {e e' : Expr} (value : Alike e e') :
      Alike (assign target e) (assign target e')

variable {a b c : Expr}

/-- The rules describe equality. -/
lemma equals_iff_alike : a.equals b = true ↔ Alike a b := by
  constructor
  · intro h
    fun_induction equals a b with
    | case1 x y => exact .number h
    | case2 m n =>
        rw [beq_iff_eq] at h
        exact h ▸ .symbol m
    | case3 op l r op' l' r' ihl ihr =>
        simp only [Bool.and_eq_true, beq_iff_eq] at h
        obtain ⟨⟨rfl, hl⟩, hr⟩ := h
        exact .binary op (ihl hl) (ihr hr)
    | case4 m v n w ih =>
        simp only [Bool.and_eq_true, beq_iff_eq] at h
        obtain ⟨rfl, hv⟩ := h
        exact .assign m (ih hv)
    | case5 => cases h
  · intro h
    induction h with
    | number equal => exact equal
    | symbol name => simp [equals]
    | binary op left right ihl ihr => simp [equals, ihl, ihr]
    | assign target value ih => simp [equals, ih]

lemma Alike.symm (h : Alike a b) : Alike b a := by
  induction h with
  | number equal => exact .number (Double.equals_comm _ _ ▸ equal)
  | symbol name => exact .symbol name
  | binary op left right ihl ihr => exact .binary op ihl ihr
  | assign target value ih => exact .assign target ih

lemma Alike.trans (hab : Alike a b) (hbc : Alike b c) : Alike a c := by
  induction hab generalizing c with
  | number equal =>
      cases hbc with
      | number equal' => exact .number (Double.equals_trans equal equal')
  | symbol name => exact hbc
  | binary op left right ihl ihr =>
      cases hbc with
      | binary _ left' right' => exact .binary op (ihl left') (ihr right')
  | assign target value ih =>
      cases hbc with
      | assign _ value' => exact .assign target (ih value')

/-! ### The numbers of an expression -/

/-- The numbers in an expression, from left to right. -/
def numbers : Expr → List Double
  | number x => [x]
  | symbol _ => []
  | binary _ l r => l.numbers ++ r.numbers
  | assign _ e => e.numbers

/-- An expression with a NaN in it equals none. -/
lemma Alike.nan_notMem (h : Alike a b) : .nan ∉ a.numbers := by
  induction h with
  | number equal =>
      rw [numbers, List.mem_singleton]
      exact (Double.ne_nan_of_equals equal).symm
  | symbol name => exact List.not_mem_nil
  | binary op left right ihl ihr => simp [numbers, ihl, ihr]
  | assign target value ih => exact ih

/-- Only an expression with a NaN in it differs from itself. -/
lemma alike_self_iff : Alike a a ↔ .nan ∉ a.numbers := by
  refine ⟨Alike.nan_notMem, fun h => ?_⟩
  induction a with
  | number x =>
      rw [numbers, List.mem_singleton] at h
      exact .number (Double.equals_self_iff.mpr (Ne.symm h))
  | symbol name => exact .symbol name
  | binary op l r ihl ihr =>
      simp only [numbers, List.mem_append, not_or] at h
      exact .binary op (ihl h.1) (ihr h.2)
  | assign target e ih => exact .assign target (ih h)

/-- Where no number is a zero, equality is identity. -/
lemma Alike.eq_of_no_zero (h : Alike a b) (hzero : ∀ s, .finite s .zero ∉ a.numbers) : a = b := by
  induction h with
  | number equal =>
      rcases Double.eq_or_zeros_of_equals equal with rfl | ⟨⟨s, rfl⟩, -⟩
      · rfl
      · exact absurd (List.mem_singleton_self _) (hzero s)
  | symbol name => rfl
  | binary op left right ihl ihr =>
      simp only [numbers, List.mem_append, not_or] at hzero
      rw [ihl fun s => (hzero s).1, ihr fun s => (hzero s).2]
  | assign target value ih => rw [ih hzero]

/-! ### All expressions -/

/-- **What equality of expressions can be trusted for.** Equality is symmetric and transitive, and
an expression equals itself exactly if none of its numbers is NaN. If equal expressions have no
zero among their numbers, they are the same expression: whatever rows of bits their numbers are read
from, these are the same, they are written alike, and they are evaluated alike in every scope,
whatever the arithmetic operations compute. -/
theorem equals_partial_equivalence :
    (∀ a b : Expr, a.equals b = true → b.equals a = true)
    ∧ (∀ a b c : Expr, a.equals b = true → b.equals c = true → a.equals c = true)
    ∧ (∀ a : Expr, a.equals a = true ↔ .nan ∉ a.numbers)
    ∧ ∀ a b : Expr, a.equals b = true → (∀ s, .finite s .zero ∉ a.numbers) →
      a = b
      ∧ (∀ ws ws' : List UInt64, ws.map .ofBits = a.numbers → ws'.map .ofBits = b.numbers →
        ws = ws')
      ∧ a.render = b.render
      ∧ ∀ (ar : Arithmetic) (s : Scope) (j : Journal),
        (a.resolve ar ⟨s, j⟩).1 = (b.resolve ar ⟨s, j⟩).1
        ∧ (a.resolve ar ⟨s, j⟩).2.scope = (b.resolve ar ⟨s, j⟩).2.scope := by
  simp only [equals_iff_alike]
  refine ⟨fun a b => Alike.symm, fun a b c => Alike.trans, fun a => alike_self_iff,
    fun a b h hzero => ?_⟩
  obtain rfl := h.eq_of_no_zero hzero
  refine ⟨rfl, fun ws ws' hws hws' => ?_, rfl, fun ar s j => ⟨rfl, rfl⟩⟩
  rw [Double.eq_map_toBits hws h.nan_notMem, Double.eq_map_toBits hws' h.nan_notMem]

/-- The theorem at an assignment without zeros, with its number as such and as it is read from a
row of bits. -/
theorem equals_partial_equivalence_assignment :
    ∃ a b : Expr, a = assign "x" (.binary .mul (.number .one) (.symbol "y"))
      ∧ b = assign "x" (.binary .mul (.number (.ofBits 0x3ff0000000000000)) (.symbol "y"))
      ∧ a.equals b = true ∧ b.equals a = true ∧ a.equals a = true
      ∧ a = b ∧ b.render = "x = 1 * y" := by
  obtain ⟨hsymm, htrans, -, hsame⟩ := equals_partial_equivalence
  have hab : (assign "x" (.binary .mul (.number .one) (.symbol "y"))).equals
      (assign "x" (.binary .mul (.number (.ofBits 0x3ff0000000000000)) (.symbol "y"))) = true := by
    decide +kernel
  have hba := hsymm _ _ hab
  obtain ⟨heq, -, hrender, -⟩ := hsame _ _ hab (by decide +kernel)
  exact ⟨_, _, rfl, rfl, hab, hba, htrans _ _ _ hab hba, heq,
    hrender.symm.trans (by decide +kernel)⟩

-- equal expressions with zeros of different signs need not have the same value
example :
    (binary .div (.number .one) (.number (.finite false .zero))).equals
      (binary .div (.number .one) (.number (.finite true .zero))) = true
    ∧ ∀ s, ((binary .div (.number .one) (.number (.finite s .zero))).resolve .ieee
        ⟨.empty, .silent⟩).1 = .ok (.infinite s) := by
  decide +kernel

end Expr

end Abacus
