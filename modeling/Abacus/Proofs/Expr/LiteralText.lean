import Mathlib.Tactic
import Abacus.Proofs.Decimal.RoundTrip
import Abacus.Proofs.Expr.Grammar

/-!
The written form of a number that a literal writes.

The value of a literal carries no minus sign and is not NaN. It is finite as long as the number that
the literal denotes lies below the bound of overflow, and from the bound on it is infinite, which is
written as `inf`, the spelling of a name.

* `Double.IsNearest.finite_or_infinite`: the two kinds of values, on the two sides of the bound.
* `Literal.isIdentifier_eq_false_of_value`: no literal is a name.
* `Literal.reads_back_iff_lt_overflowBound`: a literal's value reads back from its written form
  exactly below the bound, and its written form is a name exactly from the bound on.
-/

namespace Abacus

namespace Double

/-- The nearest double is finite below the bound and infinite from it on, without a minus sign. -/
lemma IsNearest.finite_or_infinite {q : ℚ} {x : Double} (h : IsNearest q x) :
    (∃ m, x = .finite false m) ∧ q < overflowBound ∨ x = .infinite false ∧ overflowBound ≤ q := by
  rcases x with _ | s | ⟨s, m⟩
  · exact h.elim
  · obtain ⟨rfl, hbound⟩ := h
    exact Or.inr ⟨rfl, hbound⟩
  · obtain ⟨rfl, hbound, -⟩ := h
    exact Or.inl ⟨⟨m, rfl⟩, hbound⟩

/-- Without a minus sign the sign bit is clear. -/
lemma toBits_lt_of_isSigned {x : Double} (h : x.isSigned = false) :
    x.toBits.toNat < signPlace := by
  have hnan : quietPlace + limit < signPlace := by decide
  have hlimit : signBit false + limit < signPlace := by decide
  rw [toNat_toBits]
  rcases x with _ | s | ⟨s, m⟩
  · exact hnan
  · obtain rfl : s = false := h
    exact hlimit
  · obtain rfl : s = false := h
    exact lt_trans (Nat.add_lt_add_left m.rank_lt _) hlimit

/-- Infinity is written as a name. -/
lemma text_infinite : (infinite false).text = "inf" := by decide

end Double

namespace Literal

/-- No literal is a name. -/
lemma isIdentifier_eq_false_of_value {text : String} {x : Double} (h : value text = .ok x) :
    isIdentifier text.toList = false := by
  rw [Bool.eq_false_iff]
  intro hname
  exact NumberToken.toList_ne ⟨text, x, h⟩ ⟨text, hname⟩ rfl

/-- **Literals up to the bound of overflow.** A literal writes a number expression whose number is
not NaN and has a clear sign bit. The number is finite exactly if what the literal denotes lies
below the bound of overflow. Exactly then its written form reads back as the same number, and
exactly from the bound on its written form is a name instead. -/
theorem reads_back_iff_lt_overflowBound (text : String) (x : Double) (h : value text = .ok x) :
    Expr.ofLiteral text = .ok (.number x) ∧ x ≠ .nan ∧ x.toBits.toNat < Double.signPlace
    ∧ ∃ q : ℚ, (∀ q', Denotes text q' ↔ q' = q)
      ∧ ((∃ m, x = .finite false m) ↔ q < Double.overflowBound)
      ∧ (value (Expr.number x).render = .ok x ↔ q < Double.overflowBound)
      ∧ (isIdentifier (Expr.number x).render.toList = true ↔ Double.overflowBound ≤ q) := by
  obtain ⟨q, hq⟩ := exists_denotes_of_value h
  have hnumber : Expr.ofLiteral text = .ok (.number x) := by
    rw [Expr.ofLiteral, h]
    rfl
  have hunique : ∀ q', Denotes text q' ↔ q' = q :=
    fun q' => ⟨fun hq' => hq'.unique hq, fun hq' => hq' ▸ hq⟩
  rcases ((value_eq_ok_iff_of_denotes hq).mp h).finite_or_infinite with
    ⟨⟨m, rfl⟩, hbound⟩ | ⟨rfl, hbound⟩
  · -- below the bound the shortest decimal stands for the number
    have hreads : value (Expr.number (.finite false m)).render = .ok (.finite false m) :=
      Double.value_text m
    have hname := isIdentifier_eq_false_of_value hreads
    refine ⟨hnumber, by simp, Double.toBits_lt_of_isSigned rfl, q, hunique,
      iff_of_true ⟨m, rfl⟩ hbound, iff_of_true hreads hbound,
      iff_of_false ?_ (not_le.mpr hbound)⟩
    rw [hname]
    exact Bool.false_ne_true
  · -- from the bound on it is a name, and so no literal
    have hrender : (Expr.number (.infinite false)).render = "inf" := Double.text_infinite
    have hname : isIdentifier "inf".toList = true := by decide
    refine ⟨hnumber, by simp, Double.toBits_lt_of_isSigned rfl, q, hunique,
      iff_of_false (by rintro ⟨m, hm⟩; cases hm) (not_lt.mpr hbound),
      iff_of_false ?_ (not_lt.mpr hbound), iff_of_true (by rw [hrender]; exact hname) hbound⟩
    intro hreads
    rw [hrender] at hreads
    rw [isIdentifier_eq_false_of_value hreads] at hname
    cases hname

/-- The last finite magnitude. -/
def lastMagnitude : Double.Magnitude := ⟨Double.limit - 1, by decide⟩

/-- The theorem just below the bound of overflow, where the value is the last finite double. -/
theorem reads_back_below_overflowBound :
    value "1.7976931348623158079e308" = .ok (.finite false lastMagnitude)
    ∧ value (Expr.number (.finite false lastMagnitude)).render
        = .ok (.finite false lastMagnitude) := by
  have hvalue : value "1.7976931348623158079e308" = .ok (.finite false lastMagnitude) := by
    decide +kernel
  obtain ⟨-, -, -, q, -, hfinite, hreads, -⟩ :=
    reads_back_iff_lt_overflowBound "1.7976931348623158079e308" _ hvalue
  exact ⟨hvalue, hreads.mpr (hfinite.mp ⟨lastMagnitude, rfl⟩)⟩

/-- A literal can write an infinite number, whose written form is a name and does not read back. -/
theorem value_eq_infinite_of_overflow :
    value "1e309" = .ok (.infinite false)
    ∧ (Expr.number (.infinite false)).render = "inf" ∧ isIdentifier "inf".toList = true
    ∧ value "inf" = .error (.invalidDigit 'i' 10) := by
  decide +kernel

end Literal

end Abacus
