import Abacus.Double.Basic

/-!
Comparison of doubles.

* `Double.position`: the place of a number on the line, counted in ranks from zero; the two zeros
  share a place, the infinities stand just outside the finite numbers, and NaN has none.
* `Double.compare?`: the comparison of places, undefined where NaN takes part.
* `Double.equals`: numerical equality. NaN equals nothing, and the two zeros are equal.
-/

namespace Abacus

namespace Double

/-- The place on the number line, if there is one. -/
def position : Double → Option Int
  | nan => none
  | infinite s => some (signed s limit)
  | finite s m => some (signed s m.rank)

/-- The order of two numbers, if both have a place. -/
def compare? (x y : Double) : Option Ordering :=
  match x.position, y.position with
  | some p, some q => some (compare p q)
  | _, _ => none

/-- Numerical equality. -/
def equals (x y : Double) : Bool := x.compare? y == some .eq

/-- Numbers are equal exactly when they share a place on the line. -/
theorem equals_iff {x y : Double} :
    x.equals y = true ↔ ∃ p, x.position = some p ∧ y.position = some p := by
  cases hx : x.position <;> cases hy : y.position <;> simp [equals, compare?, hx, hy]
  exact eq_comm

theorem equals_comm (x y : Double) : x.equals y = y.equals x := by
  rw [Bool.eq_iff_iff, equals_iff, equals_iff]
  exact exists_congr fun _ => and_comm

/-- Only NaN differs from itself. -/
theorem equals_self_iff {x : Double} : x.equals x = true ↔ x ≠ nan := by
  cases x <;> simp [equals_iff, position]

end Double

end Abacus
