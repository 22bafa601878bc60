import Std.Data.ExtTreeMap
import Abacus.Double.Basic

/-!
The scope: which names are bound to which values.

A scope is a finite map from names to doubles. Names are ordered by their code points, and
`Scope.bindings` lists them in this order. Two scopes are equal exactly when every name has the
same value in both (`Scope.ext`), and one lemma says what each operation does to look-up.
-/

namespace Abacus

/-- A finite map from names to values. -/
structure Scope where
  entries : Std.ExtTreeMap String Double := ∅

namespace Scope

/-- The scope without bindings. -/
def empty : Scope := {}

/-- The value of a name, if it is bound. -/
def get? (s : Scope) (name : String) : Option Double := s.entries[name]?

/-- Binds a name, replacing its value if it has one. -/
def set (s : Scope) (name : String) (value : Double) : Scope := ⟨s.entries.insert name value⟩

/-- Whether a name is bound. -/
def contains (s : Scope) (name : String) : Bool := s.entries.contains name

/-- The number of bound names. -/
def size (s : Scope) : Nat := s.entries.size

/-- Whether no name is bound. -/
def isEmpty (s : Scope) : Bool := s.entries.isEmpty

/-- The bound names with their values, in the order of the names. -/
def bindings (s : Scope) : List (String × Double) := s.entries.toList

/-- Binds the names of a list one after the other, so the last value of a name stays. -/
def setAll (s : Scope) (bs : List (String × Double)) : Scope :=
  bs.foldl (fun s b => s.set b.1 b.2) s

/-! ### Look-up -/

@[ext] theorem ext {s t : Scope} (h : ∀ name, s.get? name = t.get? name) : s = t := by
  cases s; cases t
  exact congrArg Scope.mk (Std.ExtTreeMap.ext_getElem? h)

@[simp] theorem get?_empty (name : String) : empty.get? name = none := by
  simp [empty, get?]

theorem get?_set (s : Scope) (m : String) (v : Double) (n : String) :
    (s.set m v).get? n = if m = n then some v else s.get? n := by
  simp [get?, set, Std.ExtTreeMap.getElem?_insert]

@[simp] theorem get?_set_self (s : Scope) (n : String) (v : Double) :
    (s.set n v).get? n = some v := by
  simp [get?_set]

theorem contains_eq_isSome_get? (s : Scope) (n : String) : s.contains n = (s.get? n).isSome := by
  simp [contains, get?]

theorem size_set (s : Scope) (n : String) (v : Double) :
    (s.set n v).size = if s.contains n then s.size else s.size + 1 := by
  simp [size, set, contains, Std.ExtTreeMap.size_insert]

theorem mem_bindings_iff {s : Scope} {n : String} {v : Double} :
    (n, v) ∈ s.bindings ↔ s.get? n = some v :=
  Std.ExtTreeMap.mem_toList_iff_getElem?_eq_some

@[simp] theorem length_bindings (s : Scope) : s.bindings.length = s.size :=
  Std.ExtTreeMap.length_toList

end Scope

end Abacus
