import Mathlib.Tactic
import Abacus.Proofs.Scope.Writes
import Abacus.Proofs.Text.ByteOrder

/-!
The listing of a scope.

* `mem_bindings_setAll_iff`: a scope that has been written from empty lists each name with the value
  of its last write.
* `pairwise_bindings`: the names stand in the order of their bytes.
* `mem_map_bindings_iff`, `isEmpty_iff`: a name is listed exactly if it is bound.
* `setAll_bindings`: the listing, written from empty, gives the scope again, so every scope has been
  written from empty.
* `bindings_of_writes`: what this says of a history of writes, and of two of them.
-/

namespace Abacus

namespace Scope

variable {name : String} {v : Double}

/-- A name has the value of its last write. -/
lemma get?_setAll_empty (ws : List (String × Double)) (name : String) :
    (empty.setAll ws).get? name = lastValue? name ws := by
  rw [get?_setAll, get?_empty, Option.or_none]

lemma mem_bindings_setAll_iff (ws : List (String × Double)) :
    (name, v) ∈ (empty.setAll ws).bindings ↔ lastValue? name ws = some v := by
  rw [mem_bindings_iff, get?_setAll_empty]

/-- The names are listed in the order of their bytes. -/
lemma pairwise_bindings (s : Scope) :
    s.bindings.Pairwise fun b b' => utf8Bytes b.1 < utf8Bytes b'.1 := by
  refine Std.ExtTreeMap.ordered_keys_toList.imp fun {b b'} hcompare => ?_
  have hlt : b.1 < b'.1 := compareOfLessAndEq_eq_lt.mp hcompare
  have hpoints : codePoints b.1 < codePoints b'.1 :=
    List.map_lt (fun _ _ h => h) (String.lt_iff.mp hlt)
  exact utf8Bytes_lt_of_lt hpoints

/-- A name is listed exactly if it is bound. -/
lemma mem_map_bindings_iff (s : Scope) (name : String) :
    name ∈ s.bindings.map Prod.fst ↔ s.contains name = true := by
  rw [← mem_names, names, List.mem_toFinset]

lemma isEmpty_iff (s : Scope) : s.isEmpty = true ↔ s.bindings = [] := by
  rw [isEmpty, ← Std.ExtTreeMap.isEmpty_toList, List.isEmpty_iff]
  rfl

/-- A name that is listed once is given the value that it is listed with. -/
lemma lastValue?_eq_some_of_mem {bs : List (String × Double)} (h : (bs.map Prod.fst).Nodup)
    (hmem : (name, v) ∈ bs) : lastValue? name bs = some v := by
  obtain ⟨before, after, rfl⟩ := List.append_of_mem hmem
  have hafter : name ∉ after.map Prod.fst := by
    rw [List.map_append, List.map_cons] at h
    exact (List.nodup_cons.mp h.of_append_right).1
  rw [← List.singleton_append, lastValue?_append, lastValue?_append,
    lastValue?_eq_none_iff.mpr hafter, lastValue?_singleton, if_pos rfl]
  rfl

/-- The listing of a scope, written from empty, gives the scope again. -/
lemma setAll_bindings (s : Scope) : empty.setAll s.bindings = s := by
  ext1 name
  rw [get?_setAll_empty]
  cases hname : s.get? name with
  | some v => exact lastValue?_eq_some_of_mem s.nodup_names (mem_bindings_iff.mpr hname)
  | none =>
      rw [lastValue?_eq_none_iff, mem_map_bindings_iff, contains_eq_isSome_get?, hname]
      exact Bool.false_ne_true

/-- **The listing of a scope.** A scope that has been written from empty lists each name that has
been written, once, and with the value of its last write. The names stand strictly in the order of
their bytes in UTF-8, which is the order of their code points for all texts. The listing is as long
as the scope's size says, and it is empty exactly if the scope is; a name is listed exactly if the
scope contains it, and exactly if a look-up finds it. Any other history of writes that leaves each
name with the same last value gives the same listing. -/
theorem bindings_of_writes (ws : List (String × Double)) (s : Scope)
    (hs : s = Scope.empty.setAll ws) :
    (∀ name v, (name, v) ∈ s.bindings ↔ lastValue? name ws = some v)
    ∧ (s.bindings.map Prod.fst).Nodup
    ∧ (s.bindings.Pairwise fun b b' => utf8Bytes b.1 < utf8Bytes b'.1)
    ∧ (∀ a b, utf8Bytes a < utf8Bytes b ↔ codePoints a < codePoints b)
    ∧ s.bindings.length = s.size
    ∧ (s.isEmpty = true ↔ s.bindings = [])
    ∧ (∀ name, (s.contains name = true ↔ name ∈ s.bindings.map Prod.fst)
      ∧ ((s.get? name).isSome = true ↔ name ∈ s.bindings.map Prod.fst))
    ∧ ∀ ws', (∀ name, lastValue? name ws' = lastValue? name ws) →
      (Scope.empty.setAll ws').bindings = s.bindings := by
  subst hs
  refine ⟨fun name v => mem_bindings_setAll_iff ws, nodup_names _, pairwise_bindings _,
    utf8Bytes_lt_iff, length_bindings _, isEmpty_iff _, fun name => ⟨?_, ?_⟩, fun ws' hlast => ?_⟩
  · exact (mem_map_bindings_iff _ name).symm
  · rw [mem_map_bindings_iff, contains_eq_isSome_get?]
  · congr 1
    ext1 name
    rw [get?_setAll_empty, get?_setAll_empty, hlast]

/-- The theorem at two names of one character each, of which the first is written twice and does not
fit in sixteen bits: it is listed last. A shorter history gives the same listing. -/
theorem bindings_of_writes_rewritten :
    ∃ s, s = Scope.empty.setAll [("😀", .one), ("\uffff", .one), ("😀", .zero)]
      ∧ s.bindings = [("\uffff", .one), ("😀", .zero)]
      ∧ s.bindings.length = s.size
      ∧ (Scope.empty.setAll [("😀", .zero), ("\uffff", .one)]).bindings = s.bindings := by
  obtain ⟨-, -, -, -, hlength, -, -, hsame⟩ :=
    bindings_of_writes [("😀", .one), ("\uffff", .one), ("😀", .zero)] _ rfl
  refine ⟨_, rfl, by decide +kernel, hlength, hsame _ fun name => ?_⟩
  by_cases hlater : name = "😀"
  · subst hlater
    decide +kernel
  · by_cases hearlier : name = "\uffff"
    · subst hearlier
      decide +kernel
    · rw [lastValue?_eq_none_iff.mpr (by simp [hlater, hearlier]),
        lastValue?_eq_none_iff.mpr (by simp [hlater, hearlier])]

end Scope

end Abacus
