import Mathlib.Data.Finset.Card
import Mathlib.Logic.Function.Basic
import Mathlib.Tactic.Common
import Abacus.Double.Text
import Abacus.Scope

/-!
What a list of bindings makes of a scope.

* `Scope.names`: the bound names, of which there are as many as the scope's size says
  (`card_names`).
* `Scope.lastValue?`: the value that a list gives a name, which is that of its last binding. A name
  has this value afterwards if there is one, and its old value otherwise (`get?_setAll`).
* `get?_setAll_of_notMem`, `get?_setAll_congr`: a name that is not in the list keeps its value, and
  the value of any other name depends on the list alone.
* `setAll_comm`, `setAll_swap`: lists without a common name can be exchanged, and so can bindings
  within a list.
* `setAll_setAll`: a list that is made twice is made once.
* `names_setAll`, `contains_setAll`: the names bound afterwards.
* `exists_get?_setAll_eq`: a name in the list has one value afterwards, whatever the scope.
* `Scope.texts`, `texts_setAll`: the texts of the values, over which a list writes those of its own.
-/

namespace Abacus

namespace Scope

variable {s t : Scope} {bs bs' : List (String × Double)} {name : String}

/-! ### The bound names -/

lemma contains_set (s : Scope) (m : String) (v : Double) (n : String) :
    (s.set m v).contains n = true ↔ m = n ∨ s.contains n = true := by
  rw [contains_eq_isSome_get?, get?_set, contains_eq_isSome_get?]
  split_ifs with h <;> simp [h]

/-- The bound names. -/
def names (s : Scope) : Finset String := (s.bindings.map Prod.fst).toFinset

lemma mem_names : name ∈ s.names ↔ s.contains name = true := by
  simp [names, mem_bindings_iff, contains_eq_isSome_get?, Option.isSome_iff_exists]

/-- No name is listed twice. -/
lemma nodup_names (s : Scope) : (s.bindings.map Prod.fst).Nodup := by
  rw [bindings, Std.ExtTreeMap.map_fst_toList_eq_keys]
  exact Std.ExtTreeMap.nodup_keys

lemma card_names (s : Scope) : s.names.card = s.size := by
  rw [names, List.toFinset_card_of_nodup s.nodup_names, List.length_map, length_bindings]

lemma names_set (s : Scope) (name : String) (value : Double) :
    (s.set name value).names = insert name s.names := by
  ext n
  rw [mem_names, contains_set, Finset.mem_insert, mem_names, eq_comm]

/-! ### Bindings one after the other -/

lemma setAll_cons (s : Scope) (b : String × Double) (bs : List (String × Double)) :
    s.setAll (b :: bs) = (s.set b.1 b.2).setAll bs := rfl

lemma setAll_append (s : Scope) (bs bs' : List (String × Double)) :
    s.setAll (bs ++ bs') = (s.setAll bs).setAll bs' :=
  List.foldl_append

/-- The value that a list of bindings gives a name: that of the last binding of the name. -/
def lastValue? (name : String) (bs : List (String × Double)) : Option Double :=
  (bs.filter (·.1 = name)).getLast?.map Prod.snd

lemma lastValue?_append (name : String) (bs bs' : List (String × Double)) :
    lastValue? name (bs ++ bs') = (lastValue? name bs').or (lastValue? name bs) := by
  rw [lastValue?, List.filter_append, List.getLast?_append, Option.map_or]
  rfl

lemma lastValue?_singleton (name : String) (b : String × Double) :
    lastValue? name [b] = if b.1 = name then some b.2 else none := by
  by_cases hb : b.1 = name <;> simp [lastValue?, hb]

lemma lastValue?_eq_none_iff : lastValue? name bs = none ↔ name ∉ bs.map Prod.fst := by
  rw [lastValue?, Option.map_eq_none_iff, List.getLast?_eq_none_iff, List.filter_eq_nil_iff]
  simp only [List.mem_map, not_exists, not_and, decide_eq_true_eq]

/-- A name has the value that the list gives it, or else its old one. -/
lemma get?_setAll (s : Scope) (bs : List (String × Double)) (name : String) :
    (s.setAll bs).get? name = (lastValue? name bs).or (s.get? name) := by
  induction bs generalizing s with
  | nil => rfl
  | cons b bs ih =>
      rw [setAll_cons, ih, get?_set, ← List.singleton_append, lastValue?_append,
        lastValue?_singleton, Option.or_assoc]
      by_cases hb : b.1 = name <;> simp [hb]

/-- A name that is not in the list keeps its value. -/
lemma get?_setAll_of_notMem (h : name ∉ bs.map Prod.fst) :
    (s.setAll bs).get? name = s.get? name := by
  rw [get?_setAll, lastValue?_eq_none_iff.mpr h, Option.none_or]

/-- A name in the list has a value afterwards that does not depend on the scope. -/
lemma exists_get?_setAll_eq (h : name ∈ bs.map Prod.fst) :
    ∃ v, ∀ s : Scope, (s.setAll bs).get? name = some v := by
  obtain ⟨v, hv⟩ := Option.ne_none_iff_exists'.mp fun hnone => lastValue?_eq_none_iff.mp hnone h
  refine ⟨v, fun s => ?_⟩
  rw [get?_setAll, hv, Option.some_or]

/-- A name that has the same value in two scopes, or is in the list, has the same value
afterwards. -/
lemma get?_setAll_congr (h : s.get? name = t.get? name ∨ name ∈ bs.map Prod.fst) :
    (s.setAll bs).get? name = (t.setAll bs).get? name := by
  rcases h with hsame | hmem
  · rw [get?_setAll, get?_setAll, hsame]
  · obtain ⟨v, hv⟩ := exists_get?_setAll_eq hmem
    rw [hv, hv]

/-- Lists without a common name can be exchanged. -/
lemma setAll_comm (h : ∀ n ∈ bs.map Prod.fst, n ∉ bs'.map Prod.fst) :
    (s.setAll bs).setAll bs' = (s.setAll bs').setAll bs := by
  ext1 name
  by_cases hname : name ∈ bs.map Prod.fst
  · rw [get?_setAll_of_notMem (h name hname)]
    exact get?_setAll_congr (.inr hname)
  · rw [get?_setAll_of_notMem hname]
    exact get?_setAll_congr (.inl (get?_setAll_of_notMem hname))

/-- Two bindings of different names can be exchanged, also across bindings of other names. -/
lemma setAll_swap {b b' : String × Double} (s : Scope) (hne : b.1 ≠ b'.1)
    (hb : b.1 ∉ bs.map Prod.fst) (hb' : b'.1 ∉ bs.map Prod.fst) :
    s.setAll (b :: (bs ++ [b'])) = s.setAll (b' :: (bs ++ [b])) := by
  have hbs : ∀ n ∈ [b].map Prod.fst, n ∉ bs.map Prod.fst := by simpa using hb
  have hbs' : ∀ n ∈ [b'].map Prod.fst, n ∉ bs.map Prod.fst := by simpa using hb'
  have hpair : ∀ n ∈ [b].map Prod.fst, n ∉ [b'].map Prod.fst := by simpa using hne
  calc s.setAll (b :: (bs ++ [b']))
      = ((s.setAll [b]).setAll bs).setAll [b'] := setAll_append _ bs [b']
    _ = ((s.setAll bs).setAll [b]).setAll [b'] := by rw [setAll_comm hbs]
    _ = ((s.setAll bs).setAll [b']).setAll [b] := by rw [setAll_comm hpair]
    _ = ((s.setAll [b']).setAll bs).setAll [b] := by rw [setAll_comm hbs']
    _ = s.setAll (b' :: (bs ++ [b])) := (setAll_append _ bs [b]).symm

/-- What a list has bound it binds again. -/
lemma setAll_setAll (s : Scope) (bs : List (String × Double)) :
    (s.setAll bs).setAll bs = s.setAll bs := by
  ext1 name
  rw [get?_setAll, get?_setAll, ← Option.or_assoc, Option.or_self]

lemma names_setAll (s : Scope) (bs : List (String × Double)) :
    (s.setAll bs).names = s.names ∪ (bs.map Prod.fst).toFinset := by
  induction bs generalizing s with
  | nil => simp [setAll]
  | cons b bs ih =>
      rw [setAll_cons, ih, names_set, List.map_cons, List.toFinset_cons, Finset.insert_union,
        Finset.union_insert]

lemma contains_setAll (s : Scope) (bs : List (String × Double)) (name : String) :
    (s.setAll bs).contains name = true ↔ s.contains name = true ∨ name ∈ bs.map Prod.fst := by
  rw [← mem_names, names_setAll, Finset.mem_union, mem_names, List.mem_toFinset]

/-! ### The texts of the values -/

/-- The texts of the values of names. -/
def texts (s : Scope) (name : String) : Option String := (s.get? name).map Double.text

/-- Texts of names after further texts have been written over them. -/
def overwrite (texts : String → Option String) (ws : List (String × String)) :
    String → Option String :=
  ws.foldl (fun texts w => Function.update texts w.1 (some w.2)) texts

lemma texts_set (s : Scope) (m : String) (v : Double) :
    (s.set m v).texts = Function.update s.texts m (some v.text) := by
  funext n
  rw [texts, get?_set, Function.update_apply]
  by_cases h : m = n
  · rw [if_pos h, if_pos h.symm, Option.map_some]
  · rw [if_neg h, if_neg (Ne.symm h), texts]

/-- The texts after a list of bindings are those of its values, written over the old ones. -/
lemma texts_setAll (s : Scope) (bs : List (String × Double)) :
    (s.setAll bs).texts = overwrite s.texts (bs.map (Prod.map id Double.text)) := by
  induction bs generalizing s with
  | nil => rfl
  | cons b bs ih =>
      rw [setAll_cons, ih, texts_set]
      rfl

end Scope

end Abacus
