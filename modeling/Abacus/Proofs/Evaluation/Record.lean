import Mathlib.Tactic.Common
import Abacus.Proofs.Evaluation.Visit
import Abacus.Proofs.Scope.Writes

/-!
What an evaluation records of its traffic with the scope.

* `Access`: an access to the scope, as a node makes it and as an entry records it.
* `Journal.writes`: the bindings that a record writes.
* `Scope.follow`, `Scope.followAll`: the scope that a record leads to. An entry that says of a name
  whether it is bound is followed only if it says so truthfully. What is left is the scope after the
  bindings of the record (`Scope.eq_setAll_of_followAll`).
* `Evaluates.followAll_eq`, `Evaluates.filterMap_access?`: what an evaluation records leads from the
  scope it starts in to the scope it leaves, and has one access for each access of a visited node.
* `Expr.record`: all that the evaluation of an expression records.
-/

namespace Abacus

/-- An access to the scope. -/
inductive Access where
  | read (name : String)
  | write (name : String)
deriving DecidableEq

/-- The access that a node makes. -/
def Node.access? (n : Node) : Option Access :=
  match n.expr with
  | .symbol name => some (.read name)
  | .assign target _ => some (.write target)
  | .number _ | .binary .. => none

namespace Journal

namespace Entry

/-- The access that an entry records. -/
def access? : Entry → Option Access
  | getSymbol name _ => some (.read name)
  | setSymbol name _ => some (.write name)
  | enter _ | exit | unboundSymbol _ | newSession _ | resolved .. | resolutionFailed .. => none

/-- The binding that an entry writes. -/
def binding? : Entry → Option (String × Double)
  | setSymbol name value => some (name, value)
  | enter _ | exit | getSymbol .. | unboundSymbol _ | newSession _ | resolved ..
  | resolutionFailed .. => none

lemma filterMap_access?_span (kind : Expr.Kind) (inner : List Entry) :
    (span kind inner).filterMap access? = inner.filterMap access? := by
  rw [span, List.filterMap_cons_none rfl, List.filterMap_append]
  exact List.append_nil _

end Entry

/-- The bindings that a record writes. -/
def writes (es : List Entry) : List (String × Double) := es.filterMap Entry.binding?

lemma writes_cons (x : Entry) (es : List Entry) :
    writes (x :: es) = x.binding?.toList ++ writes es := by
  cases hx : x.binding? <;> simp [writes, hx]

lemma writes_append (es es' : List Entry) : writes (es ++ es') = writes es ++ writes es' :=
  List.filterMap_append

lemma writes_span (kind : Expr.Kind) (inner : List Entry) :
    writes (span kind inner) = writes inner := by
  rw [span, writes, List.filterMap_cons_none rfl]
  exact (writes_append inner [.exit]).trans (List.append_nil _)

/-- The names that a record writes are those of its write accesses. -/
lemma mem_writes_iff {es : List Entry} {name : String} :
    name ∈ (writes es).map Prod.fst ↔ .write name ∈ es.filterMap Entry.access? := by
  have hentry : ∀ x : Entry,
      (x.binding?.map Prod.fst = some name) ↔ x.access? = some (.write name) := by
    rintro (_ | _ | _ | _ | _ | _ | _ | _) <;> simp [Entry.binding?, Entry.access?]
  rw [writes, List.map_filterMap, List.mem_filterMap, List.mem_filterMap]
  exact exists_congr fun x => and_congr_right fun _ => hentry x

end Journal

open Journal

/-! ### The scope that a record leads to -/

namespace Scope

variable {s s' : Scope} {x : Entry} {es : List Entry}

/-- The scope after an entry, if the entry is true of the scope. -/
def follow (s : Scope) : Entry → Option Scope
  | .setSymbol name value => some (s.set name value)
  | .getSymbol name bound => if bound = s.contains name then some s else none
  | .enter _ | .exit | .unboundSymbol _ | .newSession _ | .resolved .. | .resolutionFailed .. =>
    some s

/-- The scope after the entries of a record, if each of them is true. -/
def followAll (s : Scope) (es : List Entry) : Option Scope := es.foldlM follow s

lemma followAll_cons (s : Scope) (x : Entry) (es : List Entry) :
    s.followAll (x :: es) = (s.follow x).bind (·.followAll es) :=
  List.foldlM_cons

lemma followAll_append (s : Scope) (es es' : List Entry) :
    s.followAll (es ++ es') = (s.followAll es).bind (·.followAll es') :=
  List.foldlM_append

lemma followAll_span (s : Scope) (kind : Expr.Kind) (inner : List Entry) :
    s.followAll (span kind inner) = s.followAll inner := by
  rw [span, followAll_cons, follow, Option.bind_some, followAll_append]
  cases s.followAll inner <;> rfl

/-- A record can be followed up to each of its entries. -/
lemma exists_follow_of_followAll {before after : List Entry}
    (h : s.followAll (before ++ x :: after) = some s') :
    ∃ t t', s.followAll before = some t ∧ t.follow x = some t' :=
  exists_of_foldlM_eq_some h

/-- An entry writes what it says it writes, and nothing else. -/
lemma eq_setAll_of_follow (h : s.follow x = some s') : s' = s.setAll x.binding?.toList := by
  cases x with
  | getSymbol name bound =>
      rw [follow] at h
      split_ifs at h
      exact (Option.some.inj h).symm
  | _ => exact (Option.some.inj h).symm

/-- A record leads to the scope after its bindings. -/
lemma eq_setAll_of_followAll (h : s.followAll es = some s') : s' = s.setAll (writes es) := by
  induction es generalizing s with
  | nil =>
      cases h
      rfl
  | cons x es ih =>
      rw [followAll_cons, Option.bind_eq_some_iff] at h
      obtain ⟨t, hx, hrest⟩ := h
      rw [writes_cons, setAll_append, ← eq_setAll_of_follow hx]
      exact ih hrest

end Scope

/-! ### Evaluations -/

namespace Evaluates

variable {ar : Arithmetic} {e : Expr} {s s' : Scope} {r : Except EvalError Double}
  {es : List Entry}

/-- What an evaluation records leads to the scope that it leaves. -/
lemma followAll_eq (h : Evaluates ar e s r s' es) : s.followAll es = some s' := by
  induction h with
  | number x s => rfl
  | bound found =>
      rw [Scope.followAll_span]
      simp [Scope.followAll, Scope.follow, Scope.contains_eq_isSome_get?, found]
  | unbound missing =>
      rw [Scope.followAll_span]
      simp [Scope.followAll, Scope.follow, Scope.contains_eq_isSome_get?, missing]
  | leftFails op r left ih => rw [Scope.followAll_span, ih]
  | rightFails op left right ihl ihr =>
      rw [Scope.followAll_span, Scope.followAll_append, ihl, Option.bind_some, ihr]
  | applies op left right ihl ihr =>
      rw [Scope.followAll_span, Scope.followAll_append, ihl, Option.bind_some, ihr]
  | valueFails target value ih => rw [Scope.followAll_span, ih]
  | stores target value ih =>
      rw [Scope.followAll_span, Scope.followAll_append, ih]
      rfl

/-- An evaluation leaves the scope that it starts in after the bindings that it writes. -/
lemma scope_eq (h : Evaluates ar e s r s' es) : s' = s.setAll (writes es) :=
  Scope.eq_setAll_of_followAll h.followAll_eq

/-- An evaluation records the accesses of the nodes that it visits, in the same order. -/
lemma filterMap_access? (h : Evaluates ar e s r s' es) (p : List Side) (stack : List Double) :
    es.filterMap Entry.access?
      = (Machine.visit ar (e.postorder p) ⟨stack, s⟩).filterMap Node.access? := by
  induction h generalizing p stack with
  | number x s => rfl
  | bound found =>
      rw [Expr.postorder, Machine.visit, Node.instruction, Instruction.exec, found]
      rfl
  | unbound missing =>
      rw [Expr.postorder, Machine.visit, Node.instruction, Instruction.exec, missing]
      rfl
  | leftFails op r left ih =>
      rw [Entry.filterMap_access?_span, Expr.postorder, left.visit_append_of_error, ← ih]
  | rightFails op left right ihl ihr =>
      rw [Entry.filterMap_access?_span, Expr.postorder, left.visit_append_of_ok,
        right.visit_append_of_error, List.filterMap_append, List.filterMap_append, ← ihr,
        ← left.visit_of_ok _ [], ← ihl]
  | applies op left right ihl ihr =>
      rw [Entry.filterMap_access?_span, Expr.postorder, left.visit_append_of_ok,
        right.visit_append_of_ok, List.filterMap_append, List.filterMap_append,
        List.filterMap_append, ← left.visit_of_ok _ [], ← ihl, ← right.visit_of_ok _ [], ← ihr]
      exact congrArg _ (List.append_nil _).symm
  | valueFails target value ih =>
      rw [Entry.filterMap_access?_span, Expr.postorder, value.visit_append_of_error, ← ih]
  | stores target value ih =>
      rw [Entry.filterMap_access?_span, Expr.postorder, value.visit_append_of_ok,
        List.filterMap_append, List.filterMap_append, ← value.visit_of_ok _ [], ← ih]
      rfl

end Evaluates

/-- All that the evaluation of an expression records. -/
def Expr.record (ar : Arithmetic) (e : Expr) (s : Scope) : List Entry :=
  (e.resolve ar ⟨s, { level := .trace }⟩).2.journal.entries.toList

lemma Evaluates.record_eq {ar : Arithmetic} {e : Expr} {s s' : Scope}
    {r : Except EvalError Double} {es : List Entry} (h : Evaluates ar e s r s' es) :
    e.record ar s = es := by
  rw [Expr.record, h.resolve_eq, toList_entries_logAll_trace rfl]
  rfl

end Abacus
