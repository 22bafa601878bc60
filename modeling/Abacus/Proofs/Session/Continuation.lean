import Mathlib.Tactic
import Abacus.Proofs.Scope.Listing
import Abacus.Proofs.Session.Commutation

/-!
How a session starts, and how it goes on in another one.

* `Setup.bindingsOf`, `Setup.lastScope?`: what a list of clauses comes to, its bindings in their
  order and the scope that is given last. The setup after a list of clauses depends on nothing else,
  by what one clause does to it (`Clause.apply_fst`, `foldl_apply_fst`).
* `Session.start_fst`, `get?_start`: the session that a list of clauses starts, and the values of
  names in it.
* `Session.start_filter_append_scope`, `start_swap`: scopes that are replaced can be left out, and
  two bindings of different names can be exchanged.
* `Session.resolveAll_of_scope_eq`: the results of a run and the scope after it depend on the scope
  alone, so a run can be broken off and go on in any session with the scope that is left
  (`resolveAll_append_of_scope_eq`).
* `Session.start_and_continuation`: what this says of every list of clauses and of every run.
-/

namespace Abacus

/-! ### What clauses come to -/

namespace Setup

/-- The binding that a clause adds. -/
def Clause.binding? : Clause → Option (String × Double)
  | binding name number => some (name, number.toDouble)
  | scope _ => none

/-- The scope that a clause gives. -/
def Clause.scope? : Clause → Option Scope
  | binding .. => none
  | scope bindings => some (Scope.empty.setAll bindings)

/-- The bindings that the clauses add, in their order. -/
def bindingsOf (clauses : List Clause) : List (String × Double) := clauses.filterMap Clause.binding?

/-- The scope that is given last. -/
def lastScope? (clauses : List Clause) : Option Scope := (clauses.filterMap Clause.scope?).getLast?

lemma bindingsOf_append (clauses clauses' : List Clause) :
    bindingsOf (clauses ++ clauses') = bindingsOf clauses ++ bindingsOf clauses' :=
  List.filterMap_append

lemma lastScope?_append (clauses clauses' : List Clause) :
    lastScope? (clauses ++ clauses') = (lastScope? clauses').or (lastScope? clauses) := by
  rw [lastScope?, List.filterMap_append, List.getLast?_append]
  rfl

lemma bindingsOf_cons (clause : Clause) (clauses : List Clause) :
    bindingsOf (clause :: clauses) = clause.binding?.toList ++ bindingsOf clauses := by
  cases clause <;> rfl

lemma lastScope?_cons (clause : Clause) (clauses : List Clause) :
    lastScope? (clause :: clauses) = (lastScope? clauses).or clause.scope? := by
  rw [← List.singleton_append, lastScope?_append]
  cases clause <;> rfl

/-- The bindings do not depend on the clauses that add none. -/
lemma bindingsOf_filter (clauses : List Clause) :
    bindingsOf (clauses.filter (·.binding?.isSome)) = bindingsOf clauses := by
  rw [bindingsOf, List.filterMap_filter]
  refine List.filterMap_congr fun clause _ => ?_
  cases clause <;> rfl

/-- A clause adds its binding after those before it, or replaces the scope. -/
lemma Clause.apply_fst (clause : Clause) (setup : Setup) (j : Journal) :
    (Clause.apply (setup, j) clause).1
      = ⟨clause.scope?.getD setup.scope, setup.bindings ++ clause.binding?.toList⟩ := by
  cases clause with
  | binding name number => rfl
  | scope bs =>
      rw [apply, Env.setAll_eq]
      exact congrArg (Setup.mk _) (List.append_nil _).symm

/-- The setup after a list of clauses has the scope given last, and all bindings in order. -/
lemma foldl_apply_fst (clauses : List Clause) (setup : Setup) (j : Journal) :
    (clauses.foldl Clause.apply (setup, j)).1
      = ⟨(lastScope? clauses).getD setup.scope, setup.bindings ++ bindingsOf clauses⟩ := by
  induction clauses generalizing setup j with
  | nil => exact congrArg (Setup.mk _) (List.append_nil _).symm
  | cons clause clauses ih =>
      rw [List.foldl_cons, ih, Clause.apply_fst, bindingsOf_cons, lastScope?_cons,
        List.append_assoc]
      cases lastScope? clauses <;> rfl

end Setup

namespace Session

open Setup

/-! ### The session that clauses start -/

/-- A session starts with the scope given last, in which the bindings have been made. -/
lemma start_fst (clauses : List Clause) (j : Journal) :
    (start clauses j).1 = ⟨((lastScope? clauses).getD .empty).setAll (bindingsOf clauses), 0⟩ := by
  rw [start, Setup.start_fst, foldl_apply_fst]
  rfl

/-- A name has the value of its last binding, or else its value in the scope given last. -/
lemma get?_start (clauses : List Clause) (j : Journal) (name : String) :
    (start clauses j).1.scope.get? name
      = (Scope.lastValue? name (bindingsOf clauses)).or
          ((lastScope? clauses).bind (·.get? name)) := by
  rw [start_fst, Scope.get?_setAll]
  cases lastScope? clauses with
  | none => rw [Option.getD_none, Scope.get?_empty, Option.bind_none]
  | some scope => rfl

/-- Clauses that come to the same start the same session. -/
lemma start_congr {clauses clauses' : List Clause}
    (hbindings : bindingsOf clauses = bindingsOf clauses')
    (hscope : lastScope? clauses = lastScope? clauses') (j j' : Journal) :
    (start clauses j).1 = (start clauses' j').1 := by
  rw [start_fst, start_fst, hbindings, hscope]

/-- The scopes given before another one can be left out. -/
lemma start_filter_append_scope (before after : List Clause) (bs : List (String × Double))
    (j j' : Journal) :
    (start (before.filter (·.binding?.isSome) ++ .scope bs :: after) j).1
      = (start (before ++ .scope bs :: after) j').1 := by
  refine start_congr ?_ ?_ j j'
  · rw [bindingsOf_append, bindingsOf_append, bindingsOf_filter]
  · rw [lastScope?_append, lastScope?_append, lastScope?_cons]
    cases lastScope? after <;> rfl

/-- Two bindings of different names can be exchanged if no clause between them binds one of the
names. -/
lemma start_swap {n m : String} {between : List Clause} (hne : n ≠ m)
    (hn : n ∉ (bindingsOf between).map Prod.fst) (hm : m ∉ (bindingsOf between).map Prod.fst)
    (before after : List Clause) (x y : HostNumber) (j j' : Journal) :
    (start (before ++ .binding n x :: (between ++ .binding m y :: after)) j).1
      = (start (before ++ .binding m y :: (between ++ .binding n x :: after)) j').1 := by
  have hbindings : ∀ k l u v,
      bindingsOf (before ++ .binding k u :: (between ++ .binding l v :: after))
        = bindingsOf before ++ (((k, u.toDouble) :: (bindingsOf between ++ [(l, v.toDouble)]))
          ++ bindingsOf after) := by
    intro k l u v
    simp [bindingsOf_append, bindingsOf_cons, Clause.binding?]
  have hscope : ∀ k l u v,
      lastScope? (before ++ .binding k u :: (between ++ .binding l v :: after))
        = lastScope? (before ++ (between ++ after)) := by
    intro k l u v
    simp [lastScope?_append, lastScope?_cons, Clause.scope?]
  rw [start_fst, start_fst, hscope, hscope, hbindings, hbindings, Scope.setAll_append,
    Scope.setAll_append _ (_ :: _), Scope.setAll_swap _ hne hn hm, ← Scope.setAll_append,
    ← Scope.setAll_append]

/-! ### Continuing a session -/

lemma resolveAll_cons (ar : Arithmetic) (s : Session) (root : Expr) (roots : List Expr)
    (j : Journal) :
    s.resolveAll ar (root :: roots) j
      = ((s.resolve ar root j).1
            :: ((s.resolve ar root j).2.1.resolveAll ar roots (s.resolve ar root j).2.2).1,
          ((s.resolve ar root j).2.1.resolveAll ar roots (s.resolve ar root j).2.2).2) := rfl

/-- The evaluations of two lists, one after the other. -/
lemma resolveAll_append (ar : Arithmetic) (s : Session) (us vs : List Expr) (j : Journal) :
    s.resolveAll ar (us ++ vs) j
      = ((s.resolveAll ar us j).1
            ++ ((s.resolveAll ar us j).2.1.resolveAll ar vs (s.resolveAll ar us j).2.2).1,
          ((s.resolveAll ar us j).2.1.resolveAll ar vs (s.resolveAll ar us j).2.2).2) := by
  induction us generalizing s j with
  | nil => rfl
  | cons u us ih => rw [List.cons_append, resolveAll_cons, ih, resolveAll_cons, List.cons_append]

/-- Every evaluation counts. -/
lemma resolved_resolveAll (ar : Arithmetic) (s : Session) (roots : List Expr) (j : Journal) :
    (s.resolveAll ar roots j).2.1.resolved = s.resolved + roots.length := by
  induction roots generalizing s j with
  | nil => rfl
  | cons root roots ih =>
      rw [resolveAll_cons, ih, resolved_resolve, List.length_cons, Nat.add_assoc,
        Nat.add_comm 1]

/-- The result of an evaluation and the scope after it depend on the scope before it alone. -/
lemma resolve_of_scope_eq (ar : Arithmetic) (root : Expr) {s t : Session}
    (h : s.scope = t.scope) (j j' : Journal) :
    (s.resolve ar root j).1 = (t.resolve ar root j').1
    ∧ (s.resolve ar root j).2.1.scope = (t.resolve ar root j').2.1.scope := by
  obtain ⟨r, s', es, hs⟩ := exists_evaluates ar root s.scope
  have ht : Evaluates ar root t.scope r s' es := h ▸ hs
  rw [resolve_eq_of_evaluates hs, resolve_eq_of_evaluates ht]
  exact ⟨rfl, rfl⟩

/-- The results of a run and the scope after it depend on the scope before it alone. -/
lemma resolveAll_of_scope_eq (ar : Arithmetic) (roots : List Expr) {s t : Session}
    (h : s.scope = t.scope) (j j' : Journal) :
    (s.resolveAll ar roots j).1 = (t.resolveAll ar roots j').1
    ∧ (s.resolveAll ar roots j).2.1.scope = (t.resolveAll ar roots j').2.1.scope := by
  induction roots generalizing s t j j' with
  | nil => exact ⟨rfl, h⟩
  | cons root roots ih =>
      obtain ⟨hresult, hnext⟩ := resolve_of_scope_eq ar root h j j'
      obtain ⟨hresults, hscope⟩ := ih hnext (s.resolve ar root j).2.2 (t.resolve ar root j').2.2
      rw [resolveAll_cons, resolveAll_cons, hresult, hresults]
      exact ⟨rfl, hscope⟩

/-- A run that is broken off goes on in any session that has the scope that is left. -/
lemma resolveAll_append_of_scope_eq (ar : Arithmetic) (s : Session) {t : Session}
    (us vs : List Expr) (j j' : Journal) (h : t.scope = (s.resolveAll ar us j).2.1.scope) :
    (s.resolveAll ar (us ++ vs) j).1 = (s.resolveAll ar us j).1 ++ (t.resolveAll ar vs j').1
    ∧ (s.resolveAll ar (us ++ vs) j).2.1.scope = (t.resolveAll ar vs j').2.1.scope := by
  obtain ⟨hresults, hscope⟩ :=
    resolveAll_of_scope_eq ar vs h j' (s.resolveAll ar us j).2.2
  rw [resolveAll_append, hresults, hscope]
  exact ⟨rfl, rfl⟩

/-- **What starts a session, and how it is continued.** Whatever the clauses and their order, the
session has counted nothing, and a name is bound to the value of its last binding, or else to its
value in the scope given last, or else not at all; any scope can be given by a clause. Hence clauses
with the same bindings in the same order and the same last scope start with the same bindings;
scopes given before another one leave no trace; and two bindings of different names can be
exchanged, unless a clause between them binds one of the names. A run of evaluations that is broken
off anywhere, and continued in a session started from the scope that is left, has the results and
the bindings of the whole run in one session, and the counts add up. -/
theorem start_and_continuation (ar : Arithmetic) :
    (∀ (clauses : List Clause) (j : Journal), (start clauses j).1.resolved = 0
      ∧ ∀ name, (start clauses j).1.scope.get? name
        = (Scope.lastValue? name (bindingsOf clauses)).or
            ((lastScope? clauses).bind (·.get? name)))
    ∧ (∀ scope : Scope, ∃ bs, (Clause.scope bs).scope? = some scope)
    ∧ (∀ (clauses clauses' : List Clause) (j j' : Journal),
      bindingsOf clauses = bindingsOf clauses' → lastScope? clauses = lastScope? clauses' →
      (start clauses j).1.scope.bindings = (start clauses' j').1.scope.bindings)
    ∧ (∀ (before after : List Clause) (bs : List (String × Double)) (j j' : Journal),
      (start (before.filter (·.binding?.isSome) ++ .scope bs :: after) j).1.scope.bindings
        = (start (before ++ .scope bs :: after) j').1.scope.bindings)
    ∧ (∀ (before between after : List Clause) (n m : String) (x y : HostNumber)
        (j j' : Journal), n ≠ m →
      n ∉ (bindingsOf between).map Prod.fst → m ∉ (bindingsOf between).map Prod.fst →
      (start (before ++ .binding n x :: (between ++ .binding m y :: after)) j).1.scope.bindings
        = (start (before ++ .binding m y :: (between ++ .binding n x :: after))
            j').1.scope.bindings)
    ∧ ∀ (s s' t : Session) (us vs : List Expr) (j j' j'' : Journal),
      (s.resolveAll ar us j).2.1 = s' → ((Setup.withScope {} s'.scope).start j').1 = t →
      (s.resolveAll ar (us ++ vs) j).1 = (s.resolveAll ar us j).1 ++ (t.resolveAll ar vs j'').1
      ∧ (s.resolveAll ar (us ++ vs) j).2.1.scope.bindings
          = (t.resolveAll ar vs j'').2.1.scope.bindings
      ∧ (s.resolveAll ar (us ++ vs) j).2.1.resolved
          = s'.resolved + (t.resolveAll ar vs j'').2.1.resolved := by
  refine ⟨?_, ?_, ?_, ?_, ?_, ?_⟩
  · intro clauses j
    refine ⟨?_, get?_start clauses j⟩
    rw [start_fst]
  · intro scope
    refine ⟨scope.bindings, ?_⟩
    rw [Clause.scope?, Scope.setAll_bindings]
  · intro clauses clauses' j j' hbindings hscope
    rw [start_congr hbindings hscope j j']
  · intro before after bs j j'
    rw [start_filter_append_scope before after bs j j']
  · intro before between after n m x y j j' hne hn hm
    rw [start_swap hne hn hm before after x y j j']
  · rintro s _ _ us vs j j' j'' rfl rfl
    have hstart : ((Setup.withScope {} (s.resolveAll ar us j).2.1.scope).start j').1
        = ⟨(s.resolveAll ar us j).2.1.scope, 0⟩ := Setup.start_fst _ j'
    obtain ⟨hresults, hscope⟩ := resolveAll_append_of_scope_eq ar s us vs j j''
      (t := ⟨(s.resolveAll ar us j).2.1.scope, 0⟩) rfl
    rw [hstart]
    refine ⟨hresults, congrArg Scope.bindings hscope, ?_⟩
    rw [resolved_resolveAll, resolved_resolveAll, resolved_resolveAll, List.length_append,
      Nat.zero_add, Nat.add_assoc]

/-- Two bindings of a name, and two scopes. -/
def scopeReplaced : List Clause :=
  [.scope [("y", .one)], .binding "x" (.bool true), .binding "x" (.bool false),
    .scope [("x", .one), ("z", .one)]]

/-- The same bindings, and the second of the scopes before them. -/
def scopeGivenFirst : List Clause :=
  [.scope [("x", .one), ("z", .one)], .binding "x" (.bool true), .binding "x" (.bool false)]

/-- The theorem at clauses of which the last scope is moved to the front, at bindings that are
exchanged across a scope, and at a run that is broken off after a failure. -/
theorem start_and_continuation_after_failure :
    bindingsOf scopeReplaced = bindingsOf scopeGivenFirst
    ∧ lastScope? scopeReplaced = lastScope? scopeGivenFirst
    ∧ (start scopeReplaced .silent).1.scope.bindings
        = (start scopeGivenFirst .silent).1.scope.bindings
    ∧ (start scopeGivenFirst .silent).1.scope.bindings = [("x", .zero), ("z", .one)]
    ∧ "x" ≠ "y"
    ∧ (start [.binding "x" (.bool true), .scope [], .binding "y" (.bool false)]
          .silent).1.scope.bindings
        = (start [.binding "y" (.bool false), .scope [], .binding "x" (.bool true)]
            .silent).1.scope.bindings
    ∧ ∃ s t : Session, (resolveAll .ieee ⟨.empty, 0⟩ [bindThenFail "x" "u"] .silent).2.1 = s
      ∧ ((Setup.withScope {} s.scope).start .silent).1 = t
      ∧ (resolveAll .ieee ⟨.empty, 0⟩ [bindThenFail "x" "u", .symbol "x"] .silent).1
          = .error (.unboundSymbol "u") :: (t.resolveAll .ieee [.symbol "x"] .silent).1
      ∧ (resolveAll .ieee ⟨.empty, 0⟩ [bindThenFail "x" "u", .symbol "x"] .silent).2.1.resolved
          = s.resolved + (t.resolveAll .ieee [.symbol "x"] .silent).2.1.resolved := by
  obtain ⟨-, -, hreordered, -, hexchanged, hcontinued⟩ := start_and_continuation .ieee
  have hbindings : bindingsOf scopeReplaced = bindingsOf scopeGivenFirst := rfl
  have hscope : lastScope? scopeReplaced = lastScope? scopeGivenFirst := rfl
  have hne : "x" ≠ "y" := by decide
  obtain ⟨hresults, -, hcount⟩ := hcontinued ⟨.empty, 0⟩ _ _ [bindThenFail "x" "u"] [.symbol "x"]
    .silent .silent .silent rfl rfl
  refine ⟨hbindings, hscope, hreordered _ _ _ _ hbindings hscope, by decide +kernel, hne,
    hexchanged [] [.scope []] [] "x" "y" _ _ _ _ hne List.not_mem_nil List.not_mem_nil, _, _, rfl,
    rfl, hresults.trans ?_, hcount⟩
  have hfailed : (resolveAll .ieee ⟨.empty, 0⟩ [bindThenFail "x" "u"] .silent).1
      = [.error (.unboundSymbol "u")] := by
    decide +kernel
  rw [hfailed]
  rfl

end Session

end Abacus
