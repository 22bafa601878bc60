import Mathlib.Tactic.Common
import Abacus.Proofs.Evaluation.Footprint
import Abacus.Proofs.Journal.Traffic

/-!
Independent expressions commute.

* `Expr.Spares`: an expression assigns nothing that another one reads or assigns. Its evaluation
  then makes no difference to the other's (`Evaluates.after_spared`).
* `exists_evaluates_swapped`: expressions that spare each other go through the same two evaluations
  in either order, and leave the same scope.
* `Session.resolve_comm_of_spares`: what this says of evaluations in a scope and in a session.
-/

namespace Abacus

open Journal

/-- An expression assigns no name that occurs in the other one as a symbol or as a target. -/
def Expr.Spares (a b : Expr) : Prop :=
  ∀ name, .write name ∈ a.accesses → .read name ∉ b.accesses ∧ .write name ∉ b.accesses

variable {ar : Arithmetic} {a b : Expr} {s sa sb : Scope} {ra rb : Except EvalError Double}
  {es es' : List Entry}

/-- After an expression that spares it, an expression is evaluated as if it came first. -/
lemma Evaluates.after_spared (ha : Evaluates ar a s ra sa es) (hb : Evaluates ar b s rb sb es')
    (h : a.Spares b) : Evaluates ar b sa rb (sa.setAll (writes es')) es' := by
  refine hb.of_agree fun name hinput => ?_
  have hunassigned : .write name ∉ a.accesses := fun hwrite => (h name hwrite).1 hinput.read_mem
  exact (ha.get?_eq_of_unassigned hunassigned).symm

/-- Expressions that spare each other go through the same evaluations in either order, failures
and their partial writes included. -/
lemma exists_evaluates_swapped (ar : Arithmetic) (hab : a.Spares b) (hba : b.Spares a)
    (s : Scope) :
    ∃ ra rb sa sb t es es', Evaluates ar a s ra sa es ∧ Evaluates ar b sa rb t es'
      ∧ Evaluates ar b s rb sb es' ∧ Evaluates ar a sb ra t es := by
  obtain ⟨ra, sa, es, ha⟩ := exists_evaluates ar a s
  obtain ⟨rb, sb, es', hb⟩ := exists_evaluates ar b s
  -- Each writes the same in both orders, and the names that they write have nothing in common.
  have hcomm : sa.setAll (writes es') = sb.setAll (writes es) := by
    rw [ha.scope_eq, hb.scope_eq]
    refine Scope.setAll_comm fun name hname hname' => ?_
    exact (hab name (ha.write_mem_of_mem_writes hname)).2 (hb.write_mem_of_mem_writes hname')
  refine ⟨ra, rb, sa, sb, _, es, es', ha, ha.after_spared hb hab, hb, ?_⟩
  rw [hcomm]
  exact hb.after_spared ha hba

namespace Session

/-- Two evaluations of a session, one after the other. -/
lemma resolveAll_pair {s : Session} {t : Scope} (ha : Evaluates ar a s.scope ra sa es)
    (hb : Evaluates ar b sa rb t es') (j : Journal) :
    (s.resolveAll ar [a, b] j).1 = [ra, rb]
    ∧ (s.resolveAll ar [a, b] j).2.1 = ⟨t, s.resolved + 2⟩ := by
  rw [resolveAll_cons_of_evaluates ha]
  simp only [resolveAll_cons_of_evaluates (s := ⟨sa, s.resolved + 1⟩) hb]
  exact ⟨rfl, rfl⟩

/-- **Independent expressions commute.** If no name that one of two expressions assigns occurs in
the other one, they can be evaluated in either order, in a scope or in a session: each has the same
result in both orders, the session has counted as many evaluations, and the bindings are the same
in the end. This holds also where evaluations fail half-way and leave some of their writes. -/
theorem resolve_comm_of_spares (ar : Arithmetic) (a b : Expr) (hab : a.Spares b)
    (hba : b.Spares a) :
    (∀ (s : Scope) (j j' : Journal),
      (a.resolve ar (b.resolve ar ⟨s, j'⟩).2).1 = (a.resolve ar ⟨s, j⟩).1
      ∧ (b.resolve ar (a.resolve ar ⟨s, j⟩).2).1 = (b.resolve ar ⟨s, j'⟩).1
      ∧ (b.resolve ar (a.resolve ar ⟨s, j⟩).2).2.scope.bindings
          = (a.resolve ar (b.resolve ar ⟨s, j'⟩).2).2.scope.bindings)
    ∧ ∀ (s : Session) (j j' : Journal),
      ∃ ra rb, (s.resolveAll ar [a, b] j).1 = [ra, rb] ∧ (s.resolveAll ar [b, a] j').1 = [rb, ra]
        ∧ (s.resolveAll ar [a, b] j).2.1.resolved = (s.resolveAll ar [b, a] j').2.1.resolved
        ∧ (s.resolveAll ar [a, b] j).2.1.scope.bindings
            = (s.resolveAll ar [b, a] j').2.1.scope.bindings := by
  constructor
  · intro s j j'
    obtain ⟨ra, rb, sa, sb, t, es, es', ha, hab', hb, hba'⟩ :=
      exists_evaluates_swapped ar hab hba s
    rw [ha.resolve_eq, hb.resolve_eq, hab'.resolve_eq, hba'.resolve_eq]
    exact ⟨rfl, rfl, rfl⟩
  · intro s j j'
    obtain ⟨ra, rb, sa, sb, t, es, es', ha, hab', hb, hba'⟩ :=
      exists_evaluates_swapped ar hab hba s.scope
    obtain ⟨hresults, hsession⟩ := resolveAll_pair ha hab' j
    obtain ⟨hresults', hsession'⟩ := resolveAll_pair hb hba' j'
    refine ⟨ra, rb, hresults, hresults', ?_⟩
    rw [hsession, hsession']
    exact ⟨rfl, rfl⟩

/-- Binds a name, and then fails for another one. -/
def bindThenFail (target missing : String) : Expr :=
  .binary .add (.assign target (.number .one)) (.symbol missing)

lemma accesses_bindThenFail (target missing : String) :
    (bindThenFail target missing).accesses = [.write target, .read missing] := by
  simp [bindThenFail]

/-- The theorem at two expressions that both fail half-way, after a write. -/
theorem resolve_comm_of_spares_failing :
    (bindThenFail "x" "u").Spares (bindThenFail "y" "v")
    ∧ (bindThenFail "y" "v").Spares (bindThenFail "x" "u")
    ∧ (resolveAll .ieee ⟨.empty, 0⟩ [bindThenFail "x" "u", bindThenFail "y" "v"] .silent).1
        = [.error (.unboundSymbol "u"), .error (.unboundSymbol "v")]
    ∧ (resolveAll .ieee ⟨.empty, 0⟩ [bindThenFail "x" "u", bindThenFail "y" "v"]
          .silent).2.1.scope.bindings
        = (resolveAll .ieee ⟨.empty, 0⟩ [bindThenFail "y" "v", bindThenFail "x" "u"]
          .silent).2.1.scope.bindings := by
  have hab : (bindThenFail "x" "u").Spares (bindThenFail "y" "v") := by
    simp [Expr.Spares, accesses_bindThenFail]
  have hba : (bindThenFail "y" "v").Spares (bindThenFail "x" "u") := by
    simp [Expr.Spares, accesses_bindThenFail]
  obtain ⟨ra, rb, -, -, -, hbindings⟩ :=
    (resolve_comm_of_spares .ieee _ _ hab hba).2 ⟨.empty, 0⟩ .silent .silent
  exact ⟨hab, hba, by decide +kernel, hbindings⟩

end Session

end Abacus
