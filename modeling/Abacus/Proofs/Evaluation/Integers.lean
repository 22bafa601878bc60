import Mathlib.Tactic
import Abacus.Proofs.Double.Exact
import Abacus.Proofs.Evaluation.Course

/-!
Evaluation over the integers.

* `Expr.calculate`: the value of an expression over the integers, with what its assignments bind and
  every result of an operator on the way. There is none if a number of the expression is not whole,
  a symbol is not bound when it is read, or a division is by zero or leaves a remainder.
* `Scope.StandsFor`: a scope that binds the same names as an integer environment, each to a double
  that stands for its integer. Which of the two zeros stands for zero is left open.
* `Evaluates.of_calculate`: an evaluation follows the integer one as long as all results on the way
  are at most `2 ^ 53` in absolute value.
* `Expr.resolve_integers`: what this says of the values and of the bindings.
-/

namespace Abacus

variable {ar : Arithmetic} {x y v : Double} {m n k : ℤ} {op : Operator} {e : Expr} {s : Scope}
  {bound : String → Option ℤ}

/-! ### Operators -/

/-- What an operator computes over the integers. A division has a result only if it leaves no
remainder. -/
def Operator.applyInt? : Operator → ℤ → ℤ → Option ℤ
  | add, m, n => some (m + n)
  | sub, m, n => some (m - n)
  | mul, m, n => some (m * n)
  | div, m, n => if n ≠ 0 ∧ n ∣ m then some (m / n) else none
  | eq, m, n => some (if m = n then 1 else 0)

/-- A result over the integers is the exact result. -/
lemma Operator.applyRat?_eq_of_applyInt? (h : op.applyInt? m n = some k) :
    op.applyRat? m n = some (k : ℚ) := by
  cases op with
  | add | sub | mul =>
      obtain rfl := Option.some.inj h
      simp [applyRat?]
  | div =>
      rw [applyInt?] at h
      split_ifs at h with hdiv
      obtain ⟨hzero, hdvd⟩ := hdiv
      obtain rfl := Option.some.inj h
      rw [applyRat?, if_neg (Int.cast_ne_zero.mpr hzero),
        Int.cast_div hdvd (Int.cast_ne_zero.mpr hzero)]
  | eq =>
      obtain rfl := Option.some.inj h
      simp [applyRat?]

/-- Exact operations take whole numbers to their result over the integers if that is not too
large. -/
lemma Arithmetic.IsExact.integer?_apply (hexact : ar.IsExact) (hx : x.integer? = some m)
    (hy : y.integer? = some n) (h : op.applyInt? m n = some k) (hk : |k| ≤ 2 ^ 53) :
    (op.apply ar x y).integer? = some k := by
  rw [Double.integer?_eq_some_iff] at hx hy ⊢
  obtain ⟨z, hz⟩ := Double.exists_toRat?_eq_intCast hk
  exact hexact op x y z m n k hx hy (Operator.applyRat?_eq_of_applyInt? h) hz

/-- A double that stands for a whole number equals it, also if it is the negative zero. -/
lemma Double.equals_ofInt (h : x.integer? = some n) : x.equals (.ofInt n) = true := by
  rw [integer?_eq_some_iff] at h
  exact (equals_iff_of_toRat? h (toRat?_ofInt h)).mpr rfl

/-! ### Integer evaluation -/

/-- What an evaluation over the integers comes to. -/
structure Calculation where
  /-- The value of the expression. -/
  value : ℤ
  /-- What is bound afterwards. -/
  bound : String → Option ℤ
  /-- The results of the operators on the way. -/
  results : List ℤ

/-- The value of an expression over the integers. -/
def Expr.calculate : Expr → (String → Option ℤ) → Option Calculation
  | number x, bound => x.integer?.map fun n => ⟨n, bound, []⟩
  | symbol name, bound => (bound name).map fun n => ⟨n, bound, []⟩
  | binary op l r, bound => do
    let left ← l.calculate bound
    let right ← r.calculate left.bound
    let value ← op.applyInt? left.value right.value
    return ⟨value, right.bound, left.results ++ right.results ++ [value]⟩
  | assign target e, bound => do
    let c ← e.calculate bound
    return { c with bound := Function.update c.bound target (some c.value) }

/-! ### The integer environment of a scope -/

/-- A scope stands for an integer environment if both bind the same names, and every value stands
for the integer of its name. -/
def Scope.StandsFor (s : Scope) (bound : String → Option ℤ) : Prop :=
  ∀ name, (s.get? name).map Double.integer? = (bound name).map some

namespace Scope.StandsFor

variable {name : String}

lemma exists_get? (h : s.StandsFor bound) (hname : bound name = some n) :
    ∃ v, s.get? name = some v ∧ v.integer? = some n := by
  have hvalue := h name
  rwa [hname, Option.map_some, Option.map_eq_some_iff] at hvalue

lemma exists_bound (h : s.StandsFor bound) (hname : s.get? name = some v) :
    ∃ n, bound name = some n ∧ v.integer? = some n := by
  have hvalue := (h name).symm
  rw [hname, Option.map_some, Option.map_eq_some_iff] at hvalue
  obtain ⟨n, hn, hv⟩ := hvalue
  exact ⟨n, hn, hv.symm⟩

/-- A name is bound again on both sides. -/
lemma set (h : s.StandsFor bound) (hv : v.integer? = some n) (target : String) :
    (s.set target v).StandsFor (Function.update bound target (some n)) := by
  intro name
  rw [get?_set]
  by_cases hname : target = name
  · subst hname
    simp [hv]
  · rw [if_neg hname, Function.update_of_ne (Ne.symm hname)]
    exact h name

end Scope.StandsFor

/-! ### Both evaluations together -/

/-- An evaluation follows the integer one as long as no result on the way is too large. -/
lemma Evaluates.of_calculate (hexact : ar.IsExact) {c : Calculation} (hs : s.StandsFor bound)
    (hc : e.calculate bound = some c) (hresults : ∀ n ∈ c.results, |n| ≤ 2 ^ 53) :
    ∃ v s' es, Evaluates ar e s (.ok v) s' es ∧ v.integer? = some c.value
      ∧ s'.StandsFor c.bound := by
  induction e generalizing s bound c with
  | number x =>
      obtain ⟨n, hx, rfl⟩ := Option.map_eq_some_iff.mp hc
      exact ⟨x, s, _, .number x s, hx, hs⟩
  | symbol name =>
      obtain ⟨n, hname, rfl⟩ := Option.map_eq_some_iff.mp hc
      obtain ⟨v, hv, hn⟩ := hs.exists_get? hname
      exact ⟨v, s, _, .bound hv, hn, hs⟩
  | binary op l r ihl ihr =>
      simp only [Expr.calculate, Option.bind_eq_bind, Option.bind_eq_some_iff, Option.pure_def,
        Option.some.injEq] at hc
      obtain ⟨left, hleft, right, hright, k, hk, rfl⟩ := hc
      simp only [List.mem_append, List.mem_singleton, or_assoc, or_imp, forall_and,
        forall_eq] at hresults
      obtain ⟨hresultsl, hresultsr, hresult⟩ := hresults
      -- the right operand starts from what the left one has bound
      obtain ⟨x, s', es, hevall, hx, hs'⟩ := ihl hs hleft hresultsl
      obtain ⟨y, s'', es', hevalr, hy, hs''⟩ := ihr hs' hright hresultsr
      exact ⟨_, s'', _, .applies op hevall hevalr, hexact.integer?_apply hx hy hk hresult, hs''⟩
  | assign target e ih =>
      simp only [Expr.calculate, Option.bind_eq_bind, Option.bind_eq_some_iff, Option.pure_def,
        Option.some.injEq] at hc
      obtain ⟨c, hc, rfl⟩ := hc
      obtain ⟨v, s', es, heval, hv, hs'⟩ := ih hs hc hresults
      exact ⟨v, _, _, .stores target heval, hv, hs'.set hv target⟩

namespace Expr

/-- **Integer programs are evaluated exactly.** Let the values of a scope stand for integers, and
let an expression have a value over these integers where no operator on the way gives more than
`2 ^ 53` in absolute value. Then an evaluation whose operations are exact has a value, which stands
for the value over the integers and equals it. Afterwards the same names are bound as over the
integers, each to a double that stands for its integer and equals it. -/
theorem resolve_integers (ar : Arithmetic) (hexact : ar.IsExact) (e : Expr) (s : Scope)
    (bound : String → Option ℤ) (hs : s.StandsFor bound) (c : Calculation)
    (hc : e.calculate bound = some c) (hresults : ∀ n ∈ c.results, |n| ≤ 2 ^ 53) (j : Journal) :
    ∃ v env, e.resolve ar ⟨s, j⟩ = (.ok v, env)
      ∧ v.integer? = some c.value ∧ v.equals (.ofInt c.value) = true
      ∧ env.scope.StandsFor c.bound
      ∧ ∀ name w, env.scope.get? name = some w →
        ∃ n, c.bound name = some n ∧ w.equals (.ofInt n) = true := by
  obtain ⟨v, s', es, heval, hv, hs'⟩ := Evaluates.of_calculate hexact hs hc hresults
  refine ⟨v, _, heval.resolve_eq j, hv, Double.equals_ofInt hv, hs', fun name w hw => ?_⟩
  obtain ⟨n, hn, hwn⟩ := hs'.exists_bound hw
  exact ⟨n, hn, Double.equals_ofInt hwn⟩

/-- The theorem at an expression that binds a name again, to the negative zero, and then compares
and divides. -/
theorem resolve_integers_negative_zero :
    ∃ (e : Expr) (s : Scope) (bound : String → Option ℤ) (c : Calculation) (v : Double) (env : Env),
      e = .binary .add (.assign "x" (.binary .mul (.number .zero) (.symbol "n")))
        (.binary .div (.binary .eq (.symbol "x") (.number .zero)) (.symbol "n"))
      ∧ s = (Scope.empty.set "x" .one).set "n" (.ofInt (-1)) ∧ s.StandsFor bound
      ∧ e.calculate bound = some c
      ∧ c.value = -1 ∧ c.results = [0, 1, -1, -1] ∧ c.bound "x" = some 0
      ∧ e.resolve .ieee ⟨s, .silent⟩ = (.ok v, env) ∧ v.equals (.ofInt (-1)) = true
      ∧ env.scope.get? "x" = some (.finite true .zero) := by
  obtain ⟨e, he⟩ : ∃ e : Expr, e = .binary .add
      (.assign "x" (.binary .mul (.number .zero) (.symbol "n")))
      (.binary .div (.binary .eq (.symbol "x") (.number .zero)) (.symbol "n")) := ⟨_, rfl⟩
  have hempty : Scope.empty.StandsFor fun _ => none := fun name => by simp
  have hs := (hempty.set (show Double.one.integer? = some 1 by decide +kernel) "x").set
    (show (Double.ofInt (-1)).integer? = some (-1) by decide +kernel) "n"
  have hfields : (e.calculate
      (Function.update (Function.update (fun _ => none) "x" (some 1)) "n" (some (-1)))).map
        (fun c => (c.value, c.results, c.bound "x")) = some (-1, [0, 1, -1, -1], some 0) := by
    rw [he]
    decide +kernel
  obtain ⟨c, hc, hfields⟩ := Option.map_eq_some_iff.mp hfields
  simp only [Prod.mk.injEq] at hfields
  obtain ⟨hvalue, hresults, hx⟩ := hfields
  obtain ⟨v, env, hresolve, -, hequals, -⟩ := resolve_integers .ieee Arithmetic.isExact_ieee e _ _
    hs c hc (by simp [hresults]) .silent
  refine ⟨e, _, _, c, v, env, he, rfl, hs, hc, hvalue, hresults, hx, hresolve, ?_, ?_⟩
  · rwa [hvalue] at hequals
  · obtain rfl : _ = env := congrArg Prod.snd hresolve
    rw [he]
    decide +kernel

end Expr

end Abacus
