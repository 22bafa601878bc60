import Abacus.Evaluation.Basic

/-!
Evaluation without recursion on the expression.

`Expr.eval` goes as deep as its expression. `Expr.resolve` computes the same with a list of frames,
one for each expression whose evaluation is under way, so expressions of any depth can be
evaluated in constant stack space. Main statement: `resolve_eq_eval`.

* `Frame`: what is left to do for an expression once its operand in focus has a value.
* `Focus`: an expression to evaluate next, or a value to hand to the first frame.
* `Frame.run`: the loop. A failure ends every evaluation under way (`Frame.unwind`).
-/

namespace Abacus

/-- What is left to do for an expression under evaluation. -/
inductive Frame where
  /-- The left operand is in focus; the right one follows. -/
  | right (op : Operator) (operand : Expr)
  /-- The right operand is in focus; the left one has a value. -/
  | combine (op : Operator) (left : Double)
  /-- The value of an assignment is in focus. -/
  | store (target : String)

/-- What the loop looks at next. -/
inductive Focus where
  | down (e : Expr)
  | up (value : Double)

/-- The number of nodes. -/
def Expr.size : Expr → Nat
  | number _ | symbol _ => 1
  | binary _ l r => l.size + r.size + 1
  | assign _ e => e.size + 1

namespace Frame

/-- The number of steps that a frame may still take. -/
def weight : Frame → Nat
  | right _ e => 3 * e.size + 2
  | combine .. => 1
  | store _ => 1

/-- The number of steps that a list of frames may still take. -/
def totalWeight : List Frame → Nat
  | [] => 0
  | f :: fs => f.weight + totalWeight fs

/-- The number of steps that a focus may still take, itself included. -/
def focusWeight : Focus → Nat
  | .down e => 3 * e.size
  | .up _ => 0

/-- Ends every evaluation under way. -/
def unwind (fs : List Frame) (env : Env) : Env := fs.foldl (fun env _ => env.log .exit) env

/-- The loop: evaluates the focus, then hands its value to the frames in order. -/
def run (ar : Arithmetic) (focus : Focus) (fs : List Frame) (env : Env) : Outcome :=
  match focus, fs with
  | .down (.number x), fs => run ar (.up x) fs ((env.log (.enter .number)).log .exit)
  | .down (.symbol name), fs =>
    match (env.log (.enter .symbol)).load name with
    | (.ok v, env) => run ar (.up v) fs (env.log .exit)
    | (.error e, env) => (.error e, unwind fs (env.log .exit))
  | .down (.binary op l r), fs => run ar (.down l) (.right op r :: fs) (env.log (.enter .binary))
  | .down (.assign target e), fs =>
    run ar (.down e) (.store target :: fs) (env.log (.enter .assign))
  | .up v, [] => (.ok v, env)
  | .up x, .right op r :: fs => run ar (.down r) (.combine op x :: fs) env
  | .up y, .combine op x :: fs => run ar (.up (op.apply ar x y)) fs (env.log .exit)
  | .up v, .store target :: fs => run ar (.up v) fs ((env.set target v).log .exit)
termination_by focusWeight focus + totalWeight fs
decreasing_by all_goals simp +arith only [focusWeight, totalWeight, weight, Expr.size]

/-- Hands an outcome to the frames. -/
def resume (ar : Arithmetic) (fs : List Frame) : Outcome → Outcome
  | (.ok v, env) => run ar (.up v) fs env
  | (.error e, env) => (.error e, unwind fs env)

/-- To run on an expression is to evaluate it and to hand the outcome to the frames. -/
theorem run_down (ar : Arithmetic) (e : Expr) (fs : List Frame) (env : Env) :
    run ar (.down e) fs env = resume ar fs (e.eval ar env) := by
  induction e generalizing fs env with
  | number x => rw [run]; rfl
  | symbol name =>
    rw [run, Expr.eval, Env.span]
    rcases (env.log (.enter .symbol)).load name with ⟨_ | _, _⟩ <;> rfl
  | binary op l r ihl ihr =>
    rw [run, ihl, Expr.eval, Env.span]
    rcases l.eval ar (env.log (.enter .binary)) with ⟨_ | x, env⟩
    · rfl
    · -- the left operand has a value: the right one comes into focus
      simp only [resume]
      rw [run, ihr]
      rcases r.eval ar env with ⟨_ | y, env⟩
      · rfl
      · simp only [resume]; rw [run]
  | assign target e ih =>
    rw [run, ih, Expr.eval, Env.span]
    rcases e.eval ar (env.log (.enter .assign)) with ⟨_ | v, env⟩
    · rfl
    · simp only [resume]; rw [run]

end Frame

/-- The value of an expression, computed without recursion. -/
def Expr.resolve (ar : Arithmetic) (e : Expr) (env : Env) : Outcome := Frame.run ar (.down e) [] env

/-- The loop computes the value of the expression. -/
theorem Expr.resolve_eq_eval (ar : Arithmetic) (e : Expr) (env : Env) :
    e.resolve ar env = e.eval ar env := by
  rw [resolve, Frame.run_down]
  rcases e.eval ar env with ⟨_ | v, env⟩
  · rfl
  · simp only [Frame.resume]; rw [Frame.run]

end Abacus
