import Mathlib.Tactic.Common
import Mathlib.Order.Nat
import Mathlib.Data.List.Induction
import Abacus.Session.Workspace

/-!
Sessions do not interfere.

What a session replies and what becomes of it depends on the state that it starts in and on the
commands that are addressed to it, whatever is done with other sessions in between.

* `Workspace.run`: the commands of a list carried out one after the other.
* `Command.isLocal`: the commands that concern the current session alone. The others start a session
  or make another one current.
* `Roster`, `Roster.addressees`: which session each command is addressed to. It depends on the
  commands only, not on what the sessions hold.
* `Workspace.alone`: a session in a workspace of its own. One local command does there what it does
  beside other sessions (`step_of_isLocal`), and no other session notices
  (`getElem?_step_of_addressee_ne`).
* `AsAlone`: a session went through a run as it would have gone alone through its own commands
  (`asAlone_of_getElem?`, `exists_asAlone_of_size_le`).
* `sinceRestart`: the evaluations that a session counts (`resolved_run_alone`).
* `sessions_independent`: what this says of all sessions after every run.
-/

namespace Abacus

/-- The entries of a list that belong to the session with the given index. -/
def addressedTo {α : Type} (i : ℕ) (addressees : List (Option ℕ)) (xs : List α) : List α :=
  ((addressees.zip xs).filter (·.1 = some i)).map Prod.snd

section AddressedTo

variable {α : Type} {i : ℕ} {a : Option ℕ}

lemma addressedTo_cons_self (i : ℕ) (as : List (Option ℕ)) (x : α) (xs : List α) :
    addressedTo i (some i :: as) (x :: xs) = x :: addressedTo i as xs := by
  simp [addressedTo]

lemma addressedTo_cons_of_ne (h : a ≠ some i) (as : List (Option ℕ)) (x : α) (xs : List α) :
    addressedTo i (a :: as) (x :: xs) = addressedTo i as xs := by
  simp [addressedTo, h]

end AddressedTo

namespace Workspace

/-- Whether a command concerns the current session alone. -/
def Command.isLocal : Command → Bool
  | new _ | fork | use _ => false
  | resolve _ | direct _ | symbol _ | value _ | set .. | get _ | contains _ | bindings
  | restart _ => true

/-- How many sessions there are and which one is current. -/
structure Roster where
  size : ℕ
  current : ℕ
deriving DecidableEq

namespace Roster

/-- The roster after a command. -/
def next (r : Roster) : Command → Roster
  | .new _ | .fork => ⟨r.size + 1, r.size⟩
  | .use index => if index < r.size then { r with current := index } else r
  | _ => r

/-- The session that a command is addressed to, if there is one. -/
def addressee (r : Roster) (c : Command) : Option ℕ := if c.isLocal then some r.current else none

/-- The sessions that the commands of a list are addressed to. -/
def addressees : Roster → List Command → List (Option ℕ)
  | _, [] => []
  | r, c :: cs => r.addressee c :: (r.next c).addressees cs

/-- The commands of a list that are addressed to a session. -/
def own (r : Roster) (i : ℕ) (cs : List Command) : List Command :=
  addressedTo i (r.addressees cs) cs

lemma isLocal_of_addressee_eq_some {r : Roster} {c : Command} {i : ℕ}
    (h : r.addressee c = some i) : c.isLocal = true ∧ r.current = i := by
  rw [addressee] at h
  split_ifs at h with hlocal
  exact ⟨hlocal, Option.some.inj h⟩

lemma own_cons_of_eq {r : Roster} {c : Command} {i : ℕ} (h : r.addressee c = some i)
    (cs : List Command) : r.own i (c :: cs) = c :: (r.next c).own i cs := by
  rw [own, addressees, h, addressedTo_cons_self]
  rfl

lemma own_cons_of_ne {r : Roster} {c : Command} {i : ℕ} (h : r.addressee c ≠ some i)
    (cs : List Command) : r.own i (c :: cs) = (r.next c).own i cs := by
  rw [own, addressees, addressedTo_cons_of_ne h]
  rfl

lemma isLocal_of_mem_own {r : Roster} {c : Command} {i : ℕ} {cs : List Command}
    (h : c ∈ r.own i cs) : c.isLocal = true := by
  induction cs generalizing r with
  | nil => cases h
  | cons c' cs ih =>
      by_cases haddressee : r.addressee c' = some i
      · rw [own_cons_of_eq haddressee, List.mem_cons] at h
        rcases h with rfl | h
        · exact (isLocal_of_addressee_eq_some haddressee).1
        · exact ih h
      · rw [own_cons_of_ne haddressee] at h
        exact ih h

end Roster

/-- The roster of a workspace. -/
def roster (w : Workspace) : Roster := ⟨w.sessions.size, w.current⟩

/-- Carries out the commands of a list one after the other. -/
def run (ar : Arithmetic) : Workspace → List Command → List Reply × Workspace
  | w, [] => ([], w)
  | w, c :: cs =>
    let (reply, w) := w.step ar c
    let (replies, w) := w.run ar cs
    (reply :: replies, w)

/-- A workspace with a single session. -/
def alone (s : Session) : Workspace := ⟨#[s], 0, Nat.zero_lt_one⟩

variable {ar : Arithmetic} {w : Workspace} {s : Session} {c : Command} {i : ℕ}

lemma run_cons (ar : Arithmetic) (w : Workspace) (c : Command) (cs : List Command) :
    w.run ar (c :: cs)
      = ((w.step ar c).1 :: ((w.step ar c).2.run ar cs).1, ((w.step ar c).2.run ar cs).2) := rfl

lemma run_concat (ar : Arithmetic) (w : Workspace) (cs : List Command) (c : Command) :
    (w.run ar (cs ++ [c])).2 = ((w.run ar cs).2.step ar c).2 := by
  induction cs generalizing w with
  | nil => rfl
  | cons c' cs ih => rw [List.cons_append, run_cons, run_cons, ih]

/-! ### One command -/

@[simp] lemma session_alone (s : Session) : (alone s).session = s := rfl

lemma put_alone (s s' : Session) : (alone s).put s' = alone s' := rfl

lemma put_session (w : Workspace) : w.put w.session = w := by
  obtain ⟨sessions, current, hcurrent⟩ := w
  simp [put, session]

lemma getElem?_put (w : Workspace) (s : Session) (i : ℕ) :
    (w.put s).sessions[i]? = if w.current = i then some s else w.sessions[i]? := by
  rw [put, Array.getElem?_set]

lemma getElem?_add (w : Workspace) (s : Session) (i : ℕ) :
    (w.add s).sessions[i]? = if i = w.sessions.size then some s else w.sessions[i]? := by
  rw [add, Array.getElem?_push]

lemma sessions_use (w : Workspace) (index : ℕ) : (w.use index).sessions = w.sessions := by
  rw [use]
  split <;> rfl

/-- A local command does to the current session what it does to the session alone. -/
lemma step_of_isLocal (ar : Arithmetic) (w : Workspace) (h : c.isLocal = true) :
    w.step ar c
      = (((alone w.session).step ar c).1, w.put ((alone w.session).step ar c).2.session) := by
  cases c with
  | new clauses => cases h
  | fork => cases h
  | use index => cases h
  | _ => simp [step, putScope, put_session]

/-- After a local command a session that was alone is still alone. -/
lemma step_alone_of_isLocal (ar : Arithmetic) (s : Session) (h : c.isLocal = true) :
    ((alone s).step ar c).2 = alone ((alone s).step ar c).2.session := by
  have hstep := step_of_isLocal ar (alone s) h
  rw [session_alone, put_alone] at hstep
  exact congrArg Prod.snd hstep

/-- A command starts a session: a new one from its clauses, or a fork from the current scope. -/
def Starts (w : Workspace) (c : Command) (s : Session) : Prop :=
  (∃ clauses, c = .new clauses ∧ s = (Session.start clauses .silent).1)
  ∨ c = .fork ∧ s = ⟨w.session.scope, 0⟩

/-- A command that is not local starts a session, or makes another one current. -/
lemma step_cases (ar : Arithmetic) (w : Workspace) (c : Command) :
    c.isLocal = true
    ∨ (∃ s, w.Starts c s ∧ w.step ar c = (.done, w.add s))
    ∨ ∃ index, c = .use index ∧ w.step ar c = (.done, w.use index) := by
  cases c with
  | new clauses => exact .inr (.inl ⟨_, .inl ⟨clauses, rfl, rfl⟩, rfl⟩)
  | fork => exact .inr (.inl ⟨_, .inr ⟨rfl, rfl⟩, rfl⟩)
  | use index => exact .inr (.inr ⟨index, rfl, rfl⟩)
  | _ => exact .inl rfl

lemma roster_step (ar : Arithmetic) (w : Workspace) (c : Command) :
    (w.step ar c).2.roster = w.roster.next c := by
  obtain ⟨sessions, current, hcurrent⟩ := w
  cases c with
  | new clauses => simp [step, add, roster, Roster.next]
  | fork => simp [step, add, roster, Roster.next]
  | use index =>
      by_cases h : index < sessions.size <;> simp [step, use, roster, Roster.next, h]
  | _ => simp [step, putScope, put, roster, Roster.next]

/-- What a session is asked is answered as if it were alone, and has the same effect on it. -/
lemma step_of_addressee_eq (ar : Arithmetic) (h : w.roster.addressee c = some i)
    (hs : w.sessions[i]? = some s) :
    (w.step ar c).1 = ((alone s).step ar c).1
    ∧ (w.step ar c).2.sessions[i]? = some ((alone s).step ar c).2.session := by
  obtain ⟨hlocal, rfl⟩ := Roster.isLocal_of_addressee_eq_some h
  have hsession : w.session = s := by
    rw [session]
    exact Option.some.inj ((Array.getElem?_eq_getElem w.current_lt).symm.trans hs)
  rw [step_of_isLocal ar w hlocal, hsession, getElem?_put]
  exact ⟨rfl, if_pos rfl⟩

/-- What is not addressed to a session has no effect on it. -/
lemma getElem?_step_of_addressee_ne (ar : Arithmetic) (h : w.roster.addressee c ≠ some i)
    (hs : w.sessions[i]? = some s) : (w.step ar c).2.sessions[i]? = some s := by
  obtain hlocal | ⟨s', -, hstep⟩ | ⟨index, -, hstep⟩ := step_cases ar w c
  · have hne : w.current ≠ i := by
      rintro rfl
      exact h (if_pos hlocal)
    rw [step_of_isLocal ar w hlocal, getElem?_put, if_neg hne, hs]
  · have hlt := (Array.getElem?_eq_some_iff.mp hs).1
    rw [hstep, getElem?_add, if_neg hlt.ne, hs]
  · rw [hstep, sessions_use, hs]

/-- A session that a command adds is started by it. -/
lemma exists_starts_of_size_le (ar : Arithmetic) (hi : w.sessions.size ≤ i)
    (hlt : i < (w.step ar c).2.sessions.size) :
    ∃ s, w.Starts c s ∧ w.step ar c = (.done, w.add s) := by
  obtain hlocal | hstarts | ⟨index, -, hstep⟩ := step_cases ar w c
  · rw [step_of_isLocal ar w hlocal, put, Array.size_set] at hlt
    exact absurd hlt (not_lt.mpr hi)
  · exact hstarts
  · rw [hstep, sessions_use] at hlt
    exact absurd hlt (not_lt.mpr hi)

/-! ### Runs -/

/-- A session that starts as `s` goes through a run as it goes alone through its own commands. -/
structure AsAlone (ar : Arithmetic) (w : Workspace) (cs : List Command) (i : ℕ) (s : Session) :
    Prop where
  replies : addressedTo i (w.roster.addressees cs) (w.run ar cs).1
    = ((alone s).run ar (w.roster.own i cs)).1
  session : (w.run ar cs).2.sessions[i]?
    = some ((alone s).run ar (w.roster.own i cs)).2.session

/-- What is not addressed to a session does not change how it goes through the rest of a run. -/
lemma AsAlone.cons_of_addressee_ne {cs : List Command} (h : w.roster.addressee c ≠ some i)
    (hrest : (w.step ar c).2.AsAlone ar cs i s) : w.AsAlone ar (c :: cs) i s := by
  obtain ⟨hreplies, hsession⟩ := hrest
  rw [roster_step] at hreplies hsession
  constructor
  · rw [Roster.addressees, run_cons, addressedTo_cons_of_ne h, hreplies, Roster.own_cons_of_ne h]
  · rw [run_cons, hsession, Roster.own_cons_of_ne h]

/-- A session that is there goes through every run as it goes alone through its own commands. -/
lemma asAlone_of_getElem? (ar : Arithmetic) (cs : List Command) (hs : w.sessions[i]? = some s) :
    w.AsAlone ar cs i s := by
  induction cs generalizing w s with
  | nil => exact ⟨rfl, hs⟩
  | cons c cs ih =>
      by_cases h : w.roster.addressee c = some i
      · obtain ⟨hreply, hsession⟩ := step_of_addressee_eq ar h hs
        obtain ⟨hreplies, hrest⟩ := ih hsession
        rw [roster_step] at hreplies hrest
        have halone := step_alone_of_isLocal ar s (Roster.isLocal_of_addressee_eq_some h).1
        constructor
        · rw [Roster.addressees, h, run_cons, addressedTo_cons_self, hreplies,
            Roster.own_cons_of_eq h, run_cons, ← halone, hreply]
        · rw [run_cons, hrest, Roster.own_cons_of_eq h, run_cons, ← halone]
      · exact .cons_of_addressee_ne h (ih (getElem?_step_of_addressee_ne ar h hs))

/-- So does one that is started during the run, from the state that it is started in. -/
lemma exists_asAlone_of_size_le (ar : Arithmetic) (cs : List Command) (hi : w.sessions.size ≤ i)
    (hlt : i < (w.run ar cs).2.sessions.size) :
    ∃ s before c after, cs = before ++ c :: after ∧ (w.run ar before).2.sessions.size = i
      ∧ (w.run ar before).2.Starts c s ∧ w.AsAlone ar cs i s := by
  induction cs generalizing w with
  | nil => exact absurd hlt (not_lt.mpr hi)
  | cons c cs ih =>
      have hne : w.roster.addressee c ≠ some i := by
        intro h
        exact (w.current_lt.trans_le hi).ne (Roster.isLocal_of_addressee_eq_some h).2
      by_cases hstarted : i < (w.step ar c).2.sessions.size
      · obtain ⟨s, hstarts, hstep⟩ := exists_starts_of_size_le ar hi hstarted
        obtain rfl : i = w.sessions.size := by
          rw [hstep, add, Array.size_push] at hstarted
          exact le_antisymm (Nat.le_of_lt_succ hstarted) hi
        have hs : (w.step ar c).2.sessions[w.sessions.size]? = some s := by
          rw [hstep, getElem?_add, if_pos rfl]
        exact ⟨s, [], c, cs, rfl, rfl, hstarts,
          .cons_of_addressee_ne hne (asAlone_of_getElem? ar cs hs)⟩
      · obtain ⟨s, before, c', after, rfl, hsize, hstarts, hrest⟩ := ih (not_lt.mp hstarted) hlt
        exact ⟨s, c :: before, c', after, rfl, hsize, hstarts, .cons_of_addressee_ne hne hrest⟩

/-! ### The count of a session -/

/-- Whether a command is an evaluation that the session counts. -/
def Command.isResolve : Command → Bool
  | resolve _ => true
  | _ => false

/-- Whether a command starts its session anew. -/
def Command.isRestart : Command → Bool
  | restart _ => true
  | _ => false

/-- The commands after the last one that starts the session anew, the last one first. -/
def sinceRestart (cs : List Command) : List Command := cs.reverse.takeWhile (!·.isRestart)

lemma sinceRestart_concat (cs : List Command) (c : Command) :
    sinceRestart (cs ++ [c]) = if c.isRestart then [] else c :: sinceRestart cs := by
  rw [sinceRestart, List.reverse_concat, List.takeWhile_cons]
  cases c.isRestart <;> rfl

/-- One command starts the count anew, adds one to it or leaves it. -/
lemma resolved_step_alone (ar : Arithmetic) (s : Session) (h : c.isLocal = true) :
    ((alone s).step ar c).2.session.resolved
      = if c.isRestart then 0 else s.resolved + (if c.isResolve then 1 else 0) := by
  cases c with
  | new clauses => cases h
  | fork => cases h
  | use index => cases h
  | _ => simp [step, putScope, Command.isRestart, Command.isResolve]

/-- After any local commands a session that was alone is still alone. -/
lemma run_alone_of_isLocal (ar : Arithmetic) (s : Session) {cs : List Command}
    (hlocal : ∀ c ∈ cs, c.isLocal = true) :
    ((alone s).run ar cs).2 = alone ((alone s).run ar cs).2.session := by
  induction cs generalizing s with
  | nil => rfl
  | cons c cs ih =>
      rw [List.forall_mem_cons] at hlocal
      rw [run_cons, step_alone_of_isLocal ar s hlocal.1]
      exact ih _ hlocal.2

/-- A session counts its evaluations since it was last built. -/
lemma resolved_run_alone (ar : Arithmetic) (hs : s.resolved = 0) {cs : List Command}
    (hlocal : ∀ c ∈ cs, c.isLocal = true) :
    ((alone s).run ar cs).2.session.resolved = (sinceRestart cs).countP Command.isResolve := by
  induction cs using List.reverseRecOn with
  | nil => exact hs
  | append_singleton cs c ih =>
      have hinit : ∀ c ∈ cs, c.isLocal = true := fun c hc => hlocal c (List.mem_append_left _ hc)
      have hc : c.isLocal = true := hlocal c (by simp)
      rw [run_concat, run_alone_of_isLocal ar s hinit, resolved_step_alone ar _ hc, ih hinit,
        sinceRestart_concat]
      cases c.isRestart with
      | true => rfl
      | false => exact List.countP_cons.symm

/-- No session starts with a count. -/
lemma Starts.resolved_eq (h : w.Starts c s) : s.resolved = 0 := by
  rcases h with ⟨clauses, rfl, rfl⟩ | ⟨rfl, rfl⟩
  · rw [Session.start, Setup.start_fst]
  · rfl

/-! ### All sessions -/

/-- A session is the first one or is started during the run, with nothing counted yet, and goes
through the run as it goes alone through its own commands. -/
lemma exists_origin (ar : Arithmetic) (clauses : List Setup.Clause) (cs : List Command)
    (hlt : i < ((start clauses).run ar cs).2.sessions.size) :
    ∃ s, (i = 0 ∧ s = (Session.start clauses .silent).1
        ∨ ∃ before c after, cs = before ++ c :: after
          ∧ ((start clauses).run ar before).2.sessions.size = i
          ∧ ((start clauses).run ar before).2.Starts c s)
      ∧ (start clauses).AsAlone ar cs i s ∧ s.resolved = 0 := by
  by_cases hi : i = 0
  · subst hi
    refine ⟨_, .inl ⟨rfl, rfl⟩, asAlone_of_getElem? ar cs rfl, ?_⟩
    rw [Session.start, Setup.start_fst]
  · obtain ⟨s, before, c, after, hcs, hsize, hstarts, halone⟩ :=
      exists_asAlone_of_size_le ar cs (w := start clauses) (Nat.one_le_iff_ne_zero.mpr hi) hlt
    exact ⟨s, .inr ⟨before, c, after, hcs, hsize, hstarts⟩, halone, hstarts.resolved_eq⟩

/-- **Sessions do not interfere.** After every run of a workspace, each of its sessions is the first
one or was started by a command of the run, from the clauses of that command or from a copy of the
scope that was current then. It has given the replies and has reached the state that it gives and
reaches alone, through the commands addressed to it, and its count is the number of evaluations
among them since it was last built. Two runs that go on from there with the same commands to this
session get the same replies from it and leave it in the same state, whatever they do to others. -/
theorem sessions_independent (ar : Arithmetic) (clauses : List Setup.Clause) (cs : List Command)
    (w : Workspace) (hw : ((start clauses).run ar cs).2 = w) (i : ℕ) (s : Session)
    (hs : w.sessions[i]? = some s) :
    (∃ s₀, (i = 0 ∧ s₀ = (Session.start clauses .silent).1
        ∨ ∃ before c after, cs = before ++ c :: after
          ∧ ((start clauses).run ar before).2.sessions.size = i
          ∧ ((start clauses).run ar before).2.Starts c s₀)
      ∧ (start clauses).AsAlone ar cs i s₀)
    ∧ s.resolved = (sinceRestart ((start clauses).roster.own i cs)).countP Command.isResolve
    ∧ ∀ cs₁ cs₂, w.roster.own i cs₁ = w.roster.own i cs₂ →
      addressedTo i (w.roster.addressees cs₁) (w.run ar cs₁).1
        = addressedTo i (w.roster.addressees cs₂) (w.run ar cs₂).1
      ∧ (w.run ar cs₁).2.sessions[i]? = (w.run ar cs₂).2.sessions[i]? := by
  subst hw
  obtain ⟨s₀, horigin, halone, hzero⟩ :=
    exists_origin ar clauses cs (Array.getElem?_eq_some_iff.mp hs).1
  have hlocal : ∀ c ∈ (start clauses).roster.own i cs, c.isLocal = true :=
    fun c hc => Roster.isLocal_of_mem_own hc
  obtain rfl : s = ((alone s₀).run ar ((start clauses).roster.own i cs)).2.session :=
    Option.some.inj (hs.symm.trans halone.session)
  refine ⟨⟨s₀, horigin, halone⟩, resolved_run_alone ar hzero hlocal, fun cs₁ cs₂ hown => ?_⟩
  have h₁ := asAlone_of_getElem? ar cs₁ hs
  have h₂ := asAlone_of_getElem? ar cs₂ hs
  rw [h₁.replies, h₂.replies, h₁.session, h₂.session, hown]
  exact ⟨rfl, rfl⟩

/-- A fork, writes to both sides, a failure, and a restart. -/
def writesAfterFork : List Command :=
  [.set "x" (.bool true), .fork, .set "x" (.bool false), .resolve (.symbol "x"), .use 0,
    .resolve (.symbol "z"), .restart [("y", .bool true)], .resolve (.symbol "y"), .use 1]

/-- The theorem at both sides of a fork: each has counted one evaluation since it was built, and a
later write to one side is not noticed by the other. -/
theorem sessions_independent_of_fork :
    ∃ w s s', ((start []).run .ieee writesAfterFork).2 = w
      ∧ w.sessions[0]? = some s ∧ s.resolved = 1 ∧ w.sessions[1]? = some s' ∧ s'.resolved = 1
      ∧ (w.run .ieee [.set "x" (.bool true)]).2.sessions[0]? = some s := by
  have hroster : ((start []).run .ieee writesAfterFork).2.roster = ⟨2, 1⟩ := by decide +kernel
  have hsize : ((start []).run .ieee writesAfterFork).2.sessions.size = 2 :=
    congrArg Roster.size hroster
  have hparent : 0 < ((start []).run .ieee writesAfterFork).2.sessions.size := by omega
  have hfork : 1 < ((start []).run .ieee writesAfterFork).2.sessions.size := by omega
  have hs := Array.getElem?_eq_getElem hparent
  have hs' := Array.getElem?_eq_getElem hfork
  obtain ⟨-, hcount, hlater⟩ := sessions_independent .ieee [] writesAfterFork _ rfl 0 _ hs
  obtain ⟨-, hcount', -⟩ := sessions_independent .ieee [] writesAfterFork _ rfl 1 _ hs'
  refine ⟨_, _, _, rfl, hs, hcount.trans (by decide +kernel), hs',
    hcount'.trans (by decide +kernel), ?_⟩
  have hown : ((start []).run .ieee writesAfterFork).2.roster.own 0 [.set "x" (.bool true)]
      = ((start []).run .ieee writesAfterFork).2.roster.own 0 [] := by
    rw [hroster]
    rfl
  exact (hlater _ _ hown).2.trans hs

end Workspace

end Abacus
