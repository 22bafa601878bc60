import Mathlib.Tactic.Common
import Abacus.Proofs.Journal.Report

/-!
The spans of an evaluation mirror its expression.

Spans open in pre-order and close in post-order. So the reports of an evaluation are read along the
nodes of its expression in pre-order: one that opens a span opens that of the next node, one that
closes a span closes the one that was opened last, and every other report has to stand directly
inside the span of the node that it belongs to.

* `Traversal`, `Traversal.next`, `Traversal.read`: how far the nodes of an expression have been gone
  through, one event further, and as far as a list of reports leads. It comes to a halt at a report
  that is not one of an evaluation or does not stand in its place.
* `Evaluates.read_of_ok`: the reports of an evaluation that has a value are read to their end, past
  all nodes.
* `Evaluates.read_of_error`: those of one that fails are read to their end, past the nodes up to the
  symbol that fails, and all spans are closed all the same.
* `Expr.Shape`: an expression without its names, numbers and operators, which is regained from the
  names of the kinds of its nodes in pre-order (`foldr_grow_preorder`).
* `Expr.record_nesting`: what this says of the reports of every evaluation.
-/

namespace Abacus

open Journal

/-- A state in going through the nodes of an expression: those whose spans are still to be opened,
those whose spans are open, the innermost first, and those whose spans are closed, the last one
first. -/
structure Traversal where
  coming : List Node
  active : List Node
  ended : List Node

namespace Traversal

/-- The state after an event, if this stands in its place. The span of a node is opened under the
name of its kind, inside as many spans as there are nodes above it. A look-up stands in the span of
its symbol, and an assignment in its own span, just after that of its value. -/
def next (rd : Traversal) : Event → Option Traversal
  | .enter kind =>
    match rd.coming with
    | n :: coming =>
      if n.kind.name = kind ∧ rd.active.length = n.depth then
        some ⟨coming, n :: rd.active, rd.ended⟩
      else none
    | [] => none
  | .exit =>
    match rd.active with
    | n :: active => some ⟨rd.coming, active, n :: rd.ended⟩
    | [] => none
  | .get name _ | .unbound name =>
    if rd.active.head?.map Node.expr = some (.symbol name) then some rd else none
  | .set name _ =>
    match rd.active, rd.ended with
    | n :: _, m :: _ =>
      if n.expr = .assign name m.expr ∧ m.position = n.position ++ [.value] then some rd else none
    | _, _ => none

/-- The state after the event that a report tells of, if it tells of one. -/
def step (rd : Traversal) (r : Report) : Option Traversal := r.event?.bind rd.next

/-- The state after a list of reports, if each of them stands in its place. -/
def read (rd : Traversal) (rs : List Report) : Option Traversal := rs.foldlM step rd

/-- The state before the first node of an expression. -/
def start (e : Expr) : Traversal := ⟨e.preorder [], [], []⟩

lemma read_cons (rd : Traversal) (r : Report) (rs : List Report) :
    rd.read (r :: rs) = (rd.step r).bind (·.read rs) :=
  List.foldlM_cons

lemma read_append (rd : Traversal) (rs rs' : List Report) :
    rd.read (rs ++ rs') = (rd.read rs).bind (·.read rs') :=
  List.foldlM_append

lemma step_report (rd : Traversal) (x : Entry) : rd.step x.report = x.event?.bind rd.next := by
  rw [step, Entry.event?_report]

/-- The span of the next node is opened, the reports inside it are read, and it is closed. -/
lemma read_span {n : Node} {active : List Node} (hdepth : active.length = n.depth)
    (coming ended : List Node) (inner : List Entry) :
    read ⟨n :: coming, active, ended⟩ ((span n.kind inner).map Entry.report)
      = (read ⟨coming, n :: active, ended⟩ (inner.map Entry.report)).bind (·.next .exit) := by
  rw [span, List.map_cons, read_cons, step_report, Entry.event?, Option.bind_some, next]
  simp only [hdepth, and_self, if_true, Option.bind_some]
  rw [List.map_append, read_append]
  congr 1
  funext rd
  rw [List.map_singleton, read_cons, step_report]
  exact Option.bind_fun_some _

/-! ### Where an event stands -/

lemma exists_of_next_enter {rd rd' : Traversal} {kind : String}
    (h : rd.next (.enter kind) = some rd') :
    ∃ n coming active ended, rd = ⟨n :: coming, active, ended⟩ ∧ n.kind.name = kind
      ∧ active.length = n.depth ∧ rd' = ⟨coming, n :: active, ended⟩ := by
  obtain ⟨coming, active, ended⟩ := rd
  cases coming with
  | nil => cases h
  | cons n coming =>
      simp only [next] at h
      split_ifs at h with hn
      exact ⟨n, coming, active, ended, rfl, hn.1, hn.2, (Option.some.inj h).symm⟩

/-- A look-up stands in the span of its symbol and leaves the state as it is. -/
lemma exists_of_next_lookUp {rd rd' : Traversal} {name : String} {x : Event}
    (hx : x = .unbound name ∨ ∃ bound, x = .get name bound) (h : rd.next x = some rd') :
    rd' = rd
    ∧ ∃ q coming active ended, rd = ⟨coming, ⟨q, .symbol name⟩ :: active, ended⟩ := by
  have hlookUp : rd.next x
      = if rd.active.head?.map Node.expr = some (.symbol name) then some rd else none := by
    rcases hx with rfl | ⟨bound, rfl⟩ <;> rfl
  rw [hlookUp] at h
  split_ifs at h with hhead
  refine ⟨(Option.some.inj h).symm, ?_⟩
  obtain ⟨coming, active, ended⟩ := rd
  cases active with
  | nil => cases hhead
  | cons n active =>
      obtain ⟨q, e⟩ := n
      cases hhead
      exact ⟨q, coming, active, ended, rfl⟩

/-- An assignment stands in its span, after that of its value, and leaves the state as it is. -/
lemma exists_of_next_set {rd rd' : Traversal} {name text : String}
    (h : rd.next (.set name text) = some rd') :
    rd' = rd
    ∧ ∃ q value coming active ended,
        rd = ⟨coming, ⟨q, .assign name value⟩ :: active, ⟨q ++ [.value], value⟩ :: ended⟩ := by
  obtain ⟨coming, active, ended⟩ := rd
  cases active with
  | nil => cases h
  | cons n active =>
      cases ended with
      | nil => cases h
      | cons m ended =>
          obtain ⟨q, e⟩ := n
          obtain ⟨q', value⟩ := m
          simp only [next] at h
          split_ifs at h with hn
          obtain ⟨rfl, rfl⟩ := hn
          exact ⟨(Option.some.inj h).symm, q, value, coming, active, ended, rfl⟩

/-- Events that open no span leave the coming nodes as they are. -/
lemma coming_of_next {rd rd' : Traversal} {x : Event} (hx : x.kind? = none)
    (h : rd.next x = some rd') : rd'.coming = rd.coming := by
  cases x with
  | enter kind => cases hx
  | exit =>
      obtain ⟨coming, active, ended⟩ := rd
      cases active with
      | nil => cases h
      | cons n active => cases h; rfl
  | set name text => rw [(exists_of_next_set h).1]
  | get name bound => rw [(exists_of_next_lookUp (.inr ⟨bound, rfl⟩) h).1]
  | unbound name => rw [(exists_of_next_lookUp (.inl rfl) h).1]

/-- The spans that are opened are those of the nodes that have come. -/
lemma exists_entered_of_read {rd rd' : Traversal} {rs : List Report} (h : rd.read rs = some rd') :
    ∃ entered, rd.coming = entered ++ rd'.coming
      ∧ rs.filterMap Report.kind? = entered.map (·.kind.name) := by
  induction rs generalizing rd with
  | nil =>
      cases h
      exact ⟨[], rfl, rfl⟩
  | cons r rs ih =>
      rw [read_cons, Option.bind_eq_some_iff] at h
      obtain ⟨rd₁, hr, hrest⟩ := h
      obtain ⟨entered, hcoming, hkinds⟩ := ih hrest
      obtain ⟨x, hx, hnext⟩ := Option.bind_eq_some_iff.mp hr
      have hreport : r.kind? = x.kind? := by rw [Report.kind?, hx, Option.bind_some]
      cases hkind : x.kind? with
      | none =>
          refine ⟨entered, ?_, ?_⟩
          · rw [← coming_of_next hkind hnext, hcoming]
          · rw [List.filterMap_cons_none (hreport.trans hkind), hkinds]
      | some kind =>
          cases x with
          | enter kind' =>
              obtain ⟨n, coming, active, ended, rfl, rfl, -, rfl⟩ := exists_of_next_enter hnext
              refine ⟨n :: entered, congrArg (List.cons n) hcoming, ?_⟩
              rw [List.filterMap_cons_some hreport, hkinds, List.map_cons]
          | _ => cases hkind

lemma kinds_of_read {rd rd' : Traversal} {rs : List Report} (h : rd.read rs = some rd')
    {entered : List Node} (hentered : rd.coming = entered ++ rd'.coming) :
    rs.filterMap Report.kind? = entered.map (·.kind.name) := by
  obtain ⟨entered', hcoming, hkinds⟩ := exists_entered_of_read h
  rw [hentered] at hcoming
  rw [hkinds, List.append_cancel_right hcoming]

end Traversal

/-! ### Reports are read to their end -/

/-- The root of an expression comes last in post-order. -/
lemma Expr.exists_postorder_eq_concat (e : Expr) (p : List Side) :
    ∃ below, e.postorder p = below ++ [⟨p, e⟩] := by
  cases e with
  | number x => exact ⟨[], rfl⟩
  | symbol name => exact ⟨[], rfl⟩
  | binary op l r => exact ⟨_, (List.append_assoc ..).symm⟩
  | assign target e => exact ⟨_, rfl⟩

section Evaluation

variable {ar : Arithmetic} {e : Expr} {s s' : Scope} {r : Except EvalError Double}
  {es : List Entry}

/-- The reports of an evaluation that has a value open and close the span of every node. -/
lemma Evaluates.read_of_ok (h : Evaluates ar e s r s' es) {v : Double} (hr : r = .ok v)
    (p : List Side) (coming active ended : List Node) (hdepth : active.length = p.length) :
    Traversal.read ⟨e.preorder p ++ coming, active, ended⟩ (es.map Entry.report)
      = some ⟨coming, active, (e.postorder p).reverse ++ ended⟩ := by
  induction h generalizing v p coming active ended with
  | number x s => exact Traversal.read_span (n := ⟨p, .number x⟩) hdepth coming ended []
  | @bound name s v found =>
      refine (Traversal.read_span (n := ⟨p, .symbol name⟩) hdepth coming ended _).trans ?_
      simp [Traversal.read, Traversal.step_report, Entry.event?, Traversal.next, Expr.postorder]
  | unbound missing => cases hr
  | leftFails op r left ih => cases hr
  | rightFails op left right ihl ihr => cases hr
  | @applies op l r s s' s'' x y es es' left right ihl ihr =>
      have hleft := ihl rfl (p ++ [.left]) (r.preorder (p ++ [.right]) ++ coming)
        (⟨p, .binary op l r⟩ :: active) ended (by simp [hdepth])
      have hright := ihr rfl (p ++ [.right]) coming (⟨p, .binary op l r⟩ :: active)
        ((l.postorder (p ++ [.left])).reverse ++ ended) (by simp [hdepth])
      refine (Traversal.read_span (n := ⟨p, .binary op l r⟩) hdepth
        (l.preorder _ ++ r.preorder _ ++ coming) ended _).trans ?_
      rw [List.map_append, Traversal.read_append, List.append_assoc, hleft, Option.bind_some,
        hright, Option.bind_some, Traversal.next, Expr.postorder]
      simp
  | valueFails target value ih => cases hr
  | @stores target e s s' v es value ih =>
      have hvalue := ih rfl (p ++ [.value]) coming (⟨p, .assign target e⟩ :: active) ended
        (by simp [hdepth])
      refine (Traversal.read_span (n := ⟨p, .assign target e⟩) hdepth (e.preorder _ ++ coming)
        ended _).trans ?_
      rw [List.map_append, Traversal.read_append, hvalue, Option.bind_some, Expr.postorder]
      -- The span of the value is the one that was closed last.
      obtain ⟨below, hbelow⟩ := e.exists_postorder_eq_concat (p ++ [.value])
      simp [hbelow, Traversal.read, Traversal.step_report, Entry.event?, Traversal.next]

/-- The reports of an evaluation that fails open the spans of the nodes up to the one that fails,
which is the last one visited, and close all of them. -/
lemma Evaluates.read_of_error (h : Evaluates ar e s r s' es) {name : String}
    (hr : r = .error (.unboundSymbol name)) (p : List Side) :
    ∃ before q after, e.preorder p = before ++ ⟨q, .symbol name⟩ :: after
      ∧ (∀ stack, (Machine.visit ar (e.postorder p) ⟨stack, s⟩).getLast? = some ⟨q, .symbol name⟩)
      ∧ ∀ coming active ended, active.length = p.length →
          ∃ ended', Traversal.read ⟨e.preorder p ++ coming, active, ended⟩ (es.map Entry.report)
            = some ⟨after ++ coming, active, ended'⟩ := by
  induction h generalizing p with
  | number x s => cases hr
  | bound found => cases hr
  | @unbound name s missing =>
      cases hr
      refine ⟨[], p, [], rfl, fun stack => ?_, fun coming active ended hdepth => ?_⟩
      · simp [Expr.postorder, Machine.visit, Node.instruction, Instruction.exec, missing]
      · refine ⟨⟨p, .symbol name⟩ :: ended,
          (Traversal.read_span (n := ⟨p, .symbol name⟩) hdepth coming ended _).trans ?_⟩
        simp [Traversal.read, Traversal.step_report, Entry.event?, Traversal.next]
  | @leftFails op r l s s' cause es left ih =>
      cases hr
      obtain ⟨before, q, after, hsplit, hlast, hread⟩ := ih rfl (p ++ [.left])
      refine ⟨⟨p, .binary op l r⟩ :: before, q, after ++ r.preorder (p ++ [.right]), ?_,
        fun stack => ?_, fun coming active ended hdepth => ?_⟩
      · rw [Expr.preorder, hsplit]
        simp
      · rw [Expr.postorder, left.visit_append_of_error, hlast]
      · obtain ⟨ended', hread⟩ := hread (r.preorder (p ++ [.right]) ++ coming)
          (⟨p, .binary op l r⟩ :: active) ended (by simp [hdepth])
        refine ⟨⟨p, .binary op l r⟩ :: ended', (Traversal.read_span (n := ⟨p, .binary op l r⟩)
          hdepth (l.preorder _ ++ r.preorder _ ++ coming) ended _).trans ?_⟩
        rw [List.append_assoc, hread, Option.bind_some, Traversal.next, List.append_assoc]
  | @rightFails op l r s s' s'' x cause es es' left right ihl ihr =>
      cases hr
      obtain ⟨before, q, after, hsplit, hlast, hread⟩ := ihr rfl (p ++ [.right])
      refine ⟨⟨p, .binary op l r⟩ :: (l.preorder (p ++ [.left]) ++ before), q, after, ?_,
        fun stack => ?_, fun coming active ended hdepth => ?_⟩
      · rw [Expr.preorder, hsplit]
        simp
      · rw [Expr.postorder, left.visit_append_of_ok, right.visit_append_of_error,
          List.getLast?_append, hlast, Option.some_or]
      · have hleft := left.read_of_ok rfl (p ++ [.left]) (r.preorder (p ++ [.right]) ++ coming)
          (⟨p, .binary op l r⟩ :: active) ended (by simp [hdepth])
        obtain ⟨ended', hright⟩ := hread coming (⟨p, .binary op l r⟩ :: active)
          ((l.postorder (p ++ [.left])).reverse ++ ended) (by simp [hdepth])
        refine ⟨⟨p, .binary op l r⟩ :: ended', (Traversal.read_span (n := ⟨p, .binary op l r⟩)
          hdepth (l.preorder _ ++ r.preorder _ ++ coming) ended _).trans ?_⟩
        rw [List.map_append, Traversal.read_append, List.append_assoc, hleft, Option.bind_some,
          hright, Option.bind_some, Traversal.next]
  | applies op left right ihl ihr => cases hr
  | @valueFails target e s s' cause es value ih =>
      cases hr
      obtain ⟨before, q, after, hsplit, hlast, hread⟩ := ih rfl (p ++ [.value])
      refine ⟨⟨p, .assign target e⟩ :: before, q, after, ?_, fun stack => ?_,
        fun coming active ended hdepth => ?_⟩
      · rw [Expr.preorder, hsplit, List.cons_append]
      · rw [Expr.postorder, value.visit_append_of_error, hlast]
      · obtain ⟨ended', hread⟩ := hread coming (⟨p, .assign target e⟩ :: active) ended
          (by simp [hdepth])
        refine ⟨⟨p, .assign target e⟩ :: ended', (Traversal.read_span (n := ⟨p, .assign target e⟩)
          hdepth (e.preorder _ ++ coming) ended _).trans ?_⟩
        rw [hread, Option.bind_some, Traversal.next]
  | stores target value ih => cases hr

end Evaluation

/-! ### The shape of an expression -/

namespace Expr

/-- What is left of an expression without its names, numbers and operators. -/
inductive Shape where
  | number
  | symbol
  | binary (left right : Shape)
  | assign (value : Shape)
deriving DecidableEq

/-- The shape of an expression. -/
def shape : Expr → Shape
  | number _ => .number
  | symbol _ => .symbol
  | binary _ l r => .binary l.shape r.shape
  | assign _ e => .assign e.shape

namespace Shape

/-- Puts a node of some kind above the shapes that follow it, as many as it has operands. -/
def grow : Kind → List Shape → List Shape
  | .number, shapes => number :: shapes
  | .symbol, shapes => symbol :: shapes
  | .binary, l :: r :: shapes => binary l r :: shapes
  | .assign, value :: shapes => assign value :: shapes
  | _, shapes => shapes

/-- The shape that is read from reports: from the names of the kinds of the nodes whose spans they
open, the last one first. -/
def ofReports? (rs : List Report) : Option Shape :=
  (((rs.filterMap Report.kind?).filterMap Kind.ofName?).foldr grow []).head?

end Shape

/-- The kinds of the nodes in pre-order are read back, from the end, as the shape. -/
lemma foldr_grow_preorder (e : Expr) (p : List Side) (shapes : List Shape) :
    ((e.preorder p).map Node.kind).foldr Shape.grow shapes = e.shape :: shapes := by
  induction e generalizing p shapes with
  | number x => rfl
  | symbol name => rfl
  | binary op l r ihl ihr =>
      rw [preorder, List.map_cons, List.foldr_cons, List.map_append, List.foldr_append, ihr, ihl]
      rfl
  | assign target e ih =>
      rw [preorder, List.map_cons, List.foldr_cons, ih]
      rfl

/-- Reports that open the spans of all nodes in pre-order are read back as the shape. -/
lemma ofReports?_eq_some {e : Expr} {p : List Side} {rs : List Report}
    (h : rs.filterMap Report.kind? = (e.preorder p).map (·.kind.name)) :
    Shape.ofReports? rs = some e.shape := by
  have hkinds : ((e.preorder p).map (·.kind.name)).filterMap Kind.ofName?
      = (e.preorder p).map Node.kind := by
    rw [List.filterMap_map, ← List.filterMap_eq_map]
    exact congrArg ((e.preorder p).filterMap ·) (funext fun n => Kind.ofName?_name n.kind)
  rw [Shape.ofReports?, h, hkinds, foldr_grow_preorder, List.head?_cons]

/-! ### The reports of an evaluation -/

/-- All that is reported of the evaluation of an expression. -/
def reports (ar : Arithmetic) (e : Expr) (s : Scope) : List Report :=
  (e.record ar s).map Entry.report

/-- All reports of an evaluation are read, and no span is left open. -/
lemma exists_read_reports (ar : Arithmetic) (e : Expr) (s : Scope) :
    ∃ coming ended, (Traversal.start e).read (e.reports ar s) = some ⟨coming, [], ended⟩ := by
  obtain ⟨r, s', es, h⟩ := exists_evaluates ar e s
  rw [reports, h.record_eq, Traversal.start, ← List.append_nil (e.preorder [])]
  cases r with
  | ok v => exact ⟨_, _, h.read_of_ok rfl [] [] [] [] rfl⟩
  | error cause =>
      obtain ⟨name⟩ := cause
      obtain ⟨-, -, after, -, -, hread⟩ := h.read_of_error rfl []
      obtain ⟨ended, hread⟩ := hread [] [] [] rfl
      exact ⟨_, _, hread⟩

/-- The reports are read up to each of them, and the event that it tells of then stands in its
place. -/
lemma exists_next_of_reports_eq {ar : Arithmetic} {e : Expr} {s : Scope} {r : Report} {x : Event}
    {before after : List Report} (h : e.reports ar s = before ++ r :: after)
    (hr : r.event? = some x) :
    ∃ rd rd', (Traversal.start e).read before = some rd ∧ rd.next x = some rd' := by
  obtain ⟨coming, ended, hread⟩ := e.exists_read_reports ar s
  rw [h] at hread
  obtain ⟨rd, rd', hbefore, hstep⟩ := exists_of_foldlM_eq_some hread
  rw [Traversal.step, hr, Option.bind_some] at hstep
  exact ⟨rd, rd', hbefore, hstep⟩

/-- **The spans of an evaluation mirror its expression.** Whether it fails or not, every span that
is opened is closed again, inside the span that was opened before it. If it has a value, the spans
are those of all nodes, opened in pre-order under the names of their kinds and closed in post-order,
and the shape of the expression is read off these names; if it fails, they are those of the nodes
that come in pre-order up to and including the symbol that fails, which is the last node visited. A
span is opened inside as many spans as there are nodes above its own. An assignment is reported
directly inside its span, just after the span of its value, and a look-up directly inside that of
its symbol. -/
theorem record_nesting (ar : Arithmetic) (e : Expr) (s : Scope) :
    (∀ v, (e.resolve ar ⟨s, .silent⟩).1 = .ok v →
      (Traversal.start e).read (e.reports ar s) = some ⟨[], [], (e.postorder []).reverse⟩
      ∧ (e.reports ar s).filterMap Report.kind? = (e.preorder []).map (·.kind.name)
      ∧ Shape.ofReports? (e.reports ar s) = some e.shape)
    ∧ (∀ name, (e.resolve ar ⟨s, .silent⟩).1 = .error (.unboundSymbol name) →
      ∃ before q after ended, e.preorder [] = before ++ ⟨q, .symbol name⟩ :: after
        ∧ (e.visited ar s).getLast? = some ⟨q, .symbol name⟩
        ∧ (Traversal.start e).read (e.reports ar s) = some ⟨after, [], ended⟩
        ∧ (e.reports ar s).filterMap Report.kind?
            = (before ++ [⟨q, .symbol name⟩]).map (·.kind.name))
    ∧ (∀ before kind after,
      e.reports ar s = before ++ ("resolve", [("kind", .text kind)]) :: after →
      ∃ n coming active ended,
        (Traversal.start e).read before = some ⟨n :: coming, active, ended⟩
        ∧ n.kind.name = kind ∧ active.length = n.depth)
    ∧ (∀ before name text after,
      e.reports ar s
        = before ++ ("set symbol", [("name", .text name), ("value", .text text)]) :: after →
      ∃ q value coming active ended, (Traversal.start e).read before
        = some ⟨coming, ⟨q, .assign name value⟩ :: active, ⟨q ++ [.value], value⟩ :: ended⟩)
    ∧ (∀ (before : List Report) name (r : Report) after, e.reports ar s = before ++ r :: after →
      r = ("unbound symbol", [("name", .text name)])
        ∨ (∃ bound, r = ("get symbol", [("name", .text name), ("bound", .flag bound)])) →
      ∃ q coming active ended, (Traversal.start e).read before
        = some ⟨coming, ⟨q, .symbol name⟩ :: active, ended⟩) := by
  obtain ⟨r, s', es, h⟩ := exists_evaluates ar e s
  have hreports : e.reports ar s = es.map Entry.report := by rw [reports, h.record_eq]
  rw [h.resolve_eq]
  refine ⟨fun v hv => ?_, fun name hname => ?_, fun before kind after hsplit => ?_,
    fun before name text after hsplit => ?_, fun before name r after hsplit hr => ?_⟩
  · have hread := h.read_of_ok hv [] [] [] [] rfl
    rw [List.append_nil, List.append_nil, ← hreports] at hread
    have hkinds : (e.reports ar s).filterMap Report.kind? = (e.preorder []).map (·.kind.name) :=
      Traversal.kinds_of_read hread (List.append_nil _).symm
    exact ⟨hread, hkinds, ofReports?_eq_some hkinds⟩
  · obtain ⟨before, q, after, hpreorder, hlast, hread⟩ := h.read_of_error hname []
    obtain ⟨ended, hread⟩ := hread [] [] [] rfl
    rw [List.append_nil, List.append_nil, ← hreports] at hread
    have hentered : e.preorder [] = (before ++ [⟨q, .symbol name⟩]) ++ after := by
      rw [hpreorder, List.append_assoc, List.singleton_append]
    exact ⟨before, q, after, ended, hpreorder, hlast [], hread,
      Traversal.kinds_of_read hread hentered⟩
  · obtain ⟨rd, rd', hbefore, hnext⟩ := exists_next_of_reports_eq hsplit rfl
    obtain ⟨n, coming, active, ended, rfl, hkind, hdepth, -⟩ :=
      Traversal.exists_of_next_enter hnext
    exact ⟨n, coming, active, ended, hbefore, hkind, hdepth⟩
  · obtain ⟨rd, rd', hbefore, hnext⟩ := exists_next_of_reports_eq hsplit rfl
    obtain ⟨-, q, value, coming, active, ended, rfl⟩ := Traversal.exists_of_next_set hnext
    exact ⟨q, value, coming, active, ended, hbefore⟩
  · obtain ⟨x, hevent, hx⟩ : ∃ x, r.event? = some x
        ∧ (x = .unbound name ∨ ∃ bound, x = .get name bound) := by
      rcases hr with rfl | ⟨bound, rfl⟩
      · exact ⟨_, rfl, .inl rfl⟩
      · exact ⟨_, rfl, .inr ⟨bound, rfl⟩⟩
    obtain ⟨rd, rd', hbefore, hnext⟩ := exists_next_of_reports_eq hsplit hevent
    obtain ⟨-, q, coming, active, ended, rfl⟩ := Traversal.exists_of_next_lookUp hx hnext
    exact ⟨q, coming, active, ended, hbefore⟩

/-- An assignment that is carried out before the evaluation fails. -/
def failsAfterAssignment : Expr := .binary .add (.assign "y" (.number .one)) (.symbol "z")

/-- The theorem at an assignment, and at one that a failure follows. -/
theorem record_nesting_after_assignment :
    Shape.ofReports? ((assign "y" (.number .one)).reports .ieee .empty) = some (.assign .number)
    ∧ (∃ before q after ended,
        failsAfterAssignment.preorder [] = before ++ ⟨q, .symbol "z"⟩ :: after
        ∧ (Traversal.start failsAfterAssignment).read (failsAfterAssignment.reports .ieee .empty)
            = some ⟨after, [], ended⟩
        ∧ (failsAfterAssignment.reports .ieee .empty).filterMap Report.kind?
            = ["binary", "assign", "number", "symbol"])
    ∧ (∃ n coming active ended,
        (Traversal.start failsAfterAssignment).read
            ((failsAfterAssignment.reports .ieee .empty).take 6)
          = some ⟨n :: coming, active, ended⟩
        ∧ n.kind.name = "symbol" ∧ active.length = n.depth)
    ∧ (∃ q value coming active ended,
        (Traversal.start failsAfterAssignment).read
            ((failsAfterAssignment.reports .ieee .empty).take 4)
          = some ⟨coming, ⟨q, .assign "y" value⟩ :: active, ⟨q ++ [.value], value⟩ :: ended⟩)
    ∧ ∃ q coming active ended,
        (Traversal.start failsAfterAssignment).read
            ((failsAfterAssignment.reports .ieee .empty).take 8)
          = some ⟨coming, ⟨q, .symbol "z"⟩ :: active, ended⟩ := by
  have hvalue :=
    (record_nesting .ieee (.assign "y" (.number .one)) .empty).1 .one (by decide +kernel)
  obtain ⟨-, hfails, henter, hset, hlookUp⟩ := record_nesting .ieee failsAfterAssignment .empty
  obtain ⟨before, q, after, ended, hpreorder, -, hread, -⟩ := hfails "z" (by decide +kernel)
  refine ⟨hvalue.2.2, ⟨before, q, after, ended, hpreorder, hread, by decide +kernel⟩, ?_, ?_, ?_⟩
  · exact henter _ "symbol" ((failsAfterAssignment.reports .ieee .empty).drop 7)
      (by decide +kernel)
  · exact hset _ "y" "1" ((failsAfterAssignment.reports .ieee .empty).drop 5) (by decide +kernel)
  · exact hlookUp _ "z" _ ((failsAfterAssignment.reports .ieee .empty).drop 9) (by decide +kernel)
      (.inl rfl)

end Expr

end Abacus
