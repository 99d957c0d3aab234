import Scriptlet.Proofs.Calls
import Scriptlet.Proofs.Contract

/-!
# What was written before

A run writes output and a trace, and reads neither. So whatever was written
before it began stays in front of what it writes, and makes no other
difference (`evaluate_appends`): an evaluation can be followed on a machine
on which nothing is written yet (`evaluate_of_blank`).
-/

namespace Scriptlet

namespace Machine

def behind (m : Machine) (output : String) (trace : Array Event) : Machine :=
  { m with output := output ++ m.output, trace := trace ++ m.trace }

/-- The machine with something else written on it. -/
def wrote (m : Machine) (output : String) (trace : Array Event) : Machine :=
  { m with output, trace }

def blank (m : Machine) : Machine := m.wrote "" #[]

theorem behind_blank (m : Machine) :
    m.blank.behind m.output m.trace = m := by
  simp [blank, wrote, behind]

end Machine

/-- What was written before the action stays in front of what it writes, and
makes no other difference. -/
def Appends {α : Type} (action : Eval α) : Prop :=
  ∀ (m : Machine) (output : String) (trace : Array Event),
    (action m).Ensures
      (fun a m' => action (m.behind output trace) =
        .done a (m'.behind output trace))
      fun f m' => action (m.behind output trace) =
        .failed f (m'.behind output trace)

namespace Appends

variable {α β : Type}

theorem pure (a : α) : Appends (Pure.pure a) := fun _ _ _ => rfl

theorem fail (f : Fault) : Appends (Step.fail f : Eval α) := fun _ _ _ => rfl

theorem lift (result : Except Fault α) : Appends (Step.lift result) := by
  cases result with
  | ok a => exact pure a
  | error f => exact fail f

theorem bind {action : Eval α} {next : α → Eval β} (h : Appends action)
    (hnext : ∀ a, Appends (next a)) : Appends (action >>= next) := by
  intro m output trace
  have hfirst := h m output trace
  rw [Step.bind_apply, Step.bind_apply]
  cases hm : action m with
  | done a m₁ =>
      rw [hm] at hfirst
      replace hfirst : action (m.behind output trace) =
          .done a (m₁.behind output trace) := hfirst
      rw [hfirst]
      exact hnext a m₁ output trace
  | failed f m₁ =>
      rw [hm] at hfirst
      replace hfirst : action (m.behind output trace) =
          .failed f (m₁.behind output trace) := hfirst
      rw [hfirst]
      rfl

theorem modify {change : Machine → Machine}
    (h : ∀ m output trace, change (m.behind output trace) =
      (change m).behind output trace) :
    Appends (Step.modify change : Eval Unit) :=
  fun m output trace => congrArg (Outcome.done ()) (h m output trace)

/-- A step may look at what is not written. -/
theorem get_bind {next : Machine → Eval β} (h : ∀ m, Appends (next m))
    (hbehind : ∀ m output trace, next (m.behind output trace) = next m) :
    Appends (Step.get >>= next) := by
  intro m output trace
  rw [Step.bind_apply, Step.bind_apply, Step.get_apply, Step.get_apply]
  dsimp only
  rw [hbehind]
  exact h m m output trace

theorem nameOf (json : Json) : Appends (Eval.nameOf json) := by
  unfold Eval.nameOf
  cases Name.ofJson? json with
  | none => exact fail _
  | some name => exact pure name

theorem writeLine (text : String) : Appends (Eval.writeLine text) := by
  refine modify fun m output trace => ?_
  simp only [Machine.behind, String.append_assoc]

theorem readLine : Appends Eval.readLine := by
  intro m output trace
  unfold Eval.readLine Machine.behind
  dsimp only
  cases Text.readLine? m.input <;> rfl

theorem record (setting : Setting) (required : Int)
    (event : Unit → Except Fault Event) :
    Appends (Eval.record setting required event) := by
  unfold Eval.record
  split
  · refine bind (lift _) fun e => modify fun m output trace => ?_
    have htracing : (m.behind output trace).tracing = m.tracing := rfl
    rw [htracing]
    split
    · simp only [Machine.behind, Array.append_push]
    · rfl
  · exact pure ()

theorem evalEach {eval : Nat → Node → Eval Value}
    (h : ∀ i node, Appends (eval i node)) (index : Nat) (nodes : List Node) :
    Appends (evalEach eval index nodes) := by
  induction nodes generalizing index with
  | nil => exact pure []
  | cons node rest ih =>
      refine bind (h index node) fun v => ?_
      exact bind (ih (index + 1)) fun vs => pure (v :: vs)

theorem evalLast {eval : Nat → Node → Eval Value}
    (h : ∀ i node, Appends (eval i node)) (index : Nat) (last : Value)
    (nodes : List Node) : Appends (evalLast eval index last nodes) := by
  induction nodes generalizing index last with
  | nil => exact pure last
  | cons node rest ih => exact bind (h index node) (ih (index + 1))

end Appends

/-! ## Calls -/

theorem putLines_appends (vs : List Value) : Appends (putLines vs) := by
  induction vs with
  | nil => exact .pure none
  | cons v rest ih =>
      unfold putLines
      cases v.display? with
      | none => exact .pure _
      | some text => exact .bind (.writeLine text) fun _ => ih

theorem callHost_appends (setting : Setting) (b : Builtin) (index : Nat)
    (vs : List Value) : Appends (callHost setting b index vs) := by
  refine .get_bind (fun m => ?_) fun m output trace => rfl
  refine .bind (.modify fun m output trace => rfl) fun _ => ?_
  cases setting.host[index]? with
  | none => exact .pure _
  | some function =>
      dsimp only
      cases function m.hostCalls vs with
      | value v => exact .pure v
      | raised _ _ | textFailed _ _ | outOfMemory _ => exact .fail _

theorem callBuiltin_appends (setting : Setting) (b : Builtin)
    (vs : List Value) : Appends (callBuiltin setting b vs) := by
  have hperform : Appends (callBuiltin.perform setting b vs) := by
    unfold callBuiltin.perform
    cases b.action with
    | puts =>
        refine .bind (putLines_appends vs) fun error => ?_
        cases error with
        | none => exact .pure _
        | some error => exact .fail _
    | gets =>
        refine .bind .readLine fun line => ?_
        cases line <;> exact .pure _
    | host index => exact callHost_appends setting b index vs
  unfold callBuiltin
  cases b.arity with
  | none => exact hperform
  | some arity =>
      dsimp only
      split
      · exact hperform
      · exact .fail _

theorem resolveCallee_appends (callee : Node) (scope : ScopeId) :
    Appends (resolveCallee callee scope) := by
  cases callee with
  | identifier json =>
      refine .bind (.nameOf json) fun name => ?_
      refine .get_bind (fun m => ?_) fun m output trace => rfl
      split
      · exact fun _ _ _ => rfl
      · exact .fail _
  | _ => exact .fail _

theorem bindParams_appends (scope : ScopeId) (params : List Json)
    (vs : List Value) : Appends (bindParams scope params vs) := by
  induction params generalizing vs with
  | nil => exact .pure ()
  | cons param params ih =>
      cases vs with
      | nil => exact .pure ()
      | cons v vs =>
          refine .bind (.nameOf param) fun name => ?_
          exact .bind (fun _ _ _ => rfl) fun _ => ih vs

theorem enterFunction_appends (setting : Setting) (c : Closure)
    (vs : List Value) (scope : ScopeId) :
    Appends (enterFunction setting c vs scope) := by
  refine .bind (fun _ _ _ => rfl) fun frame => ?_
  exact .bind (bindParams_appends frame c.params vs) fun _ => .pure frame

/-! ## Nodes -/

section

variable {setting : Setting} {limit : Nat}

theorem callValue_appends
    (ih : ∀ node site scope, Appends (evaluate setting limit node site scope))
    (f : Value) (vs : List Value) (scope : ScopeId) :
    Appends (callValue setting limit f vs scope) := by
  cases f with
  | function c =>
      refine .bind (enterFunction_appends setting c vs scope) fun frame => ?_
      exact .evalLast (fun i node => ih node (c.site.child i) frame) 0 .nil
        c.body
  | builtin b => exact callBuiltin_appends setting b vs
  | _ => exact .fail _

theorem call_appends
    (ih : ∀ node site scope, Appends (evaluate setting limit node site scope))
    (callee : Node) (args : List Node) (site : Site) (scope : ScopeId) :
    Appends (evaluate setting (limit + 1) (.call callee args) site scope) := by
  rw [evaluate_call]
  have hprepare : Appends
      (prepareCall setting limit callee args site scope) := by
    refine .bind (.evalEach (fun i arg => ih arg (site.child i) scope) 0 args)
      fun vs => ?_
    refine .bind (resolveCallee_appends callee scope) fun f => ?_
    exact .bind (.record setting 3 _) fun _ => .pure (f, vs)
  refine .bind hprepare fun call => ?_
  refine .bind (callValue_appends ih call.1 call.2 scope) fun v => ?_
  exact .bind (.record setting 3 _) fun _ => .pure v

end

/-- Evaluation appends to what was written. -/
theorem evaluate_appends (setting : Setting) (limit : Nat) (node : Node)
    (site : Site) (scope : ScopeId) :
    Appends (evaluate setting limit node site scope) := by
  induction limit generalizing node site scope with
  | zero =>
      rw [evaluate]
      exact .fail _
  | succ limit ih =>
      cases node with
      | number text =>
          rw [evaluate]
          exact .lift _
      | identifier json =>
          rw [evaluate]
          exact .bind (.nameOf json) fun name _ _ _ => rfl
      | binary operator left right =>
          rw [evaluate]
          refine .bind (ih left _ scope) fun a => ?_
          exact .bind (ih right _ scope) fun b => .lift _
      | assign json value =>
          rw [evaluate]
          refine .bind (ih value _ scope) fun v => ?_
          refine .bind (.nameOf json) fun name => ?_
          refine .bind (fun _ _ _ => rfl) fun _ => ?_
          refine .get_bind (fun m => ?_) fun m output trace => rfl
          exact .bind (.record setting 2 _) fun _ => .pure v
      | define json params body =>
          rw [evaluate]
          refine .bind (.nameOf json) fun name => ?_
          refine .bind (fun _ _ _ => rfl) fun _ => ?_
          exact .bind (.record setting 2 _) fun _ => .pure _
      | call callee args => exact call_appends ih callee args site scope
      | sequence items =>
          rw [evaluate]
          exact .fail _

section

variable {setting : Setting} {limit : Nat} {node : Node} {site : Site}
  {scope : ScopeId} {m m' : Machine}

/-- An evaluation does on any machine what it does where nothing is written
yet. -/
theorem evaluate_of_blank :
    (evaluate setting limit node site scope m.blank).Ensures
      (fun v m' => evaluate setting limit node site scope m =
        .done v (m'.behind m.output m.trace))
      fun f m' => evaluate setting limit node site scope m =
        .failed f (m'.behind m.output m.trace) := by
  have h := evaluate_appends setting limit node site scope m.blank m.output
    m.trace
  rw [m.behind_blank] at h
  exact h

theorem evaluate_of_done {v : Value}
    (h : evaluate setting limit node site scope m.blank = .done v m') :
    evaluate setting limit node site scope m =
      .done v (m'.behind m.output m.trace) := by
  have hblank : Outcome.Ensures (evaluate setting limit node site scope
    m.blank) _ _ := evaluate_of_blank
  rw [h] at hblank
  exact hblank

theorem evaluate_of_failed {f : Fault}
    (h : evaluate setting limit node site scope m.blank = .failed f m') :
    evaluate setting limit node site scope m =
      .failed f (m'.behind m.output m.trace) := by
  have hblank : Outcome.Ensures (evaluate setting limit node site scope
    m.blank) _ _ := evaluate_of_blank
  rw [h] at hblank
  exact hblank

end

end Scriptlet
