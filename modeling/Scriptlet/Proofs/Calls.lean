import Scriptlet.Evaluator
import Scriptlet.Proofs.Contract

/-!
# The stages of a call

Evaluating a call runs through stages that the proofs about evaluation
treat one by one: the row of arguments and the look-up of the callee
(`prepareCall`), entering the function (`enterFunction`: a new scope with
the parameters bound) and the row of statements in its body.
`evaluate_call` says that these are all of it. A program is a row of
statements that are traced (`evalStatement`).

The rest of this module is about the steps that leave the store alone, the
built-in functions among them (`ensures_callBuiltin`).
-/

namespace Scriptlet

/-- A new scope for a call, with the parameters bound in it. -/
def enterFunction (setting : Setting) (c : Closure) (vs : List Value)
    (scope : ScopeId) : Eval ScopeId := do
  let frame ← Eval.newScope (if setting.lexical then c.scope else scope)
  bindParams frame c.params vs
  return frame

def runBody (setting : Setting) (limit : Nat) (c : Closure)
    (frame : ScopeId) : Eval Value :=
  evalLast (fun i s => evaluate setting limit s (c.site.child i) frame) 0 .nil
    c.body

def callValue (setting : Setting) (limit : Nat) (f : Value)
    (vs : List Value) (scope : ScopeId) : Eval Value :=
  match f with
  | .function c => do
    let frame ← enterFunction setting c vs scope
    runBody setting limit c frame
  | .builtin b => callBuiltin setting b vs
  | other => Eval.failWith (.valueNotCallable other.typeName)

def evalArgs (setting : Setting) (limit : Nat) (args : List Node)
    (site : Site) (scope : ScopeId) : Eval (List Value) :=
  evalEach (fun i arg => evaluate setting limit arg (site.child i) scope) 0
    args

/-- A call up to the point where its function is called: the function and
the values of the arguments. -/
def prepareCall (setting : Setting) (limit : Nat) (callee : Node)
    (args : List Node) (site : Site) (scope : ScopeId) :
    Eval (Value × List Value) := do
  let vs ← evalArgs setting limit args site scope
  let f ← resolveCallee callee scope
  Eval.record setting 3 fun _ => do
    return .call f.inspect (← traceValues vs)
  return (f, vs)

theorem evaluate_call (setting : Setting) (limit : Nat) (callee : Node)
    (args : List Node) (site : Site) (scope : ScopeId) :
    evaluate setting (limit + 1) (.call callee args) site scope = do
      let call ← prepareCall setting limit callee args site scope
      let v ← callValue setting limit call.1 call.2 scope
      Eval.record setting 3 fun _ => do
        return .leave call.1.inspect (← traceValue v)
      return v := by
  simp only [prepareCall, Step.bind_assoc, Step.pure_bind]
  rw [evaluate]
  refine congrArg _ (funext fun vs => congrArg _ (funext fun f => ?_))
  refine congrArg _ (funext fun _ => ?_)
  cases f with
  | function c =>
      simp only [callValue, enterFunction, runBody, Step.bind_assoc,
        Step.pure_bind]
  | _ => rfl

/-- Runs a statement of a program by its number. -/
def evalStatement (setting : Setting) (site : Site) (scope : ScopeId)
    (i : Nat) (statement : Node) : Eval Value :=
  runStatement setting scope ⟨site.child i, statement⟩

theorem runStatements_eq (setting : Setting) (site : Site) (scope : ScopeId)
    (statements : List Node) :
    runStatements setting site scope statements =
      evalLast (evalStatement setting site scope) 0 .nil statements := by
  unfold runStatements Tree.row
  generalize (0 : Nat) = index
  generalize Value.nil = last
  induction statements generalizing index last with
  | nil => rfl
  | cons statement rest ih =>
      rw [List.zipIdx_cons, List.map_cons, runTrees, evalLast]
      exact congrArg _ (funext fun v => ih (index + 1) v)

/-! ## Steps that leave the store alone -/

theorem Eval.nameOf_of_some {json : Json} {name : Name}
    (h : Name.ofJson? json = some name) (m : Machine) :
    Eval.nameOf json m = .done name m := by
  rw [Eval.nameOf, h]
  rfl

theorem Eval.nameOf_of_none {json : Json} (h : Name.ofJson? json = none)
    (m : Machine) :
    Eval.nameOf json m = .failed (.unhashable json.typeName) m := by
  rw [Eval.nameOf, h]
  rfl

/-- What comes behind a name runs in the state at hand. -/
theorem Eval.leaves_nameOf_bind {α : Type} {json : Json}
    {next : Name → Eval α} {m : Machine} {p : Machine → Prop} (hm : p m)
    (hnext : ∀ name, Name.ofJson? json = some name → (next name m).Leaves p) :
    ((Eval.nameOf json >>= next) m).Leaves p := by
  rw [Step.bind_apply]
  cases hjson : Name.ofJson? json with
  | none =>
      rw [Eval.nameOf_of_none hjson]
      exact hm
  | some name =>
      rw [Eval.nameOf_of_some hjson]
      exact hnext name hjson

/-- An event leaves everything but the trace as it is. -/
theorem Eval.leaves_record (setting : Setting) (required : Int)
    (event : Unit → Except Fault Event) (m : Machine) :
    (Eval.record setting required event m).Leaves fun m' =>
      m'.store = m.store := by
  unfold Eval.record
  split
  · rw [Outcome.leaves_iff, Step.bind_apply]
    cases event () with
    | error f => rfl
    | ok e =>
        simp only [Step.lift_ok, Step.modify_apply, Outcome.state]
        split <;> rfl
  · rfl

theorem Eval.record_of_ok (setting : Setting) (required : Int)
    {event : Unit → Except Fault Event} {e : Event}
    (hevent : event () = .ok e) (m : Machine) :
    ∃ m', Eval.record setting required event m = .done () m' ∧
      m'.store = m.store := by
  have hdone : ∃ m', Eval.record setting required event m = .done () m' := by
    unfold Eval.record
    split
    · rw [Step.bind_apply, hevent]
      exact ⟨_, rfl⟩
    · exact ⟨m, rfl⟩
  obtain ⟨m', hrecord⟩ := hdone
  exact ⟨m', hrecord,
    (Eval.leaves_record setting required event m).of_done hrecord⟩

theorem Eval.store_record_return {α : Type} (setting : Setting)
    (required : Int) (event : Unit → Except Fault Event) (a : α)
    (m : Machine) :
    ((do
      Eval.record setting required event
      return a : Eval α) m).state.store = m.store := by
  have h := Eval.leaves_record setting required event m
  rw [Step.bind_apply]
  cases hrecord : Eval.record setting required event m <;>
    rw [hrecord] at h <;> exact h

theorem Eval.leaves_readLine (m : Machine) :
    (Eval.readLine m).Leaves fun m' => m'.store = m.store := by
  unfold Eval.readLine
  cases Text.readLine? m.input <;> rfl

theorem leaves_putLines (values : List Value) (m : Machine) :
    (putLines values m).Leaves fun m' => m'.store = m.store := by
  induction values generalizing m with
  | nil => rfl
  | cons v rest ih =>
      unfold putLines
      cases v.display? with
      | none => rfl
      | some text => exact ih { m with output := m.output ++ text ++ "\n" }

theorem leaves_callHost (setting : Setting) (builtin : Builtin)
    (index : Nat) (args : List Value) (m : Machine) :
    (callHost setting builtin index args m).Leaves fun m' =>
      m'.store = m.store := by
  unfold callHost
  simp only [Step.bind_apply, Step.get_apply, Step.modify_apply]
  cases setting.host[index]? with
  | none => rfl
  | some function =>
      dsimp only
      cases function m.hostCalls args <;> rfl

/-- A function from outside the language does not touch the scopes. -/
theorem leaves_callBuiltin (setting : Setting) (builtin : Builtin)
    (args : List Value) (m : Machine) :
    (callBuiltin setting builtin args m).Leaves fun m' =>
      m'.store = m.store := by
  have hperform : (callBuiltin.perform setting builtin args m).Leaves
      fun m' => m'.store = m.store := by
    unfold callBuiltin.perform
    cases builtin.action with
    | puts =>
        refine Step.ensures_bind (leaves_putLines args m) fun error m₁ h₁ => ?_
        cases error <;> exact h₁
    | gets =>
        refine Step.ensures_bind (Eval.leaves_readLine m) fun line m₁ h₁ => ?_
        cases line <;> exact h₁
    | host index => exact leaves_callHost setting builtin index args m
  unfold callBuiltin
  cases builtin.arity with
  | none => exact hperform
  | some arity =>
      dsimp only
      split
      · exact hperform
      · rfl

/-- Printing prints, or comes to a number that cannot be shown. -/
theorem ensures_putLines (vs : List Value) (m : Machine) :
    (putLines vs m).Ensures (fun _ _ => True) fun _ _ => False := by
  induction vs generalizing m with
  | nil => trivial
  | cons v rest ih =>
      unfold putLines
      cases v.display? with
      | none => trivial
      | some text => exact ih { m with output := m.output ++ text ++ "\n" }

/-- Without functions of the host, what comes from outside the language is
no function, and it fails at once or not at all. -/
theorem ensures_callBuiltin {setting : Setting} (hhost : setting.host = [])
    (b : Builtin) (vs : List Value) (m : Machine) :
    (callBuiltin setting b vs m).Ensures (fun v _ => ∀ c, v ≠ .function c)
      fun f _ => f ≠ .tooDeep := by
  have hperform : (callBuiltin.perform setting b vs m).Ensures
      (fun v _ => ∀ c, v ≠ .function c) fun f _ => f ≠ .tooDeep := by
    unfold callBuiltin.perform
    cases b.action with
    | puts =>
        refine Step.ensures_bind ((ensures_putLines vs m).imp
          (fun _ _ => id) fun _ _ => False.elim) fun error m₁ _ => ?_
        cases error with
        | none => exact fun _ => Value.noConfusion
        | some error => exact Fault.noConfusion
    | gets =>
        simp only [Step.bind_apply, Eval.readLine]
        cases Text.readLine? m.input <;> exact fun _ => Value.noConfusion
    | host index =>
        unfold callHost
        rw [hhost]
        exact fun _ => Value.noConfusion
  unfold callBuiltin
  cases b.arity with
  | none => exact hperform
  | some arity =>
      dsimp only
      split
      · exact hperform
      · exact Fault.noConfusion

/-- Looking a callee up changes nothing. -/
theorem leaves_resolveCallee (callee : Node) (scope : ScopeId)
    (m : Machine) :
    (resolveCallee callee scope m).Leaves fun m' => m' = m := by
  unfold resolveCallee
  split
  · refine Eval.leaves_nameOf_bind rfl fun name _ => ?_
    rw [Step.bind_apply, Step.get_apply]
    dsimp only
    split <;> rfl
  · rfl

end Scriptlet
