import Scriptlet.Proofs.Tracing

/-!
# The course of an evaluation

An evaluation first evaluates its operands. What it does with their values
depends on the form of the node (`Node.finish`), but only a call goes on to
evaluate something else, the statements of the function that it calls. So
there are three courses that an evaluation can take (`Visit.Course`): it stops
at an operand, it calls nothing, or it calls a value.

Between the evaluations little happens. Nothing is read but by the function
that reads a line, and no call or return is traced but at the begin and the
end of a call; all the rest is quiet (`Quietly`).
-/

namespace Scriptlet

/-! ## Quiet actions -/

/-- How the second state follows the first: nothing was read, and no call or
return was traced. -/
structure Machine.Quiet (m m' : Machine) : Prop where
  input : m'.input = m.input
  tracing : m'.tracing = m.tracing
  trace : ∃ events : List Event,
    m'.trace.toList = m.trace.toList ++ events ∧ ∀ e ∈ events, e.level < 3

namespace Machine.Quiet

theorem of_trace_eq {m m' : Machine} (hinput : m'.input = m.input)
    (htracing : m'.tracing = m.tracing) (htrace : m'.trace = m.trace) :
    m.Quiet m' :=
  ⟨hinput, htracing, [], by simp [htrace], by simp⟩

theorem refl (m : Machine) : m.Quiet m := of_trace_eq rfl rfl rfl

theorem trans {m₁ m₂ m₃ : Machine} (h : m₁.Quiet m₂) (h' : m₂.Quiet m₃) :
    m₁.Quiet m₃ := by
  obtain ⟨events, htrace, hevents⟩ := h.trace
  obtain ⟨events', htrace', hevents'⟩ := h'.trace
  refine ⟨h'.input.trans h.input, h'.tracing.trans h.tracing,
    events ++ events', ?_, ?_⟩
  · rw [htrace', htrace, List.append_assoc]
  · intro e he
    rcases List.mem_append.mp he with he | he
    · exact hevents e he
    · exact hevents' e he

theorem logged {e : Event} (he : e.level < 3) (m : Machine) :
    m.Quiet (m.logged e) :=
  ⟨rfl, rfl, [e], by simp [Machine.logged], by simpa using he⟩

end Machine.Quiet

/-- From every state the action ends in one that follows quietly. -/
def Quietly {α : Type} (action : Eval α) : Prop :=
  ∀ m, (action m).Leaves m.Quiet

namespace Quietly

variable {α β : Type}

theorem pure (a : α) : Quietly (Pure.pure a) := fun m => .refl m

theorem fail (f : Fault) : Quietly (Step.fail f : Eval α) := fun m => .refl m

theorem lift (result : Except Fault α) : Quietly (Step.lift result) :=
  fun m => Step.leaves_lift (.refl m)

theorem get : Quietly Step.get := fun m => .refl m

theorem bind {action : Eval α} {next : α → Eval β} (h : Quietly action)
    (hnext : ∀ a, Quietly (next a)) : Quietly (action >>= next) := by
  intro m
  rw [Step.bind_apply]
  cases haction : action m with
  | done a m₁ =>
      exact (hnext a m₁).imp fun m₂ => ((h m).of_done haction).trans
  | failed f m₁ =>
      have hm := h m
      rw [haction] at hm
      exact hm

theorem nameOf (json : Json) : Quietly (Eval.nameOf json) := by
  unfold Eval.nameOf
  cases Name.ofJson? json with
  | none => exact fail _
  | some name => exact pure name

theorem bindName (scope : ScopeId) (name : Name) (value : Value) :
    Quietly (Eval.bind scope name value) :=
  fun _ => .of_trace_eq rfl rfl rfl

theorem lookup (scope : ScopeId) (name : Name) :
    Quietly (Eval.lookup scope name) :=
  fun m => .refl m

theorem newScope (parent : ScopeId) : Quietly (Eval.newScope parent) :=
  fun _ => .of_trace_eq rfl rfl rfl

/-- An event of a lower level may be written. -/
theorem record (setting : Setting) (required : Int)
    {event : Unit → Except Fault Event}
    (h : ∀ e, event () = .ok e → e.level < 3) :
    Quietly (Eval.record setting required event) := by
  intro m
  by_cases hle : required ≤ setting.level
  · cases hevent : event () with
    | error f =>
        rw [Eval.record_of_error hle hevent]
        exact .refl m
    | ok e =>
        rw [Eval.record_of_le hle hevent]
        by_cases htracing : m.tracing = true
        · rw [if_pos htracing]
          exact .logged (h e hevent) m
        · rw [if_neg htracing]
          exact .refl m
  · rw [Eval.record_of_not_le hle]
    exact .refl m

end Quietly

theorem quietly_bindParams (scope : ScopeId) (params : List Json)
    (vs : List Value) : Quietly (bindParams scope params vs) := by
  induction params generalizing vs with
  | nil =>
      unfold bindParams
      exact .pure ()
  | cons param params ih =>
      cases vs with
      | nil => exact .pure ()
      | cons v vs =>
          exact .bind (.nameOf param) fun name =>
            .bind (.bindName scope name v) fun _ => ih vs

theorem quietly_enterFunction (setting : Setting) (c : Closure)
    (vs : List Value) (scope : ScopeId) :
    Quietly (enterFunction setting c vs scope) :=
  .bind (.newScope _) fun frame =>
    .bind (quietly_bindParams frame c.params vs) fun _ => .pure frame

theorem quietly_putLines (vs : List Value) : Quietly (putLines vs) := by
  induction vs with
  | nil => exact .pure none
  | cons v rest ih =>
      unfold putLines
      cases v.display? with
      | none => exact .pure _
      | some text =>
          refine .bind (fun m => ?_) fun _ => ih
          exact .of_trace_eq rfl rfl rfl

theorem quietly_callHost (setting : Setting) (b : Builtin) (index : Nat)
    (vs : List Value) : Quietly (callHost setting b index vs) := by
  refine .bind .get fun m₀ => .bind (fun m => .of_trace_eq rfl rfl rfl) ?_
  intro _
  cases setting.host[index]? with
  | none => exact .pure _
  | some function =>
      dsimp only
      cases function m₀.hostCalls vs with
      | value v => exact .pure v
      | raised _ _ | textFailed _ _ | outOfMemory _ => exact .fail _

/-- Of the functions from outside the language only one reads. -/
theorem quietly_callBuiltin (setting : Setting) {b : Builtin}
    (hgets : b.action ≠ .gets) (vs : List Value) :
    Quietly (callBuiltin setting b vs) := by
  have hperform : Quietly (callBuiltin.perform setting b vs) := by
    unfold callBuiltin.perform
    cases haction : b.action with
    | puts =>
        refine .bind (quietly_putLines vs) fun error => ?_
        cases error with
        | none => exact .pure _
        | some error => exact .fail _
    | gets => exact absurd haction hgets
    | host index => exact quietly_callHost setting b index vs
  unfold callBuiltin
  cases b.arity with
  | none => exact hperform
  | some arity =>
      dsimp only
      split
      · exact hperform
      · exact .fail _

/-- The function that reads fails at once, or it returns the next line or
nil. -/
theorem callBuiltin_gets (setting : Setting) {b : Builtin}
    (hgets : b.action = .gets) (vs : List Value) (m : Machine) :
    (∃ f, callBuiltin setting b vs m = .failed f m) ∨
    (Text.readLine? m.input = none ∧
      callBuiltin setting b vs m = .done .nil m) ∨
    ∃ line rest, Text.readLine? m.input = some (line, rest) ∧
      callBuiltin setting b vs m =
        .done (.string (String.ofList line)) { m with input := rest } := by
  have hperform : Text.readLine? m.input = none ∧
        callBuiltin.perform setting b vs m = .done .nil m ∨
      ∃ line rest, Text.readLine? m.input = some (line, rest) ∧
        callBuiltin.perform setting b vs m =
          .done (.string (String.ofList line)) { m with input := rest } := by
    simp only [callBuiltin.perform, hgets, Step.bind_apply, Eval.readLine]
    cases hline : Text.readLine? m.input with
    | none => exact Or.inl ⟨rfl, rfl⟩
    | some found => exact Or.inr ⟨found.1, found.2, rfl, rfl⟩
  unfold callBuiltin
  cases b.arity with
  | none => exact Or.inr hperform
  | some arity =>
      dsimp only
      split
      · exact Or.inr hperform
      · exact Or.inl ⟨_, rfl⟩

/-! ## Behind the operands -/

/-- What is done at a node with the values of its operands. -/
def Node.finish (setting : Setting) (limit : Nat) (site : Site)
    (scope : ScopeId) (vs : List Value) : Node → Eval Value
  | .number text => Step.lift (evalLiteral text)
  | .identifier json => do
    let name ← Eval.nameOf json
    Eval.lookup scope name
  | .binary operator _ _ =>
    Step.lift (applyOperator operator (vs.getD 0 .nil) (vs.getD 1 .nil))
  | .assign json _ => do
    let v := vs.getD 0 .nil
    let name ← Eval.nameOf json
    Eval.bind scope name v
    let depth := (← Step.get).store.depth scope
    Eval.record setting 2 fun _ => do
      return .assign json.display (← traceValue v) depth
    return v
  | .define json params body => do
    let f := Value.function ⟨json, params, body, scope, site⟩
    let name ← Eval.nameOf json
    Eval.bind scope name f
    Eval.record setting 2 fun _ => do
      return .define json.display (← traceParams 0 params)
    return f
  | .call callee _ => do
    let f ← resolveCallee callee scope
    Eval.record setting 3 fun _ => do
      return .call f.inspect (← traceValues vs)
    let v ← callValue setting limit f vs scope
    Eval.record setting 3 fun _ => do
      return .leave f.inspect (← traceValue v)
    return v
  | .sequence items =>
    Step.fail (.refused (.evaluation (Node.sequence items).form))

/-- Every evaluation evaluates its operands first. -/
theorem evaluate_eq (setting : Setting) (limit : Nat) (node : Node)
    (site : Site) (scope : ScopeId) :
    evaluate setting (limit + 1) node site scope =
      (evalArgs setting limit node.operands site scope >>= fun vs =>
        node.finish setting limit site scope vs) := by
  cases node with
  | call callee args =>
      rw [evaluate_call, prepareCall]
      simp only [Step.bind_assoc, Step.pure_bind]
      rfl
  | binary operator left right =>
      simp only [evaluate, evalArgs, Node.operands, evalEach, Step.bind_assoc,
        Step.pure_bind, Node.finish]
      rfl
  | assign json value =>
      simp only [evaluate, evalArgs, Node.operands, evalEach, Step.bind_assoc,
        Step.pure_bind, Node.finish]
      rfl
  | _ => rfl

/-- A node that is no call is done with quietly. -/
theorem Node.quietly_finish (setting : Setting) (limit : Nat) (site : Site)
    (scope : ScopeId) (vs : List Value) {node : Node}
    (hcall : ∀ callee args, node ≠ .call callee args) :
    Quietly (node.finish setting limit site scope vs) := by
  cases node with
  | number text => exact .lift _
  | identifier json => exact .bind (.nameOf json) fun name => .lookup scope name
  | binary operator left right => exact .lift _
  | assign json value =>
      refine .bind (.nameOf json) fun name => .bind (.bindName scope name _) ?_
      refine fun _ => .bind .get fun m => .bind (.record setting 2 ?_) ?_
      · intro e he
        obtain ⟨text, -, he⟩ := eq_ok_of_bind he
        cases he
        exact Nat.lt_succ_self 2
      · exact fun _ => .pure _
  | define json params body =>
      refine .bind (.nameOf json) fun name => .bind (.bindName scope name _) ?_
      refine fun _ => .bind (.record setting 2 ?_) fun _ => .pure _
      intro e he
      obtain ⟨names, -, he⟩ := eq_ok_of_bind he
      cases he
      exact Nat.lt_succ_self 2
  | call callee args => exact absurd rfl (hcall callee args)
  | sequence items => exact .fail _

/-- The value of a row is the last one of its values. -/
theorem evalLast_eq (eval : Nat → Node → Eval Value) (index : Nat)
    (last : Value) (nodes : List Node) :
    evalLast eval index last nodes = (do
      let vs ← evalEach eval index nodes
      return vs.getLastD last) := by
  induction nodes generalizing index last with
  | nil => rfl
  | cons node rest ih =>
      rw [evalLast, evalEach, Step.bind_assoc]
      refine congrArg _ (funext fun v => ?_)
      rw [ih, Step.bind_assoc]
      refine congrArg _ (funext fun vs => ?_)
      rw [Step.pure_bind, List.getLastD_cons]

/-! ## Calls -/

/-- A call whose arguments have been evaluated and whose callee is known,
with the state from which it is called. -/
structure Call where
  callee : Value
  args : List Value
  machine : Machine

namespace Call

def begins (callee : Value) (args : List Value) (_ : Unit) :
    Except Fault Event := do
  return .call callee.inspect (← traceValues args)

def ends (callee value : Value) (_ : Unit) : Except Fault Event := do
  return .leave callee.inspect (← traceValue value)

def outcome (setting : Setting) (limit : Nat) (scope : ScopeId)
    (call : Call) : Outcome Fault Machine Value :=
  (do
    let v ← callValue setting limit call.callee call.args scope
    Eval.record setting 3 (ends call.callee v)
    return v : Eval Value) call.machine

/-- The evaluations of the statements of the function that is called. -/
def visits (setting : Setting) (limit : Nat) (scope : ScopeId)
    (call : Call) : List Visit :=
  match call.callee with
  | .function c =>
    match enterFunction setting c call.args scope call.machine with
    | .done frame m => nestedVisits setting limit c.site frame c.body m
    | .failed _ _ => []
  | _ => []

/-- What calling the value comes to. -/
inductive Course (setting : Setting) (limit : Nat) (scope : ScopeId)
    (call : Call) : Prop
  /-- Nothing is evaluated or read. -/
  | quiet : call.machine.Quiet
      (callValue setting limit call.callee call.args scope
        call.machine).state →
      (∀ b, call.callee = .builtin b → b.action ≠ .gets) →
      call.visits setting limit scope = [] → Course setting limit scope call
  /-- A line is read. -/
  | gets {b : Builtin} : call.callee = .builtin b → b.action = .gets →
      call.visits setting limit scope = [] → Course setting limit scope call
  /-- The statements of a function are evaluated. -/
  | body {c : Closure} (frame : ScopeId) {m : Machine} :
      call.callee = .function c → call.machine.Quiet m →
      callValue setting limit call.callee call.args scope call.machine =
        runBody setting limit c frame m →
      call.visits setting limit scope =
        nestedVisits setting limit c.site frame c.body m →
      Course setting limit scope call

theorem course (setting : Setting) (limit : Nat) (scope : ScopeId)
    (call : Call) : call.Course setting limit scope := by
  obtain ⟨callee, args, m⟩ := call
  cases callee with
  | function c =>
      have hquiet := quietly_enterFunction setting c args scope m
      cases henter : enterFunction setting c args scope m with
      | done frame m₁ =>
          refine .body frame rfl (hquiet.of_done henter) ?_ ?_
          · simp only [callValue, Step.bind_apply, henter]
          · simp only [visits, henter]
      | failed f m₁ =>
          rw [henter] at hquiet
          refine .quiet ?_ (fun b h => Value.noConfusion h) ?_
          · simp only [callValue, Step.bind_apply, henter]
            exact hquiet
          · simp only [visits, henter]
  | builtin b =>
      by_cases hgets : b.action = .gets
      · exact .gets rfl hgets rfl
      · refine .quiet ?_ ?_ rfl
        · exact Outcome.leaves_iff.mp (quietly_callBuiltin setting hgets args m)
        · intro b' h
          cases h
          exact hgets
  | _ => exact .quiet (.refl m) (fun b h => Value.noConfusion h) rfl

end Call

namespace Visit

def operands (setting : Setting) (v : Visit) :
    Outcome Fault Machine (List Value) :=
  match v.limit with
  | 0 => .failed .tooDeep v.machine
  | limit + 1 =>
    evalArgs setting limit v.node.operands v.site v.scope v.machine

def call? (setting : Setting) (v : Visit) : Option Call :=
  match v.limit, v.node with
  | limit + 1, .call callee args =>
    match prepareCall setting limit callee args v.site v.scope v.machine with
    | .done (f, vs) m => some ⟨f, vs, m⟩
    | .failed _ _ => none
  | _, _ => none

/-- The evaluation comes to a call, from the state in which its arguments have
been evaluated. -/
structure Calls (setting : Setting) (v : Visit) (limit : Nat) (call : Call)
    (m : Machine) : Prop where
  operands : v.operands setting = .done call.args m
  begins : Eval.record setting 3 (Call.begins call.callee call.args) m =
    .done () call.machine
  call? : v.call? setting = some call
  outcome : v.outcome setting = call.outcome setting limit v.scope
  bodyParts : v.bodyParts setting = call.visits setting limit v.scope

/-- The courses that an evaluation can take. -/
inductive Course (setting : Setting) (v : Visit) : Prop
  /-- It ends with an operand that fails. -/
  | operand {f : Fault} {m : Machine} :
      v.operands setting = .failed f m → v.outcome setting = .failed f m →
      v.call? setting = none → v.bodyParts setting = [] → Course setting v
  /-- It has the operands, and it calls nothing. -/
  | uncalled {vs : List Value} {m : Machine} :
      v.operands setting = .done vs m →
      m.Quiet (v.outcome setting).state →
      v.call? setting = none → v.bodyParts setting = [] → Course setting v
  /-- It calls a value. -/
  | called {limit : Nat} {call : Call} {m : Machine} :
      v.Calls setting limit call m → Course setting v

theorem bodyVisits_of_failed {setting : Setting} {limit : Nat} {callee : Node}
    {args : List Node} {site : Site} {scope : ScopeId} {m m' : Machine}
    {f : Fault}
    (h : prepareCall setting limit callee args site scope m = .failed f m') :
    bodyVisits setting limit callee args site scope m = [] := by
  unfold bodyVisits enterCall
  rw [Step.bind_apply, h]

theorem bodyVisits_of_done {setting : Setting} {limit : Nat} {callee : Node}
    {args : List Node} {site : Site} {scope : ScopeId} {m m' : Machine}
    {f : Value} {vs : List Value}
    (h : prepareCall setting limit callee args site scope m =
      .done (f, vs) m') :
    bodyVisits setting limit callee args site scope m =
      Call.visits setting limit scope ⟨f, vs, m'⟩ := by
  unfold bodyVisits enterCall Call.visits
  rw [Step.bind_apply, h]
  cases f with
  | function c =>
      simp only [Step.bind_apply]
      cases enterFunction setting c vs scope m' <;> rfl
  | _ => rfl

/-- An event that cannot be put together is not written. -/
theorem state_of_record_failed {setting : Setting} {required : Int}
    {event : Unit → Except Fault Event} {m m' : Machine} {f : Fault}
    (h : Eval.record setting required event m = .failed f m') : m' = m := by
  by_cases hle : required ≤ setting.level
  · cases hevent : event () with
    | error f' =>
        rw [Eval.record_of_error hle hevent] at h
        cases h
        rfl
    | ok e =>
        rw [Eval.record_of_le hle hevent] at h
        cases h
  · rw [Eval.record_of_not_le hle] at h
    cases h

/-- A call that fails behind its arguments, before the function is called,
changes nothing. -/
theorem state_of_prepareCall_failed {setting : Setting} {limit : Nat}
    {callee : Node} {args : List Node} {site : Site} {scope : ScopeId}
    {m m₁ m₂ : Machine} {vs : List Value} {f : Fault}
    (hargs : evalArgs setting limit args site scope m = .done vs m₁)
    (h : prepareCall setting limit callee args site scope m = .failed f m₂) :
    m₂ = m₁ := by
  have hcallee := leaves_resolveCallee callee scope m₁
  rcases Step.bind_eq_failed_iff.mp h with hfailed | ⟨vs', m', hargs', hrest⟩
  · cases hargs.symm.trans hfailed
  · cases hargs.symm.trans hargs'
    rcases Step.bind_eq_failed_iff.mp hrest with hfailed | ⟨f', m₃, hf, hlast⟩
    · rw [hfailed] at hcallee
      exact hcallee
    · obtain rfl : m₃ = m₁ := hcallee.of_done hf
      rcases Step.bind_eq_failed_iff.mp hlast with hfailed | ⟨_, m₄, -, hdone⟩
      · exact state_of_record_failed hfailed
      · cases hdone

/-- A call that has its arguments comes to the function or fails before. -/
theorem course_of_call {setting : Setting} {limit : Nat} {callee : Node}
    {args : List Node} {site : Site} {scope : ScopeId} {m m₁ : Machine}
    {vs : List Value}
    (hargs : evalArgs setting limit args site scope m = .done vs m₁) :
    Course setting ⟨limit + 1, .call callee args, site, scope, m⟩ := by
  have houtcome : outcome setting ⟨limit + 1, .call callee args, site, scope, m⟩
      = _ := congrFun (evaluate_call setting limit callee args site scope) m
  rw [Step.bind_apply] at houtcome
  cases hprepare : prepareCall setting limit callee args site scope m with
  | failed f m₂ =>
      obtain rfl := state_of_prepareCall_failed hargs hprepare
      rw [hprepare] at houtcome
      refine .uncalled hargs ?_ ?_ (bodyVisits_of_failed hprepare)
      · rw [houtcome]
        exact .refl _
      · simp only [call?, hprepare]
  | done call m₂ =>
      obtain ⟨f, vs'⟩ := call
      rw [hprepare] at houtcome
      obtain ⟨vs'', m₃, hargs', hrest⟩ := Step.bind_eq_done_iff.mp hprepare
      cases hargs.symm.trans hargs'
      obtain ⟨f', m₄, hf, hlast⟩ := Step.bind_eq_done_iff.mp hrest
      -- Looking up the callee changes nothing, so the call begins in the
      -- state behind its arguments.
      obtain rfl : m₄ = m₁ := (leaves_resolveCallee callee scope m₁).of_done hf
      obtain ⟨_, m₅, hrecord, hdone⟩ := Step.bind_eq_done_iff.mp hlast
      cases hdone
      have hcalls : Calls setting
          ⟨limit + 1, .call callee args, site, scope, m⟩ limit ⟨f, vs, m₂⟩
          m₄ := by
        refine ⟨hargs, hrecord, ?_, houtcome, bodyVisits_of_done hprepare⟩
        simp only [call?, hprepare]
      exact .called hcalls

theorem course (setting : Setting) (v : Visit) : v.Course setting := by
  obtain ⟨limit, node, site, scope, m⟩ := v
  cases limit with
  | zero => exact .operand rfl rfl rfl rfl
  | succ limit =>
      have houtcome : outcome setting ⟨limit + 1, node, site, scope, m⟩ = _ :=
        congrFun (evaluate_eq setting limit node site scope) m
      rw [Step.bind_apply] at houtcome
      cases hargs : evalArgs setting limit node.operands site scope m with
      | failed f m₁ =>
          rw [hargs] at houtcome
          cases node with
          | call callee args =>
              have hprepare : prepareCall setting limit callee args site scope
                  m = .failed f m₁ := by
                rw [prepareCall, Step.bind_apply, show evalArgs setting limit
                  args site scope m = _ from hargs]
              refine .operand hargs houtcome ?_ (bodyVisits_of_failed hprepare)
              simp only [call?, hprepare]
          | _ => exact .operand hargs houtcome rfl rfl
      | done vs m₁ =>
          rw [hargs] at houtcome
          cases node with
          | call callee args => exact course_of_call hargs
          | _ =>
              refine .uncalled hargs ?_ rfl rfl
              rw [houtcome]
              refine Outcome.leaves_iff.mp (Node.quietly_finish setting limit
                site scope vs ?_ m₁)
              exact fun _ _ h => Node.noConfusion h

end Visit

end Scriptlet
