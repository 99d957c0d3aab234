import Scriptlet.Proofs.Deeds

/-!
# Calls in a full trace

In a full trace a call is written when its arguments have been evaluated and
its callee is known, and a return when the called function has returned. What
an evaluation writes is therefore balanced like brackets if it returns a value
(`Balanced`). If it fails, some calls stay open: those that had begun and do
not return (`Visit.unfinished`), the outermost first, since a failure leaves all
evaluations that it is within (`call_traces_are_bracketed`).
-/

namespace Scriptlet

/-! ## Brackets -/

def brackets (events : List Event) : List Event :=
  events.filter fun e => decide (3 ≤ e.level)

/-- Each call is closed by a return from the same callee. -/
inductive Balanced : List Event → Prop
  | nil : Balanced []
  | call {callee value : String} {args : List String}
      {inner rest : List Event} : Balanced inner → Balanced rest →
      Balanced (.call callee args :: (inner ++ .leave callee value :: rest))

/-- The begin of a balanced row, in which these calls are not closed yet,
from the outermost on. -/
inductive Unclosed : List Event → List Event → Prop
  | nil {events : List Event} : Balanced events → Unclosed [] events
  | call {callee : String} {args : List String}
      {calls events rest : List Event} : Balanced events →
      Unclosed calls rest →
      Unclosed (.call callee args :: calls)
        (events ++ .call callee args :: rest)

theorem Balanced.append {first second : List Event} (h : Balanced first)
    (h' : Balanced second) : Balanced (first ++ second) := by
  induction h with
  | nil => exact h'
  | @call callee value args inner rest hinner _ _ ih =>
      rw [List.cons_append, List.append_assoc, List.cons_append]
      exact .call hinner ih

/-- What comes behind a balanced row decides which calls are open. -/
theorem Balanced.append_unclosed {calls first second : List Event}
    (h : Balanced first) (h' : Unclosed calls second) :
    Unclosed calls (first ++ second) := by
  cases h' with
  | nil hsecond => exact .nil (h.append hsecond)
  | call hevents hrest =>
      rw [← List.append_assoc]
      exact .call (h.append hevents) hrest

theorem Unclosed.balanced {events : List Event} (h : Unclosed [] events) :
    Balanced events := by
  cases h with
  | nil h => exact h

/-- There are returns that close the open calls. -/
theorem Unclosed.exists_closing {calls events : List Event}
    (h : Unclosed calls events) :
    ∃ closing, Balanced (events ++ closing) := by
  induction h with
  | @nil events h =>
      refine ⟨[], ?_⟩
      rw [List.append_nil]
      exact h
  | @call callee args calls events rest hevents _ ih =>
      obtain ⟨closing, hrest⟩ := ih
      refine ⟨closing ++ [.leave callee ""], ?_⟩
      have hcall : Balanced (.call callee args ::
          (rest ++ closing ++ .leave callee "" :: [])) := .call hrest .nil
      simpa [List.append_assoc] using hevents.append hcall

/-- The calls that are open behind events, the innermost first, when these
were open before. -/
def openBehind : List Event → List Event → List Event
  | calls, [] => calls
  | calls, .call callee args :: rest =>
    openBehind (.call callee args :: calls) rest
  | calls, .leave _ _ :: rest => openBehind calls.tail rest
  | calls, _ :: rest => openBehind calls rest

theorem Balanced.openBehind_append {events : List Event}
    (h : Balanced events) (calls rest : List Event) :
    openBehind calls (events ++ rest) = openBehind calls rest := by
  induction h generalizing calls rest with
  | nil => rfl
  | call _ _ ihinner ihrest =>
      rw [List.cons_append, List.append_assoc, openBehind, ihinner,
        List.cons_append, openBehind, List.tail_cons, ihrest]

theorem Unclosed.openBehind_eq {calls events : List Event}
    (h : Unclosed calls events) (before : List Event) :
    openBehind before events = calls.reverse ++ before := by
  induction h generalizing before with
  | @nil events h =>
      have hopen := h.openBehind_append before []
      rw [List.append_nil] at hopen
      exact hopen
  | call hevents _ ih =>
      rw [hevents.openBehind_append, openBehind, ih, List.reverse_cons,
        List.append_assoc]
      rfl

/-- Which calls are not closed is determined. -/
theorem Unclosed.unique {calls calls' events : List Event}
    (h : Unclosed calls events) (h' : Unclosed calls' events) :
    calls = calls' := by
  have heq := (h.openBehind_eq []).symm.trans (h'.openBehind_eq [])
  rw [List.append_nil, List.append_nil] at heq
  exact List.reverse_injective heq

/-! ## What is traced between two states -/

/-- The calls and returns that were traced from the first state to the second
leave these calls open. -/
def Machine.Traces (m m' : Machine) (calls : List Event) : Prop :=
  ∃ events, m'.trace.toList = m.trace.toList ++ events ∧
    Unclosed calls (brackets events)

namespace Machine.Traces

variable {m m₁ m' : Machine} {calls : List Event} {callee value : String}
  {args : List String}

theorem trans (h : m.Traces m₁ []) (h' : m₁.Traces m' calls) :
    m.Traces m' calls := by
  obtain ⟨events, htrace, hopen⟩ := h
  obtain ⟨events', htrace', hopen'⟩ := h'
  refine ⟨events ++ events', ?_, ?_⟩
  · rw [htrace', htrace, List.append_assoc]
  · rw [brackets, List.filter_append]
    exact hopen.balanced.append_unclosed hopen'

theorem of_quiet (h : m.Quiet m') : m.Traces m' [] := by
  obtain ⟨events, htrace, hevents⟩ := h.trace
  refine ⟨events, htrace, ?_⟩
  have hnone : brackets events = [] := by
    refine List.filter_eq_nil_iff.mpr fun e he => ?_
    have := hevents e he
    simp
    omega
  rw [hnone]
  exact .nil .nil

theorem refl (m : Machine) : m.Traces m [] := of_quiet (.refl m)

/-- A call that stays open. -/
theorem call (h : (m.logged (.call callee args)).Traces m' calls) :
    m.Traces m' (.call callee args :: calls) := by
  obtain ⟨events, htrace, hopen⟩ := h
  refine ⟨.call callee args :: events, ?_, ?_⟩
  · rw [htrace]
    simp [logged]
  · exact .call .nil hopen

/-- A call that is closed. -/
theorem leave (h : (m.logged (.call callee args)).Traces m' []) :
    m.Traces (m'.logged (.leave callee value)) [] := by
  obtain ⟨events, htrace, hopen⟩ := h
  refine ⟨.call callee args :: (events ++ [.leave callee value]), ?_, ?_⟩
  · simp [logged, htrace]
  · have hcall : Balanced (.call callee args ::
        (brackets events ++ .leave callee value :: [])) :=
      .call hopen.balanced .nil
    simpa [brackets, Event.level] using Unclosed.nil hcall

end Machine.Traces

/-! ## Calls that do not return -/

namespace Visit

/-- The evaluations within an evaluation, itself included, in the order in
which they begin. -/
def all (setting : Setting) (v : Visit) : List Visit :=
  v.within setting v.limit

theorem all_eq (setting : Setting) (v : Visit) :
    v.all setting = v :: (v.parts setting).flatMap (all setting) := by
  obtain ⟨limit, node, site, scope, m⟩ := v
  cases limit with
  | zero => rfl
  | succ limit =>
      unfold all
      rw [within]
      congr 1
      refine List.flatMap_congr fun x hx => ?_
      rw [Nat.succ.inj (limit_of_mem_parts hx)]

theorem mem_all {setting : Setting} {v b : Visit} :
    b ∈ v.all setting ↔ Visits setting v b := by
  refine ⟨fun h => ?_, fun h => h.mem_within (Nat.le_refl v.limit)⟩
  induction v using Visit.induction setting with
  | h v ih =>
      rw [all_eq] at h
      rcases List.mem_cons.mp h with rfl | h
      · exact .refl b
      · obtain ⟨x, hx, hb⟩ := List.mem_flatMap.mp h
        exact .part hx (ih x hx hb)

def isUnfinished (setting : Setting) (v : Visit) : Bool :=
  (v.call? setting).isSome && !(v.outcome setting).result.isOk

/-- The calls within an evaluation that have begun and do not return, in the
order in which they began. -/
def unfinished (setting : Setting) (v : Visit) : List Visit :=
  (v.all setting).filter (isUnfinished setting)

def callEvent? (setting : Setting) (v : Visit) : Option Event :=
  (v.call? setting).bind fun call =>
    (Call.begins call.callee call.args ()).toOption

theorem unfinished_eq (setting : Setting) (v : Visit) :
    v.unfinished setting =
      (if v.isUnfinished setting then [v] else []) ++
        ((v.operandParts setting).flatMap (unfinished setting) ++
          (v.bodyParts setting).flatMap (unfinished setting)) := by
  have hparts : ∀ visits : List Visit,
      (visits.flatMap (all setting)).filter (isUnfinished setting) =
        visits.flatMap (unfinished setting) := fun visits =>
    List.filter_flatMap
  unfold unfinished
  rw [all_eq, List.filter_cons, hparts, parts_eq, List.flatMap_append]
  split <;> rfl

theorem isUnfinished_of_call?_none {setting : Setting} {v : Visit}
    (h : v.call? setting = none) : v.isUnfinished setting = false := by
  simp [isUnfinished, h]

end Visit

/-! ## Tracing goes on -/

section

variable {setting : Setting} {limit : Nat}

theorem Mirrored.tracing {α : Type} {level : Int} {part full : Eval α}
    (h : Mirrored level part full) {m : Machine} (hm : m.tracing = true) :
    (full m).state.tracing = true := by
  have hfull := h m hm
  cases hrun : full m <;> rw [hrun] at hfull <;> exact hfull.1

theorem Setting.atLevel_fullLevel (hlevel : setting.level = fullLevel) :
    setting.atLevel fullLevel = setting := by
  rw [← hlevel]
  rfl

theorem tracing_evaluate (limit : Nat) (hlevel : setting.level = fullLevel)
    (node : Node) (site : Site) (scope : ScopeId) {m : Machine}
    (hm : m.tracing = true) :
    (evaluate setting limit node site scope m).state.tracing = true := by
  have h := mirroredLaw setting fullLevel limit node site scope
  rw [Setting.atLevel_fullLevel hlevel] at h
  exact h.tracing hm

theorem Visit.tracing_operands (hlevel : setting.level = fullLevel)
    {v : Visit} (hv : v.machine.tracing = true) :
    (v.operands setting).state.tracing = true := by
  obtain ⟨limit, node, site, scope, m⟩ := v
  cases limit with
  | zero => exact hv
  | succ limit =>
      have h := Mirrored.evalEach (fun i node =>
        mirroredLaw setting fullLevel limit node (site.child i) scope) 0
        node.operands
      rw [Setting.atLevel_fullLevel hlevel] at h
      exact h.tracing hv

theorem tracing_callValue (limit : Nat) (hlevel : setting.level = fullLevel)
    (f : Value) (vs : List Value) (scope : ScopeId) {m : Machine}
    (hm : m.tracing = true) :
    (callValue setting limit f vs scope m).state.tracing = true := by
  have h := callValue_mirrored (mirroredLaw setting fullLevel limit) f vs
    scope
  rw [Setting.atLevel_fullLevel hlevel] at h
  exact h.tracing hm

theorem tracing_of_mem_rowVisits {eval : Nat → Node → Eval Value}
    {site : Site} {scope : ScopeId}
    (heval : ∀ i node m, m.tracing = true →
      (eval i node m).state.tracing = true)
    {index : Nat} {nodes : List Node} {m : Machine} (hm : m.tracing = true)
    {x : Visit} (hx : x ∈ rowVisits eval limit site scope index nodes m) :
    x.machine.tracing = true := by
  induction nodes generalizing index m with
  | nil => exact absurd hx List.not_mem_nil
  | cons node rest ih =>
      unfold rowVisits at hx
      have hnext := heval index node m hm
      rcases List.mem_cons.mp hx with rfl | hx
      · exact hm
      · cases hnode : eval index node m with
        | done v m₁ =>
            rw [hnode] at hx hnext
            exact ih hnext hx
        | failed f m₁ =>
            rw [hnode] at hx
            exact absurd hx List.not_mem_nil

theorem three_le_level (hlevel : setting.level = fullLevel) :
    3 ≤ setting.level := by
  rw [hlevel]
  exact Int.le_refl 3

/-- An event is written. -/
theorem record_traced (hlevel : setting.level = fullLevel)
    {event : Unit → Except Fault Event} {e : Event} (hevent : event () = .ok e)
    {m : Machine} (hm : m.tracing = true) :
    Eval.record setting 3 event m = .done () (m.logged e) := by
  rw [Eval.record_of_le (three_le_level hlevel) hevent, if_pos hm]

/-- The event that a call began with. -/
theorem of_record_begins (hlevel : setting.level = fullLevel) {f : Value}
    {vs : List Value} {m m' : Machine} (hm : m.tracing = true)
    (h : Eval.record setting 3 (Call.begins f vs) m = .done () m') :
    ∃ args, Call.begins f vs () = .ok (.call f.inspect args) ∧
      m' = m.logged (.call f.inspect args) := by
  cases hargs : traceValues vs with
  | ok args =>
      have hevent : Call.begins f vs () = .ok (.call f.inspect args) := by
        rw [Call.begins, hargs]
        rfl
      rw [record_traced hlevel hevent hm] at h
      cases h
      exact ⟨args, hevent, rfl⟩
  | error fault =>
      have hevent : Call.begins f vs () = .error fault := by
        rw [Call.begins, hargs]
        rfl
      rw [Eval.record_of_error (three_le_level hlevel) hevent] at h
      cases h

theorem tracing_of_mem_parts (hlevel : setting.level = fullLevel)
    {v x : Visit} (hv : v.machine.tracing = true)
    (hx : x ∈ v.parts setting) : x.machine.tracing = true := by
  have hnested : ∀ {limit site scope nodes m}, m.tracing = true →
      x ∈ nestedVisits setting limit site scope nodes m →
      x.machine.tracing = true := fun hm hx =>
    tracing_of_mem_rowVisits (fun i node m hm =>
      tracing_evaluate _ hlevel node _ _ hm) hm hx
  obtain ⟨limit, node, site, scope, m⟩ := v
  cases limit with
  | zero => exact absurd hx List.not_mem_nil
  | succ limit =>
      rcases List.mem_append.mp hx with hx | hx
      · exact hnested hv hx
      · cases node with
        | call callee args =>
            obtain ⟨c, frame, m', henter, hx⟩ := mem_bodyVisits hx
            refine hnested ?_ hx
            obtain ⟨⟨f, vs⟩, m₁, hprepare, hrest⟩ :=
              Step.bind_eq_done_iff.mp henter
            have hm₁ := prepareCall_mirrored
              (mirroredLaw setting fullLevel limit) callee args site scope
            rw [Setting.atLevel_fullLevel hlevel] at hm₁
            have htracing := hm₁.tracing hv
            rw [hprepare] at htracing
            cases f with
            | function closure =>
                obtain ⟨id, m₂, hframe, hdone⟩ :=
                  Step.bind_eq_done_iff.mp hrest
                cases hdone
                exact ((quietly_enterFunction setting c vs scope
                  m₁).of_done hframe).tracing.trans htracing
            | _ => cases hrest
        | _ => exact absurd hx List.not_mem_nil

theorem Visits.tracing (hlevel : setting.level = fullLevel) {v b : Visit}
    (h : Visits setting v b) (hv : v.machine.tracing = true) :
    b.machine.tracing = true := by
  induction h with
  | refl v => exact hv
  | part hx _ ih => exact ih (tracing_of_mem_parts hlevel hv hx)

end

/-! ## The brackets of an evaluation -/

/-- Between the state and the outcome the calls `pending` have begun and have
not returned, and these are the ones that the trace leaves open. -/
structure Brackets {α : Type} (setting : Setting) (m : Machine)
    (o : Outcome Fault Machine α) (pending : List Visit) : Prop where
  finished : o.result.isOk = true → pending = []
  traces : m.tracing = true → ∃ calls,
    pending.map (Visit.callEvent? setting) = calls.map some ∧
      m.Traces o.state calls

namespace Brackets

variable {α β : Type} {setting : Setting} {m m₁ : Machine}
  {o : Outcome Fault Machine α} {step : Eval α} {next : α → Eval β}
  {pending pending' : List Visit}

theorem of_traces (h : m.Traces o.state []) : Brackets setting m o [] :=
  ⟨fun _ => rfl, fun _ => ⟨[], rfl, h⟩⟩

/-- Nothing is open when a value is returned. -/
theorem traces_of_done {a : α} (h : Brackets setting m o pending)
    (hdone : o = .done a m₁) (hm : m.tracing = true) : m.Traces m₁ [] := by
  subst hdone
  obtain ⟨calls, hcalls, htraces⟩ := h.traces hm
  rw [h.finished rfl, List.map_nil] at hcalls
  rw [List.map_eq_nil_iff.mp hcalls.symm] at htraces
  exact htraces

/-- What comes before is closed. -/
theorem behind (htraces : m.tracing = true → m.Traces m₁ [])
    (htracing : m.tracing = true → m₁.tracing = true)
    (h : Brackets setting m₁ o pending) : Brackets setting m o pending := by
  refine ⟨h.finished, fun hm => ?_⟩
  obtain ⟨calls, hcalls, hrest⟩ := h.traces (htracing hm)
  exact ⟨calls, hcalls, (htraces hm).trans hrest⟩

theorem bind_of_failed {f : Fault} (h : Brackets setting m (step m) pending)
    (hstep : step m = .failed f m₁) :
    Brackets setting m ((step >>= next) m) pending := by
  rw [hstep] at h
  rw [Step.bind_apply, hstep]
  exact ⟨h.finished, h.traces⟩

theorem bind_of_done {a : α} (h : Brackets setting m (step m) pending)
    (hstep : step m = .done a m₁)
    (htracing : m.tracing = true → m₁.tracing = true)
    (hnext : Brackets setting m₁ (next a m₁) pending') :
    Brackets setting m ((step >>= next) m) pending' := by
  rw [Step.bind_apply, hstep]
  exact hnext.behind (h.traces_of_done hstep) htracing

/-- It does not matter what is made of the value. -/
theorem bind_pure (h : Brackets setting m (step m) pending) (g : α → β) :
    Brackets setting m ((step >>= fun a => pure (g a)) m) pending := by
  rw [Step.bind_apply]
  cases hstep : step m <;> rw [hstep] at h <;> exact ⟨h.finished, h.traces⟩

end Brackets

section

variable {setting : Setting} {limit : Nat} {site : Site} {scope : ScopeId}

/-- What an evaluation leaves open is what it has begun. -/
def Visit.Bracketed (setting : Setting) (v : Visit) : Prop :=
  Brackets setting v.machine (v.outcome setting) (v.unfinished setting)

/-- A row leaves open what its last evaluation leaves open. -/
theorem brackets_row (hlevel : setting.level = fullLevel)
    {eval : Nat → Node → Eval Value}
    (heval : ∀ i node, eval i node =
      evaluate setting limit node (site.child i) scope)
    {index : Nat} {nodes : List Node} {m : Machine}
    (h : ∀ x ∈ rowVisits eval limit site scope index nodes m,
      x.Bracketed setting) :
    Brackets setting m (evalEach eval index nodes m)
      ((rowVisits eval limit site scope index nodes m).flatMap
        (Visit.unfinished setting)) := by
  induction nodes generalizing index m with
  | nil => exact .of_traces (.refl m)
  | cons node rest ih =>
      unfold rowVisits at h ⊢
      obtain ⟨hhead, htail⟩ := List.forall_mem_cons.mp h
      have hbrackets : Brackets setting m (eval index node m)
          (Visit.unfinished setting
            ⟨limit, node, site.child index, scope, m⟩) := by
        rw [heval]
        exact hhead
      rw [List.flatMap_cons, evalEach]
      cases hnode : eval index node m with
      | done v m₁ =>
          rw [hnode] at htail hbrackets
          rw [hbrackets.finished rfl, List.nil_append]
          rw [← hnode] at hbrackets
          refine hbrackets.bind_of_done hnode (fun hm => ?_)
            ((ih htail).bind_pure (v :: ·))
          have htracing := tracing_evaluate limit hlevel node
            (site.child index) scope hm
          rw [← heval, hnode] at htracing
          exact htracing
      | failed f m₁ =>
          rw [List.flatMap_nil, List.append_nil]
          exact hbrackets.bind_of_failed hnode

theorem brackets_operands (hlevel : setting.level = fullLevel) (v : Visit)
    (h : ∀ x ∈ v.operandParts setting, x.Bracketed setting) :
    Brackets setting v.machine (v.operands setting)
      ((v.operandParts setting).flatMap (Visit.unfinished setting)) := by
  obtain ⟨limit, node, site, scope, m⟩ := v
  cases limit with
  | zero => exact .of_traces (.refl m)
  | succ limit => exact brackets_row hlevel (fun _ _ => rfl) h

/-- The called value leaves open what its statements leave open. -/
theorem Call.brackets_value (hlevel : setting.level = fullLevel)
    {call : Call}
    (h : ∀ x ∈ call.visits setting limit scope, x.Bracketed setting) :
    Brackets setting call.machine
      (callValue setting limit call.callee call.args scope call.machine)
      ((call.visits setting limit scope).flatMap
        (Visit.unfinished setting)) := by
  cases call.course setting limit scope with
  | quiet hquiet hother hvisits =>
      rw [hvisits]
      exact .of_traces (.of_quiet hquiet)
  | @gets b hcallee hgets hvisits =>
      have htrace : (callBuiltin setting b call.args
          call.machine).state.trace = call.machine.trace := by
        rcases callBuiltin_gets setting hgets call.args call.machine with
          ⟨f, h⟩ | ⟨-, h⟩ | ⟨line, rest, -, h⟩ <;> rw [h] <;> rfl
      rw [hvisits, hcallee]
      refine .of_traces ⟨[], ?_, .nil .nil⟩
      rw [List.append_nil]
      exact congrArg _ htrace
  | @body c frame m hcallee hquiet hvalue hvisits =>
      rw [hvisits] at h ⊢
      have hrow := (brackets_row hlevel (fun _ _ => rfl) h).bind_pure
        (List.getLastD · .nil)
      rw [hvalue, runBody, evalLast_eq]
      exact hrow.behind (fun _ => .of_quiet hquiet) hquiet.tracing.trans

/-- A call ends with the called value, or with its return. -/
theorem Call.outcome_cases (hlevel : setting.level = fullLevel)
    (call : Call) :
    (∃ f, call.outcome setting limit scope = .failed f
      (callValue setting limit call.callee call.args scope
        call.machine).state) ∨
    ∃ r m text,
      callValue setting limit call.callee call.args scope call.machine =
        .done r m ∧
      call.outcome setting limit scope = .done r
        (if m.tracing then m.logged (.leave call.callee.inspect text)
          else m) := by
  unfold Call.outcome
  rw [Step.bind_apply]
  cases hrun : callValue setting limit call.callee call.args scope
    call.machine with
  | failed f m => exact Or.inl ⟨f, rfl⟩
  | done r m =>
      cases htext : traceValue r with
      | error f =>
          have hevent : Call.ends call.callee r () = .error f := by
            rw [Call.ends, htext]
            rfl
          refine Or.inl ⟨f, ?_⟩
          simp only [Step.bind_apply,
            Eval.record_of_error (three_le_level hlevel) hevent]
          rfl
      | ok text =>
          have hevent : Call.ends call.callee r () =
              .ok (.leave call.callee.inspect text) := by
            rw [Call.ends, htext]
            rfl
          refine Or.inr ⟨r, m, text, rfl, ?_⟩
          simp only [Step.bind_apply,
            Eval.record_of_le (three_le_level hlevel) hevent]
          rfl

namespace Visit.Calls

variable {v : Visit} {call : Call} {m : Machine} {pending : List Visit}

/-- The begin of a call is traced. -/
theorem begun (h : v.Calls setting limit call m)
    (hlevel : setting.level = fullLevel) (hv : v.machine.tracing = true) :
    call.machine.tracing = true ∧ ∃ args,
      v.callEvent? setting = some (.call call.callee.inspect args) ∧
      call.machine = m.logged (.call call.callee.inspect args) := by
  have hm := tracing_operands hlevel hv
  rw [h.operands] at hm
  obtain ⟨args, hevent, hmachine⟩ := of_record_begins hlevel hm h.begins
  refine ⟨?_, args, ?_, hmachine⟩
  · rw [hmachine]
    exact hm
  · simp [callEvent?, h.call?, hevent, Except.toOption]

/-- A call that does not return is open itself, around what the called value
leaves open. -/
theorem brackets (h : v.Calls setting limit call m)
    (hlevel : setting.level = fullLevel)
    (hoperands : v.machine.tracing = true → v.machine.Traces m [])
    (hvalue : Brackets setting call.machine
      (callValue setting limit call.callee call.args v.scope call.machine)
      pending) :
    Brackets setting v.machine (v.outcome setting)
      ((if v.isUnfinished setting then [v] else []) ++ pending) := by
  rcases call.outcome_cases hlevel with ⟨f, hfailed⟩ | ⟨r, m₁, text, hdone, hr⟩
  · -- Also a value that cannot be written into the trace fails the call: then
    -- the body is closed, and the call alone stays open.
    rw [← h.outcome] at hfailed
    have hunfinished : v.isUnfinished setting = true := by
      simp [isUnfinished, h.call?, hfailed, Outcome.result, Except.isOk,
        Except.toBool]
    rw [hunfinished, hfailed]
    refine ⟨fun hok => ?_, fun hv => ?_⟩
    · cases hok
    · obtain ⟨htracing, args, hevent, hmachine⟩ := h.begun hlevel hv
      obtain ⟨calls, hcalls, htraces⟩ := hvalue.traces htracing
      rw [hmachine] at htraces
      refine ⟨.call call.callee.inspect args :: calls, ?_, ?_⟩
      · simp [hevent, hcalls]
      · rw [hmachine]
        exact (hoperands hv).trans htraces.call
  · rw [← h.outcome] at hr
    have hfinished : v.isUnfinished setting = false := by
      simp [isUnfinished, hr, Outcome.result, Except.isOk, Except.toBool]
    have hnone : pending = [] := by
      refine hvalue.finished ?_
      rw [hdone]
      rfl
    rw [hfinished, hnone, hr]
    refine ⟨fun _ => rfl, fun hv => ⟨[], rfl, ?_⟩⟩
    obtain ⟨htracing, args, -, hmachine⟩ := h.begun hlevel hv
    have htraces := hvalue.traces_of_done hdone htracing
    have hm₁ := tracing_callValue limit hlevel call.callee call.args v.scope
      htracing
    rw [hdone] at hm₁
    rw [hmachine] at htraces
    rw [if_pos (show m₁.tracing = true from hm₁)]
    exact (hoperands hv).trans htraces.leave

end Visit.Calls

/-- What an evaluation leaves open is what it has begun and not finished. -/
theorem Visit.bracketed (hlevel : setting.level = fullLevel) (v : Visit) :
    v.Bracketed setting := by
  induction v using Visit.induction setting with
  | h v ih =>
      have hoperands := brackets_operands hlevel v fun x hx =>
        ih x (mem_parts.mpr (.inl hx))
      have hbody : ∀ x ∈ v.bodyParts setting, x.Bracketed setting :=
        fun x hx => ih x (mem_parts.mpr (.inr hx))
      unfold Bracketed
      rw [unfinished_eq]
      cases v.course setting with
      | operand hargs houtcome hcall hnone =>
          rw [hargs] at hoperands
          rw [isUnfinished_of_call?_none hcall, hnone, houtcome]
          rw [List.flatMap_nil, List.append_nil]
          exact ⟨hoperands.finished, hoperands.traces⟩
      | uncalled hargs hquiet hcall hnone =>
          rw [hargs] at hoperands
          rw [isUnfinished_of_call?_none hcall, hnone, hoperands.finished rfl]
          refine ⟨fun _ => rfl, fun hv => ⟨[], rfl, ?_⟩⟩
          exact (hoperands.traces_of_done rfl hv).trans (.of_quiet hquiet)
      | called hcalls =>
          -- The arguments are known, so what they called has returned; only
          -- the call itself and its body can be open.
          rw [hcalls.operands] at hoperands
          rw [hcalls.bodyParts] at hbody ⊢
          rw [hoperands.finished rfl, List.nil_append]
          exact hcalls.brackets hlevel (hoperands.traces_of_done rfl)
            (Call.brackets_value hlevel hbody)

/-! ## The order of open calls -/

theorem visits_of_mem_unfinished {v x c : Visit} (hx : x ∈ v.parts setting)
    (hc : c ∈ x.unfinished setting) : Visits setting v c :=
  .part hx (Visit.mem_all.mp (List.mem_of_mem_filter hc))

/-- In a row only the last evaluation can have open calls. -/
theorem pairwise_row (hlevel : setting.level = fullLevel)
    {eval : Nat → Node → Eval Value}
    (heval : ∀ i node, eval i node =
      evaluate setting limit node (site.child i) scope)
    {index : Nat} {nodes : List Node} {m : Machine}
    (h : ∀ x ∈ rowVisits eval limit site scope index nodes m,
      (x.unfinished setting).Pairwise (Visits setting)) :
    ((rowVisits eval limit site scope index nodes m).flatMap
      (Visit.unfinished setting)).Pairwise (Visits setting) := by
  induction nodes generalizing index m with
  | nil => exact .nil
  | cons node rest ih =>
      unfold rowVisits at h ⊢
      obtain ⟨hhead, htail⟩ := List.forall_mem_cons.mp h
      rw [List.flatMap_cons]
      cases hnode : eval index node m with
      | done v m₁ =>
          have hfinished := (Visit.bracketed hlevel
            ⟨limit, node, site.child index, scope, m⟩).finished
          rw [Visit.outcome, ← heval, hnode] at hfinished
          rw [hfinished rfl, List.nil_append]
          rw [hnode] at htail
          exact ih htail
      | failed f m₁ =>
          rw [List.flatMap_nil, List.append_nil]
          exact hhead

/-- The open calls are within each other, in their order. -/
theorem Visit.pairwise_unfinished (hlevel : setting.level = fullLevel)
    (v : Visit) : (v.unfinished setting).Pairwise (Visits setting) := by
  induction v using Visit.induction setting with
  | h v ih =>
      have hoperands : ((v.operandParts setting).flatMap
          (unfinished setting)).Pairwise (Visits setting) := by
        obtain ⟨limit, node, site, scope, m⟩ := v
        cases limit with
        | zero => exact .nil
        | succ limit =>
            exact pairwise_row hlevel (fun _ _ => rfl) fun x hx =>
              ih x (mem_parts.mpr (.inl hx))
      have hbody : ∀ x ∈ v.bodyParts setting,
          (x.unfinished setting).Pairwise (Visits setting) := fun x hx =>
        ih x (mem_parts.mpr (.inr hx))
      have hrest : ((v.operandParts setting).flatMap (unfinished setting) ++
          (v.bodyParts setting).flatMap (unfinished setting)).Pairwise
            (Visits setting) := by
        cases v.course setting with
        | operand _ _ _ hnone =>
            rw [hnone, List.flatMap_nil, List.append_nil]
            exact hoperands
        | uncalled _ _ _ hnone =>
            rw [hnone, List.flatMap_nil, List.append_nil]
            exact hoperands
        | @called limit call m hcalls =>
            have hfinished := (brackets_operands hlevel v fun x _ =>
              bracketed hlevel x).finished
            rw [hcalls.operands] at hfinished
            rw [hfinished rfl, List.nil_append]
            rw [hcalls.bodyParts] at hbody ⊢
            cases call.course setting limit v.scope with
            | quiet _ _ hvisits =>
                rw [hvisits]
                exact .nil
            | gets _ _ hvisits =>
                rw [hvisits]
                exact .nil
            | body frame _ _ _ hvisits =>
                rw [hvisits] at hbody ⊢
                exact pairwise_row hlevel (fun _ _ => rfl) hbody
      rw [unfinished_eq]
      split
      · refine List.pairwise_cons.mpr ⟨fun c hc => ?_, hrest⟩
        rw [← List.flatMap_append, ← parts_eq] at hc
        obtain ⟨x, hx, hc⟩ := List.mem_flatMap.mp hc
        exact visits_of_mem_unfinished hx hc
      · exact hrest

/-! ## Sessions -/

/-- Tracing goes on from turn to turn. -/
theorem Turns.tracing (hlevel : setting.level = fullLevel) {m m' : Machine}
    {turns : List Turn} (h : Turns setting m turns m')
    (hm : m.tracing = true) : ∀ t ∈ turns, t.machine.tracing = true := by
  induction h with
  | nil m => exact fun t ht => absurd ht List.not_mem_nil
  | idle hidle _ ih => exact ih (hidle.quiet.tracing.trans hm)
  | @turn t turns m' _ ih =>
      refine List.forall_mem_cons.mpr ⟨hm, ih ?_⟩
      exact tracing_evaluate setting.limit hlevel t.tree.node t.tree.site
        t.scope hm

end

/-- Every evaluation of a traced session is traced. -/
theorem Session.Traced.of_evaluates {c : Client} (h : c.session.Traced)
    {deeds : List Deed} {v : Visit} (hv : c.Evaluates deeds v) :
    v.machine.tracing = true := by
  obtain ⟨t, ht, hv⟩ := hv
  exact hv.tracing h.level_eq
    ((c.turns_doingAll deeds).tracing h.level_eq h.tracing t ht)

/-- **Call traces are well bracketed.** In a session with a full trace, what
an evaluation traces, at whatever depth it is made, is as follows. If it
returns a value, its calls and returns are balanced, each return from the
callee of the call that it closes. If it fails, they are the begin of such a
row, and the calls that are open in it are, in this order, those within the
evaluation that have begun and do not return: each one is within those before
it. A call has begun when its callee and its arguments are known, whether the
callee can be called or not. -/
theorem call_traces_are_bracketed (limit : Nat) (lexical : Bool)
    (input : List Char) (deeds : List Deed) (v : Visit)
    (hv : (Client.start (Session.startWithin limit lexical fullLevel
      input)).Evaluates deeds v) :
    let setting : Setting := ⟨lexical, fullLevel, limit, []⟩
    ∃ events,
      (v.outcome setting).state.trace.toList =
        v.machine.trace.toList ++ events ∧
      ((v.outcome setting).result.isOk = true →
        Balanced (brackets events)) ∧
      ((v.outcome setting).result.isOk = false →
        (∃ closing, Balanced (brackets events ++ closing)) ∧
        ∀ calls, Unclosed calls (brackets events) ↔
          (v.unfinished setting).map (Visit.callEvent? setting) =
            calls.map some) ∧
      (v.unfinished setting).Pairwise (Visits setting) ∧
      ∀ c, c ∈ v.unfinished setting ↔ Visits setting v c ∧
        (c.call? setting).isSome = true ∧
        (c.outcome setting).result.isOk = false := by
  intro setting
  have htracing := (Session.traced_startWithin limit lexical
    input).of_evaluates hv
  have hbracketed : v.Bracketed setting := Visit.bracketed rfl v
  obtain ⟨calls, hcalls, events, htrace, hopen⟩ := hbracketed.traces htracing
  refine ⟨events, htrace, ?_, ?_, v.pairwise_unfinished rfl, ?_⟩
  · intro hok
    rw [hbracketed.finished hok, List.map_nil] at hcalls
    rw [List.map_eq_nil_iff.mp hcalls.symm] at hopen
    exact hopen.balanced
  · intro _
    refine ⟨hopen.exists_closing, fun calls' => ⟨fun h => ?_, fun h => ?_⟩⟩
    · rw [h.unique hopen]
      exact hcalls
    · have heq : calls' = calls :=
        List.map_injective_iff.mpr (Option.some_injective Event)
          (h.symm.trans hcalls)
      rw [heq]
      exact hopen
  · intro c
    simp [Visit.unfinished, Visit.mem_all, Visit.isUnfinished]

/-- A text in which a function calls what it is given, which is nil. -/
def nilCallText : String := "def f(x) puts(x()) end f(y)"

def nilCallProgram : List Node :=
  [.define (.text "f") [.text "x"]
    [.call (.identifier (.text "puts"))
      [.call (.identifier (.text "x")) []]],
    .call (.identifier (.text "f")) [.identifier (.text "y")]]

/-- The call of the function and the call of nil stay open; the call of
`puts` has not begun when its argument fails. -/
theorem call_of_nil_stays_open :
    ∃ v events,
      (Client.start (Session.startWithin 10 true fullLevel [])).Evaluates
        [.parse nilCallText, .run [⟨0, [0]⟩, ⟨0, [1]⟩] Machine.globalScope]
        v ∧
      (v.outcome tracedSetting).state.trace.toList =
        v.machine.trace.toList ++ events ∧
      Unclosed [.call "<function f>" ["nil"], .call "None" []]
        (brackets events) := by
  have hload : (Deed.parse nilCallText).load? 10 =
      some (.sequence nilCallProgram) := by cbv
  have hturns : (Client.start (Session.startWithin 10 true fullLevel
      [])).turns [.parse nilCallText,
        .run [⟨0, [0]⟩, ⟨0, [1]⟩] Machine.globalScope] =
      rowTurns tracedSetting Machine.globalScope
        ((Tree.row ⟨0, []⟩ nilCallProgram).map fun tree => (tree.site, tree))
        (Machine.initial true []) := by
    rw [Client.turns, (Client.doing_of_load hload).1,
      (Client.doing_of_load hload).2, List.nil_append, Client.turns,
      Client.turns, List.append_nil]
    rfl
  have hopen : (rowTurns tracedSetting Machine.globalScope
      ((Tree.row ⟨0, []⟩ nilCallProgram).map fun tree => (tree.site, tree))
      (Machine.initial true [])).map (fun t =>
        (((t.visit tracedSetting).outcome tracedSetting).result.isOk,
          ((t.visit tracedSetting).unfinished tracedSetting).map
            (Visit.callEvent? tracedSetting))) =
      [(true, []), (false, [some (.call "<function f>" ["nil"]),
        some (.call "None" [])])] := by cbv
  obtain ⟨t, ht, hfacts⟩ := List.mem_map.mp
    (hopen ▸ List.mem_cons_of_mem _ (List.mem_singleton_self _))
  obtain ⟨hfailed, hcalls⟩ := Prod.mk.inj hfacts
  have hmade : (Client.start (Session.startWithin 10 true fullLevel
      [])).Evaluates [.parse nilCallText,
        .run [⟨0, [0]⟩, ⟨0, [1]⟩] Machine.globalScope]
      (t.visit tracedSetting) := by
    refine ⟨t, ?_, .refl _⟩
    rw [hturns]
    exact ht
  obtain ⟨events, htrace, -, hopen, -⟩ :=
    call_traces_are_bracketed 10 true [] _ _ hmade
  exact ⟨_, events, hmade, htrace, ((hopen hfailed).2 _).mpr hcalls⟩

end Scriptlet
