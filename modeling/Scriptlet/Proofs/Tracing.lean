import Scriptlet.Proofs.Runs

/-!
# Runs at different levels of tracing

Tracing only writes. A run in which fewer events are written has the same
values, errors, scopes, output and input as one in which all of them are,
and its trace is what is left of the full one when the events above its
level are struck out (`tracing_does_not_interfere`).

The machine of such a run is a view of the machine of the full run
(`Machine.seenAt`), and the two runs are kept in step through all stages of
an evaluation (`Mirrored`). An event can get in the way in one case only:
when it cannot be put together, because there is a value that has no text or
a parameter that is none. That is a fault of the full run (`Fault.OfTrace`), and
the programs that texts hold do not have it.
-/

namespace Scriptlet

/-! ## Views of a full run -/

/-- The level from which on all events are written. -/
def fullLevel : Int := 3

def Event.isSeen (level : Int) (e : Event) : Bool :=
  decide ((e.level : Int) ≤ level)

def Setting.atLevel (setting : Setting) (level : Int) : Setting :=
  { setting with level }

/-- The machine of a full run as it is at another level of tracing. -/
def Machine.seenAt (m : Machine) (level : Int) : Machine :=
  { m with
    trace := m.trace.filter (Event.isSeen level)
    tracing := decide (0 < level) }

def Machine.logged (m : Machine) (e : Event) : Machine :=
  { m with trace := m.trace.push e }

theorem Machine.seenAt_logged {m : Machine} {level : Int} {e : Event} :
    (m.logged e).seenAt level =
      if e.isSeen level then (m.seenAt level).logged e
      else m.seenAt level := by
  cases h : e.isSeen level <;> simp [seenAt, logged, h]

/-- The faults of an event that cannot be put together. -/
def Fault.OfTrace : Fault → Prop
  | .integerTooLarge => True
  | .parameterName .. => True
  | _ => False

theorem Fault.Expected.not_ofTrace {f : Fault} (h : f.Expected) :
    ¬ f.OfTrace := by
  cases f <;> first | exact id | exact absurd h id

/-! ## Recording -/

section

variable {setting : Setting} {required : Int}
  {event : Unit → Except Fault Event} {m : Machine}

theorem Eval.record_of_le {e : Event} (h : required ≤ setting.level)
    (hevent : event () = .ok e) :
    Eval.record setting required event m =
      .done () (if m.tracing then m.logged e else m) := by
  rw [Eval.record, if_pos h, hevent]
  rfl

theorem Eval.record_of_error {f : Fault} (h : required ≤ setting.level)
    (hevent : event () = .error f) :
    Eval.record setting required event m = .failed f m := by
  rw [Eval.record, if_pos h, hevent]
  rfl

theorem Eval.record_of_not_le (h : ¬ required ≤ setting.level) :
    Eval.record setting required event = pure () :=
  if_neg h

end

/-! ## Runs in step -/

/-- What `full` does with a full trace `part` does with the view of it, if no
event gets in the way. -/
def Mirrored {α : Type} (level : Int) (part full : Eval α) : Prop :=
  ∀ m : Machine, m.tracing = true → (full m).Ensures
    (fun a m' => m'.tracing = true ∧
      part (m.seenAt level) = .done a (m'.seenAt level))
    fun f m' => m'.tracing = true ∧
      (f.OfTrace ∨ part (m.seenAt level) = .failed f (m'.seenAt level))

namespace Mirrored

variable {α β : Type} {level : Int}

theorem pure (a : α) : Mirrored level (Pure.pure a) (Pure.pure a) :=
  fun _ hm => ⟨hm, rfl⟩

theorem fail (f : Fault) :
    Mirrored level (Step.fail f : Eval α) (Step.fail f) :=
  fun _ hm => ⟨hm, Or.inr rfl⟩

theorem lift (result : Except Fault α) :
    Mirrored level (Step.lift result) (Step.lift result) := by
  cases result with
  | ok a => exact pure a
  | error f => exact fail f

theorem bind {part full : Eval α} {partNext fullNext : α → Eval β}
    (h : Mirrored level part full)
    (hnext : ∀ a, Mirrored level (partNext a) (fullNext a)) :
    Mirrored level (part >>= partNext) (full >>= fullNext) := by
  intro m hm
  refine Step.ensures_bind ((h m hm).imp (fun _ _ hdone => hdone) ?_) ?_
  · rintro f m₁ ⟨hm₁, hf | hpart⟩
    · exact ⟨hm₁, Or.inl hf⟩
    · refine ⟨hm₁, Or.inr ?_⟩
      rw [Step.bind_apply, hpart]
  · rintro a m₁ ⟨hm₁, hpart⟩
    have hrest := hnext a m₁ hm₁
    simp only [Step.bind_apply, hpart]
    exact hrest

theorem modify {change : Machine → Machine}
    (hseen : ∀ m, change (m.seenAt level) = (change m).seenAt level)
    (htracing : ∀ m, (change m).tracing = m.tracing) :
    Mirrored level (Step.modify change) (Step.modify change) := by
  intro m hm
  refine ⟨(htracing m).trans hm, ?_⟩
  rw [Step.modify_apply, hseen]

/-- The second run looks at the view of what the first one looks at. -/
theorem get_bind {partNext fullNext : Machine → Eval β}
    (h : ∀ m, Mirrored level (partNext (m.seenAt level)) (fullNext m)) :
    Mirrored level (Step.get >>= partNext) (Step.get >>= fullNext) :=
  fun m hm => h m m hm

theorem nameOf (json : Json) :
    Mirrored level (Eval.nameOf json) (Eval.nameOf json) := by
  unfold Eval.nameOf
  cases Name.ofJson? json with
  | none => exact fail _
  | some name => exact pure name

theorem readLine : Mirrored level Eval.readLine Eval.readLine := by
  intro m hm
  have hinput : (m.seenAt level).input = m.input := rfl
  simp only [Eval.readLine, hinput]
  cases Text.readLine? m.input with
  | none => exact ⟨hm, rfl⟩
  | some found => exact ⟨hm, rfl⟩

/-- An event is written in both runs, or only in the full one and then it is
not in the view. -/
theorem record (setting : Setting) {required : Int}
    {event : Unit → Except Fault Event} (hpos : 0 < required)
    (hle : required ≤ fullLevel)
    (hlevel : ∀ e, event () = .ok e → (e.level : Int) = required)
    (hfault : ∀ f, event () = .error f → f.OfTrace) :
    Mirrored level (Eval.record (setting.atLevel level) required event)
      (Eval.record (setting.atLevel fullLevel) required event) := by
  intro m hm
  have hfull : required ≤ (setting.atLevel fullLevel).level := hle
  cases hevent : event () with
  | error f =>
      rw [Eval.record_of_error hfull hevent]
      exact ⟨hm, Or.inl (hfault f hevent)⟩
  | ok e =>
      have hseen : e.isSeen level = decide (required ≤ level) := by
        rw [Event.isSeen, hlevel e hevent]
      rw [Eval.record_of_le hfull hevent, if_pos hm]
      refine ⟨hm, ?_⟩
      rw [Machine.seenAt_logged, hseen]
      by_cases hpart : required ≤ (setting.atLevel level).level
      · have htracing : (m.seenAt level).tracing = true :=
          decide_eq_true (Int.lt_of_lt_of_le hpos hpart)
        rw [Eval.record_of_le hpart hevent, if_pos htracing]
        exact congrArg _ (if_pos (decide_eq_true hpart)).symm
      · rw [Eval.record_of_not_le hpart]
        refine congrArg _ (if_neg fun h => hpart ?_).symm
        exact of_decide_eq_true h

theorem evalEach {part full : Nat → Node → Eval Value}
    (h : ∀ i node, Mirrored level (part i node) (full i node)) (index : Nat)
    (nodes : List Node) :
    Mirrored level (Scriptlet.evalEach part index nodes)
      (Scriptlet.evalEach full index nodes) := by
  induction nodes generalizing index with
  | nil => exact pure []
  | cons node rest ih =>
      refine bind (h index node) fun v => ?_
      exact bind (ih (index + 1)) fun vs => pure (v :: vs)

theorem evalLast {part full : Nat → Node → Eval Value}
    (h : ∀ i node, Mirrored level (part i node) (full i node)) (index : Nat)
    (last : Value) (nodes : List Node) :
    Mirrored level (Scriptlet.evalLast part index last nodes)
      (Scriptlet.evalLast full index last nodes) := by
  induction nodes generalizing index last with
  | nil => exact pure last
  | cons node rest ih => exact bind (h index node) (ih (index + 1))

end Mirrored

/-! ## Events -/

theorem traceValue_ofTrace {v : Value} {f : Fault}
    (h : traceValue v = .error f) : f.OfTrace := by
  unfold traceValue at h
  split at h
  · cases h
  · cases h
    trivial

theorem traceValues_ofTrace {vs : List Value} {f : Fault}
    (h : traceValues vs = .error f) : f.OfTrace := by
  induction vs with
  | nil => cases h
  | cons v rest ih =>
      rw [traceValues] at h
      rcases eq_error_of_bind h with hv | ⟨text, -, h⟩
      · exact traceValue_ofTrace hv
      · rcases eq_error_of_bind h with hrest | ⟨texts, -, h⟩
        · exact ih hrest
        · cases h

theorem traceParams_ofTrace {index : Nat} {params : List Json} {f : Fault}
    (h : traceParams index params = .error f) : f.OfTrace := by
  fun_induction traceParams index params with
  | case1 => cases h
  | case2 index s rest ih =>
      rcases eq_error_of_bind h with hrest | ⟨names, -, h⟩
      · exact ih hrest
      · cases h
  | case3 =>
      cases h
      trivial

/-- An event that is made from texts. Its level is that of its form, and it
fails as the texts do. -/
theorem Mirrored.record_map {γ : Type} {level : Int} (setting : Setting)
    {required : Int} (hpos : 0 < required) (hle : required ≤ fullLevel)
    {texts : Except Fault γ} {form : γ → Event}
    (hform : ∀ t, ((form t).level : Int) = required)
    (hfault : ∀ f, texts = .error f → f.OfTrace) :
    Mirrored level
      (Eval.record (setting.atLevel level) required fun _ => do
        return form (← texts))
      (Eval.record (setting.atLevel fullLevel) required fun _ => do
        return form (← texts)) := by
  refine .record setting hpos hle ?_ ?_
  · intro e he
    cases htexts : texts with
    | error f =>
        rw [htexts] at he
        cases he
    | ok t =>
        rw [htexts] at he
        cases he
        exact hform t
  · intro f hf
    rcases eq_error_of_bind hf with htexts | ⟨t, -, hf⟩
    · exact hfault f htexts
    · cases hf

/-! ## Calls -/

section

variable (setting : Setting) (level : Int)

theorem putLines_mirrored (vs : List Value) :
    Mirrored level (putLines vs) (putLines vs) := by
  induction vs with
  | nil => exact .pure none
  | cons v rest ih =>
      unfold putLines
      cases v.display? with
      | none => exact .pure _
      | some text =>
          exact .bind (.modify (fun _ => rfl) fun _ => rfl) fun _ => ih

theorem callHost_mirrored (b : Builtin) (index : Nat) (vs : List Value) :
    Mirrored level (callHost (setting.atLevel level) b index vs)
      (callHost (setting.atLevel fullLevel) b index vs) := by
  refine .get_bind fun m => ?_
  refine .bind (.modify (fun _ => rfl) fun _ => rfl) fun _ => ?_
  have hhost : ∀ other, (setting.atLevel other).host = setting.host :=
    fun _ => rfl
  have hcalls : (m.seenAt level).hostCalls = m.hostCalls := rfl
  rw [hhost, hhost]
  cases setting.host[index]? with
  | none => exact .pure _
  | some function =>
      dsimp only
      rw [hcalls]
      cases function m.hostCalls vs with
      | value v => exact .pure v
      | raised _ _ | textFailed _ _ | outOfMemory _ => exact .fail _

theorem callBuiltin_mirrored (b : Builtin) (vs : List Value) :
    Mirrored level (callBuiltin (setting.atLevel level) b vs)
      (callBuiltin (setting.atLevel fullLevel) b vs) := by
  have hperform : Mirrored level
      (callBuiltin.perform (setting.atLevel level) b vs)
      (callBuiltin.perform (setting.atLevel fullLevel) b vs) := by
    unfold callBuiltin.perform
    cases b.action with
    | puts =>
        refine .bind (putLines_mirrored level vs) fun error => ?_
        cases error with
        | none => exact .pure _
        | some error => exact .fail _
    | gets =>
        refine .bind .readLine fun line => ?_
        cases line with
        | some text => exact .pure _
        | none => exact .pure _
    | host index => exact callHost_mirrored setting level b index vs
  unfold callBuiltin
  cases b.arity with
  | none => exact hperform
  | some arity =>
      dsimp only
      split
      · exact hperform
      · exact .fail _

theorem resolveCallee_mirrored (callee : Node) (scope : ScopeId) :
    Mirrored level (resolveCallee callee scope)
      (resolveCallee callee scope) := by
  cases callee with
  | identifier json =>
      refine .bind (.nameOf json) fun name => .get_bind fun m => ?_
      have hstore : (m.seenAt level).store = m.store := rfl
      rw [hstore]
      split
      · exact fun _ hm => ⟨hm, rfl⟩
      · exact .fail _
  | _ => exact .fail _

theorem bindParams_mirrored (scope : ScopeId) (params : List Json)
    (vs : List Value) :
    Mirrored level (bindParams scope params vs)
      (bindParams scope params vs) := by
  induction params generalizing vs with
  | nil => exact .pure ()
  | cons param params ih =>
      cases vs with
      | nil => exact .pure ()
      | cons v vs =>
          refine .bind (.nameOf param) fun name => ?_
          exact .bind (.modify (fun _ => rfl) fun _ => rfl) fun _ => ih vs

theorem enterFunction_mirrored (c : Closure) (vs : List Value)
    (scope : ScopeId) :
    Mirrored level (enterFunction (setting.atLevel level) c vs scope)
      (enterFunction (setting.atLevel fullLevel) c vs scope) := by
  refine .bind (fun _ hm => ⟨hm, rfl⟩) fun frame => ?_
  exact .bind (bindParams_mirrored level frame c.params vs) fun _ =>
    .pure frame

end

/-! ## Nodes -/

/-- The evaluations that nest at most `limit` deep are kept in step. -/
def MirroredLaw (setting : Setting) (level : Int) (limit : Nat) : Prop :=
  ∀ node site scope, Mirrored level
    (evaluate (setting.atLevel level) limit node site scope)
    (evaluate (setting.atLevel fullLevel) limit node site scope)

section

variable {setting : Setting} {level : Int} {limit : Nat}

theorem callValue_mirrored (ih : MirroredLaw setting level limit) (f : Value)
    (vs : List Value) (scope : ScopeId) :
    Mirrored level (callValue (setting.atLevel level) limit f vs scope)
      (callValue (setting.atLevel fullLevel) limit f vs scope) := by
  cases f with
  | function c =>
      refine .bind (enterFunction_mirrored setting level c vs scope)
        fun frame => ?_
      exact .evalLast (fun i node => ih node (c.site.child i) frame) 0 .nil
        c.body
  | builtin b => exact callBuiltin_mirrored setting level b vs
  | _ => exact .fail _

theorem prepareCall_mirrored (ih : MirroredLaw setting level limit)
    (callee : Node) (args : List Node) (site : Site) (scope : ScopeId) :
    Mirrored level
      (prepareCall (setting.atLevel level) limit callee args site scope)
      (prepareCall (setting.atLevel fullLevel) limit callee args site
        scope) := by
  refine .bind (.evalEach (fun i arg => ih arg (site.child i) scope) 0 args)
    fun vs => ?_
  refine .bind (resolveCallee_mirrored level callee scope) fun f => ?_
  refine .bind (.record_map setting (by decide) (by decide) (fun _ => rfl)
    fun _ => traceValues_ofTrace) fun _ => ?_
  exact .pure (f, vs)

theorem call_mirrored (ih : MirroredLaw setting level limit) (callee : Node)
    (args : List Node) (site : Site) (scope : ScopeId) :
    Mirrored level
      (evaluate (setting.atLevel level) (limit + 1) (.call callee args) site
        scope)
      (evaluate (setting.atLevel fullLevel) (limit + 1) (.call callee args)
        site scope) := by
  rw [evaluate_call, evaluate_call]
  refine .bind (prepareCall_mirrored ih callee args site scope)
    fun call => ?_
  refine .bind (callValue_mirrored ih call.1 call.2 scope) fun v => ?_
  refine .bind (.record_map setting (by decide) (by decide) (fun _ => rfl)
    fun _ => traceValue_ofTrace) fun _ => ?_
  exact .pure v

end

/-- Evaluation does the same at every level of tracing. -/
theorem mirroredLaw (setting : Setting) (level : Int) (limit : Nat) :
    MirroredLaw setting level limit := by
  induction limit with
  | zero => exact fun _ _ _ => .fail _
  | succ limit ih =>
      intro node site scope
      cases node with
      | number text =>
          rw [evaluate, evaluate]
          exact .lift _
      | identifier json =>
          rw [evaluate, evaluate]
          exact .bind (.nameOf json) fun name _ hm => ⟨hm, rfl⟩
      | binary operator left right =>
          rw [evaluate, evaluate]
          refine .bind (ih left _ scope) fun a => ?_
          exact .bind (ih right _ scope) fun b => .lift _
      | assign json value =>
          rw [evaluate, evaluate]
          refine .bind (ih value _ scope) fun v => ?_
          refine .bind (.nameOf json) fun name => ?_
          refine .bind (.modify (fun _ => rfl) fun _ => rfl) fun _ => ?_
          refine .get_bind fun m => ?_
          refine .bind (.record_map setting (by decide) (by decide)
            (fun _ => rfl) fun _ => traceValue_ofTrace) fun _ => ?_
          exact .pure v
      | define json params body =>
          rw [evaluate, evaluate]
          refine .bind (.nameOf json) fun name => ?_
          refine .bind (.modify (fun _ => rfl) fun _ => rfl) fun _ => ?_
          refine .bind (.record_map setting (by decide) (by decide)
            (fun _ => rfl) fun _ => traceParams_ofTrace) fun _ => ?_
          exact .pure _
      | call callee args => exact call_mirrored ih callee args site scope
      | sequence items =>
          rw [evaluate, evaluate]
          exact .fail _

theorem runStatements_mirrored (setting : Setting) (level : Int)
    (site : Site) (scope : ScopeId) (statements : List Node) :
    Mirrored level
      (runStatements (setting.atLevel level) site scope statements)
      (runStatements (setting.atLevel fullLevel) site scope statements) := by
  rw [runStatements_eq, runStatements_eq]
  refine .evalLast (fun i statement => ?_) 0 .nil statements
  refine .bind (mirroredLaw setting level setting.limit statement _ scope)
    fun v => ?_
  refine .bind (.record_map setting (by decide) (by decide) (fun _ => rfl)
    fun _ => traceValue_ofTrace) fun _ => ?_
  exact .pure v

/-! ## Sessions -/

def Outcome.mapState {ε σ τ α : Type} (view : σ → τ) :
    Outcome ε σ α → Outcome ε τ α
  | .done a s => .done a (view s)
  | .failed e s => .failed e (view s)

@[simp] theorem Outcome.result_mapState {ε σ τ α : Type} (view : σ → τ)
    (o : Outcome ε σ α) : (o.mapState view).result = o.result := by
  cases o <;> rfl

@[simp] theorem Outcome.state_mapState {ε σ τ α : Type} (view : σ → τ)
    (o : Outcome ε σ α) : (o.mapState view).state = view o.state := by
  cases o <;> rfl

namespace Session

/-- The session of a full run as it is at another level of tracing. -/
def seenAt (s : Session) (level : Int) : Session :=
  { s with
    setting := s.setting.atLevel level
    machine := s.machine.seenAt level }

/-- All events are written. -/
structure Traced (s : Session) : Prop where
  level_eq : s.setting.level = fullLevel
  tracing : s.machine.tracing = true

theorem traced_startWithin (limit : Nat) (lexical : Bool)
    (input : List Char) :
    (startWithin limit lexical fullLevel input).Traced := ⟨rfl, rfl⟩

theorem startWithin_eq_seenAt (limit : Nat) (lexical : Bool) (level : Int)
    (input : List Char) :
    startWithin limit lexical level input =
      (startWithin limit lexical fullLevel input).seenAt level := rfl

section

variable {programs : Programs} {s : Session}

theorem Traced.atLevel_fullLevel (h : s.Traced) :
    s.setting.atLevel fullLevel = s.setting := by
  rw [← h.level_eq]
  rfl

/-- A text does the same at every level of tracing. -/
theorem runSource_seenAt (hsafe : s.Safe programs) (htraced : s.Traced)
    (level : Int) (source : String) :
    runSource source Machine.globalScope (s.seenAt level) =
        (runSource source Machine.globalScope s).mapState
          (·.seenAt level) ∧
      (runSource source Machine.globalScope s).state.Traced := by
  cases hparse : parseProgram s.setting.limit source with
  | error e =>
      rw [runSource_of_error hparse,
        runSource_of_error (s := s.seenAt level) hparse]
      exact ⟨rfl, htraced⟩
  | ok statements =>
      have hexpected := hsafe.runSource hsafe.global_lt source
      have hmirrored := runStatements_mirrored s.setting level ⟨s.units, []⟩
        Machine.globalScope statements s.machine htraced.tracing
      rw [htraced.atLevel_fullLevel] at hmirrored
      rw [runSource_of_ok hparse, runNodes_eq] at hexpected ⊢
      rw [runSource_of_ok (s := s.seenAt level) hparse, runNodes_eq]
      cases hrun : runStatements s.setting ⟨s.units, []⟩ Machine.globalScope
          statements s.machine with
      | done v m =>
          rw [hrun] at hmirrored
          obtain ⟨hm, hpart⟩ := hmirrored
          refine ⟨?_, htraced.level_eq, hm⟩
          simp only [seenAt, hpart, Outcome.mapState, ranTo]
      | failed f m =>
          rw [hrun] at hmirrored hexpected
          obtain ⟨hm, hcase⟩ := hmirrored
          have hpart := hcase.resolve_left hexpected.2.not_ofTrace
          refine ⟨?_, htraced.level_eq, hm⟩
          simp only [seenAt, hpart, Outcome.mapState, ranTo]

theorem runAll_seenAt (hsafe : s.Safe programs)
    (htraced : s.Traced) (level : Int) (sources : List String) :
    (s.seenAt level).runAll sources = (s.runAll sources).seenAt level ∧
      (s.runAll sources).Traced := by
  induction sources generalizing s programs with
  | nil => exact ⟨rfl, htraced⟩
  | cons source rest ih =>
      obtain ⟨heq, htraced'⟩ := runSource_seenAt hsafe htraced level source
      have hsafe' := hsafe.state_runSource hsafe.global_lt source
      have hstate : (runSource source Machine.globalScope
          (s.seenAt level)).state =
          (runSource source Machine.globalScope s).state.seenAt level := by
        rw [heq, Outcome.state_mapState]
      have hrest := ih hsafe' htraced'
      rw [← hstate] at hrest
      exact hrest

end

end Session

/-- **Tracing does not interfere.** A text that is run in a session of texts
has the same value or error at every two levels of tracing, and leaves the
same scopes, the same output and the same input; and the trace at a level is
the full trace without the events that are above the level. This is so for
every limit on nesting, which counts evaluations: that writing a trace takes
stack frames of its own does not matter here. -/
theorem tracing_does_not_interfere (limit : Nat) (lexical : Bool)
    (input : List Char) (sources : List String) (source : String)
    (level other : Int) :
    let run (level : Int) := Session.runSource source Machine.globalScope
      ((Session.startWithin limit lexical level input).runAll sources)
    (run level).result = (run other).result ∧
    (run level).state.machine.store = (run other).state.machine.store ∧
    (run level).state.machine.output = (run other).state.machine.output ∧
    (run level).state.machine.input = (run other).state.machine.input ∧
    (run level).state.machine.trace.toList =
      (run fullLevel).state.machine.trace.toList.filter
        fun e => decide ((e.level : Int) ≤ level) := by
  intro run
  have hsafe := ((Session.safe_startWithin limit lexical fullLevel
    input).runAll rfl sources).1
  have hview : ∀ level, run level =
      (run fullLevel).mapState (·.seenAt level) := by
    intro level
    obtain ⟨hall, htraced⟩ := Session.runAll_seenAt
      (Session.safe_startWithin limit lexical fullLevel input)
      (Session.traced_startWithin limit lexical input) level sources
    show Session.runSource source Machine.globalScope
      ((Session.startWithin limit lexical level input).runAll sources) = _
    rw [Session.startWithin_eq_seenAt, hall]
    exact (Session.runSource_seenAt hsafe htraced level source).1
  have hresult : ∀ level, (run level).result = (run fullLevel).result := by
    intro level
    rw [hview level, Outcome.result_mapState]
  have hstate : ∀ level, (run level).state =
      (run fullLevel).state.seenAt level := by
    intro level
    rw [hview level, Outcome.state_mapState]
  refine ⟨(hresult level).trans (hresult other).symm, ?_⟩
  rw [hstate level, hstate other]
  refine ⟨rfl, rfl, rfl, ?_⟩
  simp only [Session.seenAt, Machine.seenAt, Array.toList_filter]
  rfl

end Scriptlet
