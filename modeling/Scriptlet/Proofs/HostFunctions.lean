import Scriptlet.Proofs.Runs

/-!
# Functions of the host

The host may register functions, which are called with the values of the
language and answer with a value of any kind, with an error, or by running
out of memory. Whatever they answer, a text that is run without a trace comes
to a value or fails with an error that is reported, with two exceptions
(`host_functions_contained`). A whole number that no double comes near passes
for a number, but there is no computing with it (`big_integer_escapes`). And
an error of the host that cannot be put into a text cannot be reported either
(`text_failure_escapes`).

The values that the host makes go through variables, calls and operators
before anything looks at them. So there is a discipline of the scopes here
too: which values the names have depends on what the host makes
(`Value.Tame`), and so do the faults that evaluation ends with
(`Fault.Contained`). Objects of the host are inert, so that passing one on or
showing it is no call of the host.
-/

namespace Scriptlet

/-! ## What the host answers -/

/-- The function answers with a value that it was not given. -/
def HostFunction.Makes (f : HostFunction) (v : Value) : Prop :=
  ∃ calls args, f calls args = .value v ∧ v ∉ args

/-- Some function runs out of memory with this text. -/
def OutOfMemory (functions : List HostFunction) (text : String) : Prop :=
  ∃ f ∈ functions, ∃ calls args, f calls args = .outOfMemory text

/-- Some function raises an error whose text cannot be put together, for a
reason of this kind and text. -/
def TextFails (functions : List HostFunction) (kind text : String) : Prop :=
  ∃ f ∈ functions, ∃ calls args, f calls args = .textFailed kind text

/-- Some function makes a whole number that no double comes near. -/
def MakesOversized (functions : List HostFunction) : Prop :=
  ∃ f ∈ functions, ∃ n, Binary64.ofInt? n = none ∧
    HostFunction.Makes f (.integer n)

/-- The values of a session in which parsed programs and these functions of
the host make values: functions of the language are parsed, and whole numbers
are not too large unless the host makes one that is. -/
def Value.Tame (functions : List HostFunction) : Value → Prop
  | .function c => IsStatement (.define c.name c.params c.body)
  | .integer n => Binary64.ofInt? n = none → MakesOversized functions
  | _ => True

/-- How evaluation can fail in such a session. -/
def Fault.Contained (functions : List HostFunction) : Fault → Prop
  | .eval e => e.kind ∈ "FunctionCallError" :: programErrorKinds
  | .outOfMemory text => OutOfMemory functions text
  | .textFailed kind text => TextFails functions kind text
  | .integerTooLarge => MakesOversized functions
  | .tooDeep => True
  | _ => False

/-- How the run of a text can fail in such a session. -/
def Failure.Contained (functions : List HostFunction) : Failure → Prop
  | .parse _ => True
  | .fault f => f.Contained functions

/-- The action keeps to tame values, and fails as it should. -/
abbrev Tamely {α : Type} (functions : List HostFunction)
    (good : α → Nat → Prop) (action : Eval α) (m : Machine) : Prop :=
  Upholds (.ofValues (Value.Tame functions) trivial)
    (Fault.Contained functions) good action m

def TameValue (functions : List HostFunction) (v : Value) (_ : Nat) : Prop :=
  v.Tame functions

def MakeNoFunctions (functions : List HostFunction) : Prop :=
  ∀ f ∈ functions, ∀ c, ¬ HostFunction.Makes f (.function c)

section

variable {functions : List HostFunction}

theorem Value.Tame.of_answer (hmake : MakeNoFunctions functions)
    {f : HostFunction} (hf : f ∈ functions) {calls : Nat}
    {args : List Value} (hargs : ∀ v ∈ args, v.Tame functions) {v : Value}
    (h : f calls args = .value v) : v.Tame functions := by
  by_cases hv : v ∈ args
  · exact hargs v hv
  · have hmakes : f.Makes v := ⟨calls, args, h, hv⟩
    cases v with
    | function c => exact absurd hmakes (hmake f hf c)
    | integer n => exact fun hn => ⟨f, hf, n, hn, hmakes⟩
    | _ => trivial

theorem contained_builtinFailed (functions : List HostFunction)
    (name : String) (cause : HostError) :
    (Fault.eval (.builtinFailed name cause)).Contained functions :=
  List.mem_cons_self

theorem Fault.Expected.contained {f : Fault} (h : f.Expected) :
    f.Contained functions := by
  cases f with
  | eval e => exact List.mem_cons_of_mem _ h
  | tooDeep => trivial
  | _ => exact h.elim

theorem ensures_callHost (hmake : MakeNoFunctions functions)
    {setting : Setting} (hhost : ∀ f ∈ setting.host, f ∈ functions)
    (b : Builtin) (index : Nat) {args : List Value}
    (hargs : ∀ v ∈ args, v.Tame functions) (m : Machine) :
    (callHost setting b index args m).Ensures
      (fun v _ => v.Tame functions) fun f _ => f.Contained functions := by
  unfold callHost
  simp only [Step.bind_apply, Step.get_apply, Step.modify_apply]
  cases hindex : setting.host[index]? with
  | none => trivial
  | some f =>
      have hf : f ∈ functions := hhost f (List.mem_of_getElem? hindex)
      dsimp only
      cases hanswer : f m.hostCalls args with
      | value v => exact Value.Tame.of_answer hmake hf hargs hanswer
      | raised kind text => exact contained_builtinFailed functions _ _
      | textFailed kind text => exact ⟨f, hf, _, _, hanswer⟩
      | outOfMemory text => exact ⟨f, hf, _, _, hanswer⟩

/-- A function from outside the language gives a tame value, or its failure
is one that is reported. -/
theorem tamely_callBuiltin (hmake : MakeNoFunctions functions)
    {setting : Setting} (hhost : ∀ f ∈ setting.host, f ∈ functions)
    (b : Builtin) {args : List Value}
    (hargs : ∀ v ∈ args, v.Tame functions) (m : Machine) :
    Tamely functions (TameValue functions) (callBuiltin setting b args) m := by
  refine .of_leaves (leaves_callBuiltin setting b args m) ?_
  have hperform : (callBuiltin.perform setting b args m).Ensures
      (fun v _ => v.Tame functions) fun f _ => f.Contained functions := by
    unfold callBuiltin.perform
    cases b.action with
    | puts =>
        refine Step.ensures_bind ((ensures_putLines args m).imp
          (fun _ _ => id) fun _ _ => False.elim) fun error m₁ _ => ?_
        cases error with
        | none => trivial
        | some error => exact contained_builtinFailed functions _ _
    | gets =>
        simp only [Step.bind_apply, Eval.readLine]
        cases Text.readLine? m.input <;> trivial
    | host index => exact ensures_callHost hmake hhost b index hargs m
  unfold callBuiltin
  cases b.arity with
  | none => exact hperform
  | some arity =>
      dsimp only
      split
      · exact hperform
      · exact contained_builtinFailed functions _ _

end

/-! ## Operators -/

section

variable {operator : String} {a b : Value}

theorem applyOperator_of_oversized (hop : operator ∈ arithmeticOperators)
    (h : Oversized a b) :
    applyOperator (.text operator) a b = .error .integerTooLarge := by
  obtain ⟨ha, hb, hnone⟩ := h
  simp only [applyOperator, ha, hb, length?_of_mem hop, operand]
  cases hx : a.toFloat? with
  | none => rfl
  | some x =>
      rcases hnone with hnone | hnone
      · rw [hnone] at hx
        cases hx
      · rw [hnone]
        rfl

theorem applyOperator_eq_integerTooLarge_iff
    (hop : operator ∈ arithmeticOperators) :
    applyOperator (.text operator) a b = .error .integerTooLarge ↔
      Oversized a b := by
  constructor
  · intro h
    by_contra hnot
    rcases applyOperator_of_not_oversized hop hnot with
      ⟨z, hz⟩ | ⟨f, hf, hexpected⟩
    · cases hz.symm.trans h
    · cases hf.symm.trans h
      exact hexpected
  · exact applyOperator_of_oversized hop

/-- A tame number without a double was made by the host. -/
theorem Value.Tame.makesOversized {functions : List HostFunction} {v : Value}
    (h : v.Tame functions) (hnumber : v.isNumber = true)
    (hnone : v.toFloat? = none) : MakesOversized functions := by
  cases v with
  | number x => cases hnone
  | integer n => exact h hnone
  | _ => cases hnumber

theorem tamely_applyOperator {functions : List HostFunction} {m : Machine}
    (hop : operator ∈ arithmeticOperators) (ha : a.Tame functions)
    (hb : b.Tame functions) :
    Tamely functions (TameValue functions)
      (Step.lift (applyOperator (.text operator) a b)) m := by
  by_cases hover : Oversized a b
  · rw [applyOperator_of_oversized hop hover]
    obtain ⟨hanumber, hbnumber, hnone | hnone⟩ := hover
    · exact .fail (ha.makesOversized hanumber hnone)
    · exact .fail (hb.makesOversized hbnumber hnone)
  · rcases applyOperator_of_not_oversized hop hover with
      ⟨z, hz⟩ | ⟨f, hf, hexpected⟩
    · rw [hz]
      exact .pure trivial
    · rw [hf]
      exact .fail hexpected.contained

end

/-! ## Evaluation -/

/-- What a session with these functions fixes: nothing is traced, and the
functions of the host are among them. -/
structure Setting.Hosts (setting : Setting) (functions : List HostFunction) :
    Prop where
  level : setting.level ≤ 0
  host : ∀ f ∈ setting.host, f ∈ functions
  make : MakeNoFunctions functions

/-- Statements are evaluated to tame values when evaluations nest at most
`limit` deep. -/
def TameLaw (functions : List HostFunction) (setting : Setting)
    (limit : Nat) : Prop :=
  ∀ (node : Node) (site : Site) (scope : ScopeId) (m : Machine),
    IsStatement node → Tamely functions (TameValue functions)
      (evaluate setting limit node site scope) m

section

variable {functions : List HostFunction} {setting : Setting} {limit : Nat}
  {m : Machine}

theorem contained_of_kind {e : EvalError} (h : e.kind ∈ programErrorKinds) :
    (Fault.eval e).Contained functions :=
  List.mem_cons_of_mem _ h

theorem tamely_resolveCallee (name : String) (scope : ScopeId)
    (m : Machine) :
    Tamely functions (TameValue functions)
      (resolveCallee (.identifier (.text name)) scope) m := by
  refine .resolveCallee (fun _ => contained_of_kind) ?_ fun _ _ _ _ _ _ => id
  rintro _ ⟨⟩ hnone
  exact absurd hnone (ofJson?_text_ne_none name)

theorem tamely_callValue (hosts : setting.Hosts functions)
    (ih : TameLaw functions setting limit) {f : Value} {vs : List Value}
    (hf : f.Tame functions) (hvs : ∀ v ∈ vs, v.Tame functions)
    (scope : ScopeId) :
    Tamely functions (TameValue functions)
      (callValue setting limit f vs scope) m := by
  cases f with
  | function c =>
      have hdefine : IsStatement (.define c.name c.params c.body) := hf
      obtain ⟨params, hparams⟩ := hdefine.params_eq
      have henter : Tamely functions (fun id n => id < n)
          (enterFunction setting c vs scope) m := by
        refine .enterFunction setting scope (fun param hparam hnone => ?_)
          fun _ _ => hvs
        rw [hparams] at hparam
        obtain ⟨word, -, rfl⟩ := List.mem_map.mp hparam
        exact absurd hnone (ofJson?_text_ne_none word)
      refine .bind henter fun frame m₁ _ _ => ?_
      exact (UpholdsEach.of_mem (fun statement hstatement i m =>
        ih statement _ frame m (hdefine.children hstatement)) 0).evalLast
        (Nat.zero_le _) trivial
  | builtin b => exact tamely_callBuiltin hosts.make hosts.host b hvs m
  | _ => exact .fail (contained_of_kind (by simp [EvalError.kind, programErrorKinds]))

theorem tamely_expression (hosts : setting.Hosts functions)
    (ih : TameLaw functions setting limit) {e : Node} (he : IsExpression e)
    (site : Site) (scope : ScopeId) :
    Tamely functions (TameValue functions)
      (evaluate setting (limit + 1) e site scope) m := by
  cases he with
  | number htext =>
      obtain ⟨x, hx⟩ := evalLiteral_of_isNumeral htext
      rw [evaluate, hx]
      exact .pure trivial
  | @identifier name _ =>
      rw [evaluate]
      refine .nameOf_bind (fun hnone => ?_) fun _ _ => .lookup scope _
      exact absurd hnone (ofJson?_text_ne_none name)
  | binary hop hleft hright =>
      rw [evaluate]
      refine .bind (ih _ _ scope m (.expression hleft)) fun a m₁ _ ha => ?_
      refine .bind (ih _ _ scope m₁ (.expression hright)) fun b m₂ _ hb => ?_
      exact tamely_applyOperator hop ha hb
  | @call name _ _ hargs =>
      refine .call (traceable_of_level hosts.level) (fun _ _ _ hv _ => hv)
        (.of_mem (fun arg harg i m =>
          ih arg (site.child i) scope m (.expression (hargs arg harg))) 0)
        (tamely_resolveCallee name scope) ?_ (Nat.zero_le _)
      exact fun f vs m hf hvs => tamely_callValue hosts ih hf hvs scope

/-- Without a trace, the statements of parsed programs are evaluated to tame
values, or fail as they should. -/
theorem tameLaw (hosts : setting.Hosts functions) (limit : Nat) :
    TameLaw functions setting limit := by
  induction limit with
  | zero => exact fun _ _ _ _ _ => .fail trivial
  | succ limit ih =>
      intro node site scope m hstatement
      cases hstatement with
      | expression he => exact tamely_expression hosts ih he site scope
      | @assign name _ _ hvalue =>
          exact .assign (traceable_of_level hosts.level)
            (ih _ _ scope m (.expression hvalue))
            (fun hnone => absurd hnone (ofJson?_text_ne_none name))
            fun _ _ _ _ => id
      | @define name _ _ hname hparams hbody =>
          have hdefine := IsStatement.define hname hparams hbody
          exact .define
            (fun hlevel => absurd hlevel (Int.not_lt.mpr hosts.level))
            (fun hnone => absurd hnone (ofJson?_text_ne_none name))
            (fun _ _ => hdefine) hdefine

end

/-! ## Sessions -/

/-- What a host does with a session: it registers a function, or runs a
text. -/
inductive HostStep where
  | register (name : String) (arity : Option Int) (function : HostFunction)
  | run (source : String)

namespace HostStep

def functions : List HostStep → List HostFunction
  | [] => []
  | .register _ _ function :: steps => function :: functions steps
  | .run _ :: steps => functions steps

/-- A host function without arguments that always answers the same. -/
def constant (name : String) (answer : HostAnswer) : HostStep :=
  .register name (some 0) fun _ _ => answer

/-- The session after a step, whether it failed or not. -/
def perform (s : Session) : HostStep → Session
  | .register name arity function =>
      (Session.register name arity function s).state
  | .run source => (Session.runSource source Machine.globalScope s).state

end HostStep

namespace Session

def hosting (s : Session) (steps : List HostStep) : Session :=
  steps.foldl HostStep.perform s

/-- Nothing is traced, the functions of the host are among these, and all
values are tame. -/
structure Tame (functions : List HostFunction) (s : Session) : Prop where
  hosts : s.setting.Hosts functions
  store : s.machine.store.Holds (Value.Tame functions)

variable {functions : List HostFunction} {s : Session}

/-- A text that is run in a tame session leaves it tame, and fails as it
should if it fails. -/
theorem Tame.runSource (h : s.Tame functions) (source : String) :
    (Session.runSource source Machine.globalScope s).Ensures
      (fun _ s' => s'.Tame functions)
      fun failure s' => s'.Tame functions ∧ failure.Contained functions := by
  cases hparse : parseProgram s.setting.limit source with
  | error e =>
      rw [runSource_of_error hparse]
      refine ⟨h, ?_⟩
      cases e <;> trivial
  | ok statements =>
      have hrow : ∀ statement ∈ statements, ∀ i m,
          Tamely functions (TameValue functions)
            (evalStatement s.setting ⟨s.units, []⟩ Machine.globalScope i
              statement) m := by
        intro statement hstatement i m
        exact .runStatement (traceable_of_level h.hosts.level)
          (tameLaw h.hosts _ statement _ _ m
            (isStatement_of_parseProgram hparse statement hstatement))
      have hrun := (UpholdsEach.of_mem hrow 0).evalLast (Nat.zero_le _)
        (show TameValue functions .nil _ from trivial) h.store
      rw [runSource_of_ok hparse, runNodes_eq, runStatements_eq]
      cases hout : evalLast (evalStatement s.setting ⟨s.units, []⟩
        Machine.globalScope) 0 .nil statements s.machine with
      | done v m =>
          rw [hout] at hrun
          exact ⟨h.hosts, hrun.1⟩
      | failed f m =>
          rw [hout] at hrun
          exact ⟨⟨h.hosts, hrun.1⟩, hrun.2⟩

theorem Tame.register (h : s.Tame functions) (name : String)
    (arity : Option Int) {function : HostFunction}
    (hmem : function ∈ functions) :
    (Session.register name arity function s).state.Tame functions where
  hosts := {
    level := h.hosts.level
    host := by
      intro f hf
      rcases List.mem_append.mp hf with hf | hf
      · exact h.hosts.host f hf
      · rw [List.mem_singleton.mp hf]
        exact hmem
    make := h.hosts.make }
  store := h.store.set Machine.globalScope (.text name) trivial

/-- A session stays tame over steps of the host that register no other
functions than these. -/
theorem Tame.hosting {steps : List HostStep} (h : s.Tame functions)
    (hsteps : ∀ f ∈ HostStep.functions steps, f ∈ functions) :
    (s.hosting steps).Tame functions := by
  induction steps generalizing s with
  | nil => exact h
  | cons step rest ih =>
      cases step with
      | register name arity function =>
          obtain ⟨hfunction, hrest⟩ := List.forall_mem_cons.mp hsteps
          exact ih (h.register name arity hfunction) hrest
      | run source =>
          have hstate : (Session.runSource source Machine.globalScope
              s).Leaves (Session.Tame functions) :=
            (h.runSource source).imp (fun _ _ => id) fun _ _ => And.left
          exact ih (Outcome.leaves_iff.mp hstate) hsteps

theorem tame_startWithin {level : Int} (hlevel : level ≤ 0)
    (hmake : MakeNoFunctions functions) (limit : Nat) (lexical : Bool)
    (input : List Char) :
    (startWithin limit lexical level input).Tame functions where
  hosts := ⟨hlevel, fun _ hf => (List.not_mem_nil hf).elim, hmake⟩
  store := Store.Holds.initial trivial trivial

end Session

/-- Whatever functions the host registers, as long as they make no functions
of the language, a text that is run without a trace comes to a value or fails
with a parse error, with an error of the language, for lack of memory where
the host ran out of it, or by nesting too deeply. There are two other ways
out, and each asks for a host function that opens it. One is a whole number
that no double comes near, on which every operator fails when both its
operands are numbers. The other is an error of the host whose text cannot be
put together. -/
theorem host_functions_contained (limit : Nat) (lexical : Bool) {level : Int}
    (hlevel : level ≤ 0) (input : List Char) (steps : List HostStep)
    (hmake : MakeNoFunctions (HostStep.functions steps)) (source : String) :
    let s := (Session.startWithin limit lexical level input).hosting steps
    let run := Session.runSource source Machine.globalScope s
    ((∃ v, run.result = .ok v) ∨
      ∃ failure, run.result = .error failure ∧
        failure.Contained (HostStep.functions steps)) ∧
    ∀ operator ∈ arithmeticOperators, ∀ a b,
      applyOperator (.text operator) a b = .error .integerTooLarge ↔
        a.isNumber = true ∧ b.isNumber = true ∧
          (a.toFloat? = none ∨ b.toFloat? = none) := by
  intro s run
  have hs : s.Tame (HostStep.functions steps) :=
    (Session.tame_startWithin hlevel hmake limit lexical input).hosting
      fun _ => id
  constructor
  · rcases (hs.runSource source).result with
      ⟨v, hresult, -⟩ | ⟨failure, hresult, -, hfailure⟩
    · exact Or.inl ⟨v, hresult⟩
    · exact Or.inr ⟨failure, hresult, hfailure⟩
  · exact fun operator hop a b => applyOperator_eq_integerTooLarge_iff hop

/-- A host with a number that is too large and a function that fails. -/
def troubledHost : List HostStep :=
  [.constant "big" (.value (.integer (Nat.pow 10 400))),
    .constant "broken" (.raised "ValueError" "no"), .run "x = big()"]

theorem troubled_host_is_contained :
    MakeNoFunctions (HostStep.functions troubledHost) ∧
    let run := Session.runSource "x + broken()" Machine.globalScope
      ((Session.startWithin 20 false 0 []).hosting troubledHost)
    (∃ v, run.result = .ok v) ∨
      ∃ failure, run.result = .error failure ∧
        failure.Contained (HostStep.functions troubledHost) := by
  have hmake : MakeNoFunctions (HostStep.functions troubledHost) := by
    rintro f hf c ⟨calls, args, hanswer, -⟩
    simp only [troubledHost, HostStep.functions, HostStep.constant,
      List.mem_cons, List.not_mem_nil, or_false] at hf
    rcases hf with rfl | rfl <;> cases hanswer
  exact ⟨hmake, (host_functions_contained 20 false (Int.le_refl 0) []
    troubledHost hmake "x + broken()").1⟩

/-! ## An error without a text -/

/-- The error that kept the text from being put together comes out in place
of an error of the language. -/
theorem text_failure_escapes (kind text : String) :
    (Session.runSource "broken()" Machine.globalScope
      ((Session.startWithin 20 false 0 []).hosting
        [.constant "broken" (.textFailed kind text)])).result =
      .error (.fault (.textFailed kind text)) := by
  cbv

/-! ## A number that is too large -/

theorem evaluate_hostCall {setting : Setting} (hlevel : setting.level ≤ 0)
    {scope : ScopeId} {m : Machine} {name : String} {index : Nat}
    {f : HostFunction} {v : Value}
    (hbound : m.store.contains scope (.text name) = true)
    (hget : m.store.get scope (.text name) =
      .builtin ⟨name, .host index, some 0⟩)
    (hhost : setting.host[index]? = some f)
    (hanswer : f m.hostCalls [] = .value v) (limit : Nat) (site : Site) :
    evaluate setting (limit + 1) (.call (.identifier (.text name)) []) site
      scope m = .done v { m with hostCalls := m.hostCalls + 1 } := by
  have hrecord : ∀ event, Eval.record setting 3 event = Pure.pure () :=
    fun event => if_neg (by omega)
  rw [evaluate]
  simp [evalEach, resolveCallee, Step.bind_apply, hrecord, hbound, hget,
    Eval.nameOf, Name.ofJson?, Eval.lookup, callBuiltin, callBuiltin.perform,
    callHost, hhost, hanswer]

/-- An operator on two numbers ends the run if one of them is too large. -/
theorem evaluate_binary_of_oversized {setting : Setting} {limit : Nat}
    {operator : String} (hop : operator ∈ arithmeticOperators)
    {left right : Node} {site : Site} {scope : ScopeId} {a b : Value}
    {m m₁ m₂ : Machine}
    (hleft : evaluate setting limit left (site.child 0) scope m = .done a m₁)
    (hright : evaluate setting limit right (site.child 1) scope m₁ =
      .done b m₂)
    (h : Oversized a b) :
    evaluate setting (limit + 1) (.binary (.text operator) left right) site
      scope m = .failed .integerTooLarge m₂ := by
  rw [evaluate, Step.bind_apply, hleft]
  dsimp only
  rw [Step.bind_apply, hright]
  dsimp only
  rw [applyOperator_of_oversized hop h]
  rfl

/-- A host whose only function answers with a whole number. -/
def integerHost (n : Int) : List HostStep :=
  [.constant "big" (.value (.integer n))]

def bigSum : Node :=
  .binary (.text "+") (.call (.identifier (.text "big")) [])
    (.call (.identifier (.text "big")) [])

/-- A whole number that no double comes near can be returned and passed on,
but adding it ends the run with a fault that nobody reports. -/
theorem sum_of_oversized {n : Int} (hn : Binary64.ofInt? n = none) :
    (Session.runSource "big() + big()" Machine.globalScope
      ((Session.start false 0 []).hosting (integerHost n))).result =
      .error (.fault .integerTooLarge) := by
  generalize hs : (Session.start false 0 []).hosting (integerHost n) = s
  have hsetting : s.setting =
      ⟨false, 0, nestingLimit, [fun _ _ => .value (.integer n)]⟩ := by
    rw [← hs]
    rfl
  have hbound : s.machine.store.contains Machine.globalScope
      (.text "big") = true := by
    rw [← hs]
    cbv
  have hget : s.machine.store.get Machine.globalScope (.text "big") =
      .builtin ⟨"big", .host 0, some 0⟩ := by
    rw [← hs]
    cbv
  have hcall : ∀ limit site (m : Machine), m.store = s.machine.store →
      evaluate s.setting (limit + 1) (.call (.identifier (.text "big")) [])
        site Machine.globalScope m =
        .done (.integer n) { m with hostCalls := m.hostCalls + 1 } := by
    intro limit site m hm
    rw [hsetting]
    rw [← hm] at hbound hget
    exact evaluate_hostCall (Int.le_refl 0) hbound hget rfl rfl limit site
  have hsum : ∀ limit site, evaluate s.setting (limit + 2) bigSum site
      Machine.globalScope s.machine = .failed .integerTooLarge
        { s.machine with hostCalls := s.machine.hostCalls + 1 + 1 } :=
    fun limit site => evaluate_binary_of_oversized
      (by simp [arithmeticOperators]) (hcall limit _ s.machine rfl)
      (hcall limit _ _ rfl) ⟨rfl, rfl, Or.inl hn⟩
  have hparse : parseProgram s.setting.limit "big() + big()" =
      .ok [bigSum] := by
    rw [hsetting]
    cbv
  have hlimit : s.setting.limit = 998 + 2 := by
    rw [hsetting]
    rfl
  rw [Session.runSource_of_ok hparse, Session.runNodes_eq, runStatements_eq,
    evalLast, Step.bind_apply, evalStatement, runStatement, hlimit,
    Step.bind_apply,
    hsum 998]
  rfl

/-- No error of the language says that a number is too large. -/
theorem big_integer_escapes :
    (Session.runSource "big() + big()" Machine.globalScope
      ((Session.start false 0 []).hosting
        (integerHost (Nat.pow 10 400)))).result =
      .error (.fault .integerTooLarge) :=
  sum_of_oversized (by decide +kernel)

end Scriptlet
