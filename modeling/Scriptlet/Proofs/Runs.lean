import Scriptlet.Proofs.TypeSafety
import Scriptlet.Session

/-!
# Running texts

A session in which only texts are run keeps its scopes safe, one text after
the other. The programs it has loaded are those of its texts that parse
(`Programs.ofSources`), and each text either runs to a value or fails in an
expected way: it does not parse, it nests too deeply, or its evaluation
ends with one of four errors (`texts_run_safely`). The stores that come up
while a text runs are safe as well, in the middle of its statements and
calls (`Session.Passes`).
-/

namespace Scriptlet

/-! ## Statements of a program -/

def programVisits (setting : Setting) (site : Site) (scope : ScopeId)
    (statements : List Node) (m : Machine) : List Visit :=
  rowVisits (evalStatement setting site scope) setting.limit site scope 0
    statements m

theorem evaluatesIn_evalStatement (setting : Setting) (site : Site)
    (scope : ScopeId) : EvaluatesIn setting setting.limit site scope
      (evalStatement setting site scope) := by
  intro i statement m
  unfold evalStatement runStatement Visit.after Visit.outcome
  rw [Step.bind_apply]
  cases evaluate setting setting.limit statement (site.child i) scope m with
  | done v m₁ => exact Eval.store_record_return setting 1 _ v m₁
  | failed f m₁ => rfl

theorem frame_runStatements (setting : Setting) (site : Site)
    (scope : ScopeId) (statements : List Node) (m : Machine) :
    Store.Frame scope (fun _ => True) m.store
      (runStatements setting site scope statements m).state.store := by
  rw [runStatements_eq, evalLast_state]
  exact frame_evalEach (evaluatesIn_evalStatement setting site scope) 0
    statements m

theorem safeEvaluator_evalStatement (programs : Programs) (setting : Setting)
    (site : Site) (scope : ScopeId) :
    SafeEvaluator programs site scope (evalStatement setting site scope) := by
  intro i statement m hstands hscope
  exact .runStatement (traceable_safeValue programs setting)
    (safeLaw programs setting setting.limit statement _ scope m hstands hscope)

/-! ## Loaded programs -/

/-- The programs together with the one that a text holds, if it holds
one. -/
def Programs.adding (limit : Nat) (programs : Programs) (source : String) :
    Programs where
  loaded := programs.loaded ++ (parseProgram limit source).toOption.toList
  isStatement := by
    intro statements hmem
    rcases List.mem_append.mp hmem with hmem | hmem
    · exact programs.isStatement statements hmem
    · cases hparse : parseProgram limit source with
      | error e =>
          rw [hparse] at hmem
          exact absurd hmem List.not_mem_nil
      | ok nodes =>
          rw [hparse] at hmem
          rw [List.mem_singleton.mp hmem]
          exact isStatement_of_parseProgram hparse

/-- The programs that texts hold, in the order of the texts. -/
def Programs.ofSources (limit : Nat) (sources : List String) : Programs :=
  sources.foldl (Programs.adding limit)
    ⟨[], fun _ h => (List.not_mem_nil h).elim⟩

theorem Programs.adding_extends (limit : Nat) (programs : Programs)
    (source : String) : (programs.adding limit source).Extends programs :=
  ⟨_, rfl⟩

theorem Programs.adding_of_error {limit : Nat} {source : String}
    {e : ParseFailure} (h : parseProgram limit source = .error e)
    (programs : Programs) :
    (programs.adding limit source).loaded = programs.loaded := by
  show programs.loaded ++ (parseProgram limit source).toOption.toList = _
  rw [h]
  exact List.append_nil _

theorem Programs.adding_of_ok {limit : Nat} {source : String}
    {statements : List Node} (h : parseProgram limit source = .ok statements)
    (programs : Programs) :
    (programs.adding limit source).loaded =
      programs.loaded ++ [statements] := by
  show programs.loaded ++ (parseProgram limit source).toOption.toList = _
  rw [h]
  rfl

/-- The statements of a loaded program stand at their sites. -/
theorem Programs.rowStands_of_loaded {programs : Programs} {unit : Nat}
    {statements : List Node} (h : programs.loaded[unit]? = some statements) :
    RowStands programs ⟨unit, []⟩ 0 statements := by
  have hroot : Site.node? programs ⟨unit, []⟩ =
      some (.sequence statements) := by
    unfold Site.node?
    rw [h]
    rfl
  intro k statement hk
  rw [Nat.zero_add]
  exact ⟨programs.isStatement statements (List.mem_of_getElem? h) statement
    (List.mem_of_getElem? hk), Site.node?_child hroot hk⟩

/-- The statements of the program that was loaded last stand at their
sites. -/
theorem Programs.rowStands_adding {limit : Nat} {source : String}
    {statements : List Node} (h : parseProgram limit source = .ok statements)
    (programs : Programs) :
    RowStands (programs.adding limit source) ⟨programs.loaded.length, []⟩ 0
      statements := by
  refine rowStands_of_loaded ?_
  rw [adding_of_ok h, List.getElem?_concat_length]

/-! ## Sessions -/

namespace Session

/-- A new session with a bound on nesting of its own. -/
def startWithin (limit : Nat) (lexical : Bool) (level : Int)
    (input : List Char) : Session :=
  { start lexical level input with setting := ⟨lexical, level, limit, []⟩ }

/-- The session when texts have been run in the global scope, one after the
other, whether they failed or not. -/
def runAll (s : Session) (sources : List String) : Session :=
  sources.foldl
    (fun s source => (runSource source Machine.globalScope s).state) s

def ranTo (s : Session) (m : Machine) : Session :=
  { s with machine := m, units := s.units + 1 }

section

variable {s : Session} {source : String} {scope : ScopeId}
  {statements : List Node}

theorem loadProgram_of_error {e : ParseFailure}
    (h : parseProgram s.setting.limit source = .error e) :
    loadProgram source s = .failed (Failure.ofParse e) s := by
  unfold loadProgram
  rw [Step.bind_apply, Step.get_apply]
  dsimp only
  rw [h]
  rfl

theorem loadProgram_of_ok
    (h : parseProgram s.setting.limit source = .ok statements) :
    loadProgram source s =
      .done ⟨⟨s.units, []⟩, statements⟩ { s with units := s.units + 1 } := by
  unfold loadProgram
  rw [Step.bind_apply, Step.get_apply]
  dsimp only
  rw [h]
  rfl

/-- A text that does not parse changes nothing. -/
theorem runSource_of_error {e : ParseFailure}
    (h : parseProgram s.setting.limit source = .error e) :
    runSource source scope s = .failed (Failure.ofParse e) s := by
  unfold runSource
  rw [Step.bind_apply, loadProgram_of_error h]

theorem runSource_of_ok
    (h : parseProgram s.setting.limit source = .ok statements) :
    runSource source scope s = runNodes statements scope s := by
  unfold runSource
  rw [Step.bind_apply, loadProgram_of_ok h]
  rfl

/-- What is loaded runs at the site that comes next. -/
theorem load_perform_eq {α : Type} (action : Site → Setting → Eval α)
    (s : Session) :
    (load >>= fun site => perform (action site)) s =
      match action ⟨s.units, []⟩ s.setting s.machine with
      | .done v m => .done v (s.ranTo m)
      | .failed f m => .failed (.fault f) (s.ranTo m) := by
  rw [Step.bind_apply]
  unfold load perform
  dsimp only
  cases action ⟨s.units, []⟩ s.setting s.machine <;> rfl

theorem runNodes_eq (statements : List Node) (scope : ScopeId)
    (s : Session) :
    runNodes statements scope s =
      match runStatements s.setting ⟨s.units, []⟩ scope statements
        s.machine with
      | .done v m => .done v (s.ranTo m)
      | .failed f m => .failed (.fault f) (s.ranTo m) := by
  have h : runNodes statements scope s = _ := load_perform_eq
    (fun site setting => runStatements setting site scope statements) s
  rw [h]
  cases runStatements s.setting ⟨s.units, []⟩ scope statements s.machine <;>
    rfl

theorem evaluateNode_eq (node : Node) (scope : ScopeId) (s : Session) :
    evaluateNode node scope s =
      match evaluate s.setting s.setting.limit node ⟨s.units, []⟩ scope
        s.machine with
      | .done v m => .done v (s.ranTo m)
      | .failed f m => .failed (.fault f) (s.ranTo m) := by
  have h : evaluateNode node scope s = _ := load_perform_eq
    (fun site setting => evaluate setting setting.limit node site scope) s
  rw [h]
  cases evaluate s.setting s.setting.limit node ⟨s.units, []⟩ scope
    s.machine <;> rfl

theorem setting_runSource (source : String) (scope : ScopeId) (s : Session) :
    (runSource source scope s).state.setting = s.setting := by
  cases hparse : parseProgram s.setting.limit source with
  | error e =>
      rw [runSource_of_error hparse]
      rfl
  | ok statements =>
      rw [runSource_of_ok hparse, runNodes_eq]
      split <;> rfl

end

/-- The scopes are safe, and the next site is that of the next program. -/
structure Safe (programs : Programs) (s : Session) : Prop where
  store : s.machine.store.Safe programs
  global_lt : Machine.globalScope < s.machine.store.size
  units_eq : s.units = programs.loaded.length

end Session

def Failure.Expected : Failure → Prop
  | .parse _ => True
  | .fault f => f.Expected

namespace Session

theorem safe_startWithin (limit : Nat) (lexical : Bool) (level : Int)
    (input : List Char) :
    (startWithin limit lexical level input).Safe
      (Programs.ofSources limit []) :=
  ⟨Store.Safe.initial _, Nat.one_pos, rfl⟩

section

variable {programs : Programs} {s : Session} {source : String}
  {scope : ScopeId}

/-- A program that was just parsed runs safely in a scope that exists. -/
theorem Safe.runStatements (h : s.Safe programs)
    (hscope : scope < s.machine.store.size) {statements : List Node}
    (hparse : parseProgram s.setting.limit source = .ok statements) :
    Safely (programs.adding s.setting.limit source)
      (SafeValue (programs.adding s.setting.limit source))
      (Scriptlet.runStatements s.setting ⟨s.units, []⟩ scope statements)
      s.machine := by
  rw [runStatements_eq, h.units_eq]
  exact ((safeEvaluator_evalStatement _ s.setting _ scope).each
    (Programs.rowStands_adding hparse programs)).evalLast hscope .nil

theorem Safe.ranTo (h : s.Safe programs) {statements : List Node}
    (hparse : parseProgram s.setting.limit source = .ok statements)
    {m : Machine} (hle : s.machine.store.size ≤ m.store.size)
    (hm : m.store.Safe (programs.adding s.setting.limit source)) :
    (s.ranTo m).Safe (programs.adding s.setting.limit source) where
  store := hm
  global_lt := Nat.lt_of_lt_of_le h.global_lt hle
  units_eq := by
    rw [Programs.adding_of_ok hparse, List.length_append, ← h.units_eq]
    rfl

/-- Running a text keeps a session safe. -/
theorem Safe.runSource (h : s.Safe programs)
    (hscope : scope < s.machine.store.size) (source : String) :
    (Session.runSource source scope s).Ensures
      (fun v s' => s'.Safe (programs.adding s.setting.limit source) ∧
        v.Safe (programs.adding s.setting.limit source)
          s'.machine.store.size)
      fun failure s' => s'.Safe (programs.adding s.setting.limit source) ∧
        failure.Expected := by
  have hstore := h.store.mono
    (Programs.adding_extends s.setting.limit programs source)
  cases hparse : parseProgram s.setting.limit source with
  | error e =>
      rw [runSource_of_error hparse]
      refine ⟨⟨hstore, h.global_lt, ?_⟩, ?_⟩
      · rw [Programs.adding_of_error hparse]
        exact h.units_eq
      · cases e <;> trivial
  | ok statements =>
      have hsafe := h.runStatements hscope hparse hstore
      have hle := (frame_runStatements s.setting ⟨s.units, []⟩ scope
        statements s.machine).size_le
      rw [runSource_of_ok hparse, runNodes_eq]
      cases hrun : Scriptlet.runStatements s.setting ⟨s.units, []⟩ scope
        statements s.machine with
      | done v m =>
          rw [hrun] at hsafe hle
          obtain ⟨hm, -, hv⟩ := hsafe
          exact ⟨h.ranTo hparse hle hm, hv⟩
      | failed f m =>
          rw [hrun] at hsafe hle
          exact ⟨h.ranTo hparse hle hsafe.1, hsafe.2⟩

theorem Safe.state_runSource (h : s.Safe programs)
    (hscope : scope < s.machine.store.size) (source : String) :
    (Session.runSource source scope s).state.Safe
      (programs.adding s.setting.limit source) :=
  Outcome.leaves_iff.mp ((h.runSource hscope source).imp
    (fun _ _ hdone => hdone.1) fun _ _ hfailed => hfailed.1)

/-- A session stays safe however many texts it runs. -/
theorem Safe.runAll {limit : Nat} (h : s.Safe programs)
    (hlimit : s.setting.limit = limit) (sources : List String) :
    (s.runAll sources).Safe (sources.foldl (Programs.adding limit) programs) ∧
      (s.runAll sources).setting.limit = limit := by
  induction sources generalizing s programs with
  | nil => exact ⟨h, hlimit⟩
  | cons source rest ih =>
      have hstep := h.state_runSource h.global_lt source
      rw [hlimit] at hstep
      refine ih hstep ?_
      rw [setting_runSource]
      exact hlimit

/-! ## States of a run -/

/-- The stores that there are when a text is run: before and after the run,
and before and after each evaluation in it. -/
def Passes (s : Session) (source : String) (store : Store) : Prop :=
  store = s.machine.store ∨
  store = (Session.runSource source Machine.globalScope
    s).state.machine.store ∨
  ∃ statements top v, parseProgram s.setting.limit source = .ok statements ∧
    top ∈ programVisits s.setting ⟨s.units, []⟩ Machine.globalScope statements
      s.machine ∧
    Visits s.setting top v ∧
    (store = v.before ∨ store = v.after s.setting)

theorem Safe.passes (h : s.Safe programs) {store : Store}
    (hstore : s.Passes source store) :
    store.Safe (programs.adding s.setting.limit source) := by
  have hbefore := h.store.mono
    (Programs.adding_extends s.setting.limit programs source)
  rcases hstore with rfl | rfl | ⟨statements, top, v, hparse, htop, hv, hcase⟩
  · exact hbefore
  · exact (h.state_runSource h.global_lt source).store
  · unfold programVisits at htop
    rw [h.units_eq] at htop
    have hready := ready_of_mem_rowVisits
      (safeEvaluator_evalStatement _ s.setting _ Machine.globalScope)
      (Programs.rowStands_adding hparse programs) h.global_lt hbefore htop
    rcases hcase with rfl | rfl
    · exact (hready.of_visits hv).store
    · exact (hready.of_visits hv).after

end

end Session

/-- **Type safety.** A text that is run in a session of texts runs to a safe
value, or it fails in an expected way; and at no point of the run there is
a binding with a value that is not safe. -/
theorem texts_run_safely (limit : Nat) (lexical : Bool) (level : Int)
    (input : List Char) (sources : List String) (source : String) :
    let s := (Session.startWithin limit lexical level input).runAll sources
    let programs := Programs.ofSources limit (sources ++ [source])
    let run := Session.runSource source Machine.globalScope s
    ((∃ v, run.result = .ok v ∧ v.Safe programs run.state.machine.store.size) ∨
      ∃ failure, run.result = .error failure ∧ failure.Expected) ∧
    ∀ store, s.Passes source store → store.Safe programs := by
  intro s programs run
  obtain ⟨hsafe, hlimit⟩ :=
    (Session.safe_startWithin limit lexical level input).runAll rfl sources
  have hprograms : programs = (Programs.ofSources limit sources).adding
      s.setting.limit source := by
    show Programs.ofSources limit (sources ++ [source]) = _
    unfold Programs.ofSources
    rw [List.foldl_append, hlimit]
    rfl
  rw [hprograms]
  constructor
  · rcases (hsafe.runSource hsafe.global_lt source).result with
      ⟨v, hresult, -, hv⟩ | ⟨failure, hresult, -, hfailure⟩
    · exact Or.inl ⟨v, hresult, hv⟩
    · exact Or.inr ⟨failure, hresult, hfailure⟩
  · exact fun store hstore => hsafe.passes hstore

end Scriptlet
