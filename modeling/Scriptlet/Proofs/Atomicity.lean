import Scriptlet.Proofs.Runs

/-!
# Statements that fail

A statement of a program takes effect as a whole or not at all: if it
fails, every scope that was there when it began is as it was, whatever its
calls did before the failure (`Visit.Ready.kept_of_failed`). A program
that fails has therefore left the scopes that its statements in front of
the failing one left (`failing_statement_has_no_effect`).

An expression binds nothing in the scopes that were there, as the frame
law says. An assignment binds its name when its right side has a value,
and a definition binds its name at once; what comes behind that is only
the trace, and tracing a safe value does not fail.
-/

namespace Scriptlet

/-! ## Actions that do not fail -/

def Finishes {α : Type} (action : Eval α) (m : Machine) : Prop :=
  ∃ a m', action m = .done a m'

namespace Finishes

variable {α : Type} {m : Machine}

theorem pure (a : α) : Finishes (Pure.pure a) m := ⟨a, m, rfl⟩

theorem nameOf_bind {word : String} {next : Name → Eval α}
    (h : Finishes (next (.text word)) m) :
    Finishes (Eval.nameOf (.text word) >>= next) m := h

theorem get_bind {next : Machine → Eval α} (h : Finishes (next m) m) :
    Finishes (Step.get >>= next) m := h

theorem bindName_bind {scope : ScopeId} {name : Name} {value : Value}
    {next : Unit → Eval α} (h : ∀ m', Finishes (next ()) m') :
    Finishes (Eval.bind scope name value >>= next) m := h _

theorem record_bind (setting : Setting) (required : Int)
    {event : Unit → Except Fault Event} {e : Event}
    (hevent : event () = .ok e) {next : Unit → Eval α}
    (h : ∀ m', Finishes (next ()) m') :
    Finishes (Eval.record setting required event >>= next) m := by
  obtain ⟨m', hrecord, -⟩ := Eval.record_of_ok setting required hevent m
  unfold Finishes
  rw [Step.bind_apply, hrecord]
  exact h m'

theorem ne_failed {action : Eval α} (h : Finishes action m) {f : Fault}
    {m' : Machine} : action m ≠ .failed f m' := by
  obtain ⟨a, m₁, hdone⟩ := h
  rw [hdone]
  exact nofun

end Finishes

/-! ## One statement -/

section

variable {programs : Programs} {setting : Setting} {limit : Nat}
  {site : Site} {scope : ScopeId} {m m' : Machine} {f : Fault}

/-- A definition does not fail. -/
theorem finishes_define (setting : Setting) (limit : Nat) (name : String)
    (params : List String) (body : List Node) (site : Site)
    (scope : ScopeId) (m : Machine) :
    Finishes (evaluate setting (limit + 1)
      (.define (.text name) (params.map .text) body) site scope) m := by
  rw [evaluate]
  refine Finishes.nameOf_bind (Finishes.bindName_bind fun m₁ => ?_)
  exact Finishes.record_bind setting 2 (by rw [traceParams_text]; rfl)
    fun _ => .pure _

/-- An assignment fails where its right side does. -/
theorem value_failed_of_assign {name : String} {value : Node}
    (hvalue : Stands programs (site.child 0) value)
    (hscope : scope < m.store.size) (hm : m.store.Safe programs)
    (h : evaluate setting (limit + 1) (.assign (.text name) value) site scope
      m = .failed f m') :
    evaluate setting limit value (site.child 0) scope m = .failed f m' := by
  rw [evaluate] at h
  rcases Step.bind_eq_failed_iff.mp h with h | ⟨v, m₁, hdone, h⟩
  · exact h
  · -- The right side has a value, so only the trace is left to fail.
    have hsafe := safeLaw programs setting limit value _ scope m hvalue
      hscope hm
    rw [hdone] at hsafe
    obtain ⟨text, htext⟩ := Value.Safe.traceValue hsafe.2.2
    refine absurd h (Finishes.ne_failed ?_)
    refine Finishes.nameOf_bind (Finishes.bindName_bind fun m₂ => ?_)
    refine Finishes.get_bind ?_
    exact Finishes.record_bind setting 2 (by rw [htext]; rfl) fun _ => .pure v

theorem kept_of_expression {e : Node} (he : IsExpression e)
    (h : evaluate setting limit e site scope m = .failed f m') {id : ScopeId}
    (hid : id < m.store.size) :
    m'.store.scope? id = m.store.scope? id := by
  have hframe := frameLaw setting limit e site scope m
  unfold Within at hframe
  rw [h] at hframe
  exact Store.Frame.scope?_eq hframe he.not_binds hid

/-- A statement that fails leaves the scopes that were there as they
were. -/
theorem Visit.Ready.kept_of_failed {v : Visit} (h : v.Ready programs)
    (hfailed : v.outcome setting = .failed f m') {id : ScopeId}
    (hid : id < v.before.size) :
    m'.store.scope? id = v.before.scope? id := by
  obtain ⟨limit, node, site, scope, m⟩ := v
  have hchildren := h.stands.children
  cases limit with
  | zero =>
      cases hfailed
      rfl
  | succ limit =>
      cases h.stands.isStatement with
      | expression he => exact kept_of_expression he hfailed hid
      | assign _ hvalue =>
          exact kept_of_expression hvalue
            (value_failed_of_assign hchildren.head h.scope_lt h.store hfailed)
            hid
      | define _ _ _ =>
          -- A definition binds its name and then cannot fail.
          exact absurd hfailed (Finishes.ne_failed
            (finishes_define setting limit _ _ _ site scope m))

end

/-! ## Rows of statements -/

/-- A row fails at one of its nodes, when those in front of it have been
evaluated. -/
theorem evalLast_eq_failed {eval : Nat → Node → Eval Value} {index : Nat}
    {last : Value} {nodes : List Node} {m m' : Machine} {f : Fault}
    (h : evalLast eval index last nodes m = .failed f m') :
    ∃ k node v m₁, nodes[k]? = some node ∧
      evalLast eval index last (nodes.take k) m = .done v m₁ ∧
      eval (index + k) node m₁ = .failed f m' := by
  induction nodes generalizing index last m with
  | nil => cases h
  | cons node rest ih =>
      rcases Step.bind_eq_failed_iff.mp h with h | ⟨a, m₁, hdone, h⟩
      · exact ⟨0, node, last, m, rfl, rfl, h⟩
      · obtain ⟨k, failing, v, m₂, hk, hfront, hfailed⟩ := ih h
        refine ⟨k + 1, failing, v, m₂, hk, ?_, ?_⟩
        · exact Step.bind_eq_done_iff.mpr ⟨a, m₁, hdone, hfront⟩
        · rw [← hfailed, Nat.add_assoc, Nat.add_comm 1 k]

/-- A traced statement fails where the statement itself does. -/
theorem failed_of_evalStatement {programs : Programs} {setting : Setting}
    {site : Site} {scope : ScopeId} {i : Nat} {statement : Node}
    {m m' : Machine} {f : Fault}
    (hstands : Stands programs (site.child i) statement)
    (hscope : scope < m.store.size) (hm : m.store.Safe programs)
    (h : evalStatement setting site scope i statement m = .failed f m') :
    evaluate setting setting.limit statement (site.child i) scope m =
      .failed f m' := by
  rcases Step.bind_eq_failed_iff.mp h with h | ⟨v, m₁, hdone, h⟩
  · exact h
  · have hsafe := safeLaw programs setting setting.limit statement _ scope m
      hstands hscope hm
    rw [hdone] at hsafe
    obtain ⟨text, htext⟩ := Value.Safe.traceValue hsafe.2.2
    refine absurd h (Finishes.ne_failed ?_)
    exact Finishes.record_bind setting 1 (by rw [htext]; rfl) fun _ => .pure v

theorem RowStands.take {programs : Programs} {site : Site} {index : Nat}
    {nodes : List Node} (h : RowStands programs site index nodes) (k : Nat) :
    RowStands programs site index (nodes.take k) := by
  intro i node hi
  refine h i node ?_
  rw [List.getElem?_take] at hi
  split at hi
  · exact hi
  · cases hi

/-- A program that fails leaves the scopes as the statements in front of the
failing one left them. -/
theorem of_runStatements_failed {programs : Programs} {setting : Setting}
    {site : Site} {scope : ScopeId} {statements : List Node} {m m' : Machine}
    {f : Fault} (hrow : RowStands programs site 0 statements)
    (hscope : scope < m.store.size) (hm : m.store.Safe programs)
    (h : runStatements setting site scope statements m = .failed f m') :
    ∃ k statement v m₁, statements[k]? = some statement ∧
      runStatements setting site scope (statements.take k) m = .done v m₁ ∧
      evaluate setting setting.limit statement (site.child k) scope m₁ =
        .failed f m' ∧
      m.store.size ≤ m₁.store.size ∧
      ∀ id, id < m₁.store.size →
        m'.store.scope? id = m₁.store.scope? id := by
  rw [runStatements_eq] at h
  obtain ⟨k, statement, v, m₁, hk, hfront, hfailed⟩ := evalLast_eq_failed h
  have hsafe := ((safeEvaluator_evalStatement programs setting site scope).each
    (hrow.take k)).evalLast hscope .nil hm
  rw [hfront] at hsafe
  rw [← runStatements_eq] at hfront
  obtain ⟨hm₁, hle, -⟩ := hsafe
  have hscope₁ := Nat.lt_of_lt_of_le hscope hle
  have hstands := hrow k statement hk
  rw [Nat.zero_add] at hfailed hstands
  have heval := failed_of_evalStatement hstands hscope₁ hm₁ hfailed
  have hready : Visit.Ready programs
      ⟨setting.limit, statement, site.child k, scope, m₁⟩ :=
    ⟨hstands, hscope₁, hm₁⟩
  exact ⟨k, statement, v, m₁, hk, hfront, heval, hle,
    fun id hid => hready.kept_of_failed heval hid⟩

/-! ## Programs -/

namespace Session

/-- The sessions in which nothing but texts has been run. -/
inductive Reachable : Session → Prop
  | start (limit : Nat) (lexical : Bool) (level : Int) (input : List Char) :
      Reachable (startWithin limit lexical level input)
  | run {s : Session} (source : String) {scope : ScopeId} : Reachable s →
      scope < s.machine.store.size →
      Reachable (runSource source scope s).state

theorem Reachable.safe {s : Session} (h : s.Reachable) :
    ∃ programs, s.Safe programs := by
  induction h with
  | start limit lexical level input =>
      exact ⟨_, safe_startWithin limit lexical level input⟩
  | run source _ hscope ih =>
      obtain ⟨programs, hsafe⟩ := ih
      exact ⟨_, hsafe.state_runSource hscope source⟩

end Session

/-- **Atomicity of statements.** If a program fails, then at one of its
statements, and it leaves the scopes as they were in front of this one: the
statement has no effect on any scope that existed when it began. A text
that does not parse has no effect at all. -/
theorem failing_statement_has_no_effect {s : Session} (hs : s.Reachable)
    (source : String) {scope : ScopeId}
    (hscope : scope < s.machine.store.size) :
    (∀ statements fault s',
      parseProgram s.setting.limit source = .ok statements →
      Session.runSource source scope s = .failed (.fault fault) s' →
      ∃ k statement v s₁, statements[k]? = some statement ∧
        Session.runNodes (statements.take k) scope s = .done v s₁ ∧
        evaluate s.setting s.setting.limit statement ⟨s.units, [k]⟩ scope
          s₁.machine = .failed fault s'.machine ∧
        s.machine.store.size ≤ s₁.machine.store.size ∧
        ∀ id, id < s₁.machine.store.size →
          s'.machine.store.scope? id = s₁.machine.store.scope? id) ∧
    ∀ e, parseProgram s.setting.limit source = .error e →
      Session.runSource source scope s = .failed (Failure.ofParse e) s := by
  refine ⟨?_, fun e he => Session.runSource_of_error he⟩
  intro statements fault s' hparse hrun
  obtain ⟨programs, hsafe⟩ := hs.safe
  have hstore := hsafe.store.mono
    (Programs.adding_extends s.setting.limit programs source)
  have hrow := Programs.rowStands_adding hparse programs
  rw [← hsafe.units_eq] at hrow
  rw [Session.runSource_of_ok hparse, Session.runNodes_eq] at hrun
  cases hprogram : runStatements s.setting ⟨s.units, []⟩ scope statements
    s.machine with
  | done v m =>
      rw [hprogram] at hrun
      cases hrun
  | failed f m =>
      rw [hprogram] at hrun
      cases hrun
      obtain ⟨k, statement, v, m₁, hk, hfront, hfailed, hle, hkept⟩ :=
        of_runStatements_failed hrow hscope hstore hprogram
      refine ⟨k, statement, v, s.ranTo m₁, hk, ?_, hfailed, hle, hkept⟩
      rw [Session.runNodes_eq, hfront]

/-- A text whose last statement fails in a call, behind an assignment that
the call has made. -/
def failingText : String := "def f(x) y = x; g() end a = f; b = f(a)"

def failingProgram : List Node :=
  [.define (.text "f") [.text "x"]
      [.assign (.text "y") (.identifier (.text "x")),
        .call (.identifier (.text "g")) []],
    .assign (.text "a") (.identifier (.text "f")),
    .assign (.text "b")
      (.call (.identifier (.text "f")) [.identifier (.text "a")])]

def tracedSession : Session := Session.startWithin 20 true 3 []

theorem failing_call_has_no_effect :
    tracedSession.Reachable ∧
    Machine.globalScope < tracedSession.machine.store.size ∧
    parseProgram 20 failingText = .ok failingProgram ∧
    (∃ s' k v s₁,
      Session.runSource failingText Machine.globalScope tracedSession =
        .failed (.fault (.eval (.undefinedFunction (.text "g")))) s' ∧
      Session.runNodes (failingProgram.take k) Machine.globalScope
        tracedSession = .done v s₁ ∧
      ∀ id, id < s₁.machine.store.size →
        s'.machine.store.scope? id = s₁.machine.store.scope? id) ∧
    Session.runSource "a = (" Machine.globalScope tracedSession =
      .failed (.parse (.unexpected .operand ⟨.endOfInput, "", 5⟩))
        tracedSession := by
  have hreachable : tracedSession.Reachable := .start 20 true 3 []
  have hscope : Machine.globalScope < tracedSession.machine.store.size :=
    Nat.one_pos
  have hparse : parseProgram 20 failingText = .ok failingProgram := by cbv
  have hresult : (Session.runSource failingText Machine.globalScope
      tracedSession).result =
        .error (.fault (.eval (.undefinedFunction (.text "g")))) := by cbv
  have hreject : parseProgram 20 "a = (" =
      .error (.error (.unexpected .operand ⟨.endOfInput, "", 5⟩)) := by cbv
  have hrun := Outcome.eq_failed_of_result hresult
  refine ⟨hreachable, hscope, hparse, ?_, ?_⟩
  · obtain ⟨k, _, v, s₁, -, hfront, -, -, hkept⟩ :=
      (failing_statement_has_no_effect hreachable failingText hscope).1
        failingProgram _ _ hparse hrun
    exact ⟨_, k, v, s₁, hrun, hfront, hkept⟩
  · exact (failing_statement_has_no_effect hreachable "a = (" hscope).2 _
      hreject

end Scriptlet
