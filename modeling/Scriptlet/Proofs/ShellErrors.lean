import Scriptlet.Proofs.ShellRuns

/-!
# Errors in the shell

Nothing that is entered ends the shell except the two commands for it
(`no_line_ends_the_shell`). A line is kept, or run as the end of a text, and
what can go wrong in a text is reported: it does not parse, or one of its
statements fails in an expected way. When that happens the buffer is empty,
and the scopes are those which the statements in front of the failing one
have left, because a failing statement has no effect on them.
-/

namespace Scriptlet

/-! ## Statements in front of a failure -/

namespace Session

/-- The execution of a text stopped with a failure behind the first `k`
statements, which have left the session `s₁`: the next one fails, or there is
none and the text does not go on as it should. -/
inductive StopsBehind (s : Session) (reading : Reading) (k : Nat)
    (s₁ : Session) : Failure → Prop
  | fault {statement : Node} {f : Fault} {m : Machine} :
      reading.statements[k]? = some statement →
      evaluate s.setting s.setting.limit statement ⟨s.units, [k]⟩
        Machine.globalScope s₁.machine = .failed f m →
      StopsBehind s reading k s₁ (.fault f)
  | parse {e : ParseFailure} : k = reading.statements.length →
      reading.failure? = some e → StopsBehind s reading k s₁ (.ofParse e)

section

variable {programs : Programs} {s s' : Session} {statements : List Node}

/-- Statements that fail leave the scopes as those in front of the failing
one left them. -/
theorem of_runNodes_failed {failure : Failure}
    (hrow : RowStands programs ⟨s.units, []⟩ 0 statements)
    (hscope : Machine.globalScope < s.machine.store.size)
    (hstore : s.machine.store.Safe programs)
    (hrun : runNodes statements Machine.globalScope s =
      .failed failure s') :
    ∃ k statement v s₁ f, statements[k]? = some statement ∧
      runNodes (statements.take k) Machine.globalScope s = .done v s₁ ∧
      failure = .fault f ∧
      evaluate s.setting s.setting.limit statement ⟨s.units, [k]⟩
        Machine.globalScope s₁.machine = .failed f s'.machine ∧
      ∀ id, id < s₁.machine.store.size →
        s'.machine.store.scope? id = s₁.machine.store.scope? id := by
  rw [runNodes_eq] at hrun
  cases hprogram : runStatements s.setting ⟨s.units, []⟩
    Machine.globalScope statements s.machine with
  | done v m =>
      rw [hprogram] at hrun
      cases hrun
  | failed f m =>
      rw [hprogram] at hrun
      cases hrun
      obtain ⟨k, statement, v, m₁, hk, hfront, hfailed, -, hkept⟩ :=
        of_runStatements_failed hrow hscope hstore hprogram
      refine ⟨k, statement, v, s.ranTo m₁, f, hk, ?_, rfl, hfailed, hkept⟩
      rw [runNodes_eq, hfront]

end

/-- A text whose execution fails has left the scopes as the statements in
front of the failure left them. -/
theorem Safe.of_execute_failed {programs : Programs} {s s' : Session}
    {source : String} {failure : Failure} (h : s.Safe programs)
    (hfailed : Session.execute source s = .failed failure s') :
    let reading := Reading.ofText s.setting.limit source
    ∃ k v s₁, runNodes (reading.statements.take k) Machine.globalScope s =
        .done v s₁ ∧
      StopsBehind s reading k s₁ failure ∧
      ∀ id, id < s₁.machine.store.size →
        s'.machine.store.scope? id = s₁.machine.store.scope? id := by
  intro reading
  have ht := (h.transcript source).renders
  obtain ⟨trace, hrun⟩ := runNodes_eq_transcript rfl ht
  obtain ⟨trace', hexecute⟩ := execute_eq_transcript rfl rfl ht
  rw [hfailed] at hexecute
  unfold Transcript.ending at hexecute
  cases hresult : (s.transcript reading.statements).result with
  | error f =>
      rw [hresult] at hrun hexecute
      cases hexecute
      obtain ⟨k, statement, v, s₁, g, hk, hfront, hfault, heval, hkept⟩ :=
        of_runNodes_failed (h.rowStands source) h.global_lt
          (h.store_loading source) hrun
      cases hfault
      exact ⟨k, v, s₁, hfront, .fault hk heval, hkept⟩
  | ok v =>
      rw [hresult] at hrun hexecute
      cases hfailure : reading.failure? with
      | none =>
          rw [hfailure] at hexecute
          cases hexecute
      | some e =>
          rw [hfailure] at hexecute
          cases hexecute
          -- All statements were run, and the scopes are what they left.
          have hall := congrArg (runNodes · Machine.globalScope s)
            (List.take_length (l := reading.statements))
          exact ⟨_, v, _, hall.trans hrun, .parse rfl hfailure,
            fun id _ => rfl⟩

end Session

namespace Shell

/-! ## Entering lines -/

section

variable {shell : Shell}

/-- Executing a text keeps the session interactive. -/
theorem interactive_execute (h : shell.session.Interactive)
    (source : String) :
    (execute source shell).state.session.Interactive := by
  have hexecute := h.execute source
  unfold execute within
  cases hrun : Session.execute source shell.session with
  | done _ session =>
      rw [hrun] at hexecute
      exact hexecute
  | failed failure session =>
      rw [hrun] at hexecute
      dsimp only
      split
      · exact hexecute.print _
      · exact hexecute

theorem interactive_enter (h : shell.session.Interactive) (line : String) :
    (enter line shell).state.session.Interactive := by
  by_cases hcommand : stripped line ∈ ["", "exit", "EOF"]
  · obtain ⟨text, -, henter⟩ := enter_of_command hcommand shell
    rw [henter]
    exact h.print text
  · cases hmore : needsMoreInput (shell.buffer ++ stripped line ++ "\n") with
    | true =>
        rw [enter_of_open hcommand hmore]
        exact h
    | false =>
        rw [enter_of_complete hcommand hmore, Step.state_bind_pure]
        have hcleared : shell.cleared.session.Interactive := h
        exact interactive_execute hcleared _

theorem interactive_after (h : shell.session.Interactive)
    (lines : List String) : (after lines shell).session.Interactive := by
  induction lines generalizing shell with
  | nil => exact h
  | cons line rest ih => exact ih (interactive_enter h line)

/-- A text whose execution fails is reported. -/
theorem execute_of_failed (h : shell.session.Interactive) {source : String}
    {failure : Failure} {session : Session}
    (hfailed : Session.execute source shell.session =
      .failed failure session) :
    execute source shell =
      within (Session.print
        (shell.highlight ("Error: " ++ failure.message) ++ "\n"))
        { shell with session := session } := by
  obtain ⟨programs, hsafe⟩ := h.safe
  have ht := hsafe.transcript source
  obtain ⟨trace, hexecute⟩ :=
    Session.execute_eq_transcript rfl rfl ht.renders
  have hending := congrArg Outcome.result (hexecute.symm.trans hfailed)
  rw [Step.result_lift] at hending
  have hlift : Session.execute source shell.session =
    Step.lift (.error failure) session := hfailed
  rw [execute_of_lift hlift, reported_programError (ht.isProgramError hending)]

theorem execute_returns (h : shell.session.Interactive) (source : String) :
    ∃ shell', execute source shell = .done () shell' := by
  cases hrun : Session.execute source shell.session with
  | done _ session =>
      have hlift : Session.execute source shell.session =
        Step.lift (.ok ()) session := hrun
      rw [execute_of_lift hlift]
      exact ⟨_, rfl⟩
  | failed failure session =>
      rw [execute_of_failed h hrun]
      exact ⟨_, rfl⟩

/-- Every line is taken in, and only two of them ask to leave. -/
theorem enter_returns (h : shell.session.Interactive) (line : String) :
    ∃ stop shell', enter line shell = .done stop shell' ∧
      (stop = true ↔ stripped line ∈ ["exit", "EOF"]) := by
  by_cases hcommand : stripped line ∈ ["", "exit", "EOF"]
  · obtain ⟨text, -, henter⟩ := enter_of_command hcommand shell
    exact ⟨_, _, henter, decide_eq_true_iff⟩
  · have hstay : false = true ↔ stripped line ∈ ["exit", "EOF"] :=
      ⟨Bool.noConfusion, fun hleave =>
        absurd (List.mem_cons_of_mem _ hleave) hcommand⟩
    cases hmore : needsMoreInput (shell.buffer ++ stripped line ++ "\n") with
    | true => exact ⟨_, _, enter_of_open hcommand hmore, hstay⟩
    | false =>
        have hcleared : shell.cleared.session.Interactive := h
        obtain ⟨shell', hexecute⟩ := execute_returns hcleared
          (shell.buffer ++ stripped line ++ "\n")
        refine ⟨false, shell', ?_, hstay⟩
        rw [enter_of_complete hcommand hmore, Step.bind_apply, hexecute]
        rfl

end

end Shell

/-- **Nothing that is entered ends the shell.** Whatever lines were entered
before, the next one is taken in, and it asks to leave exactly if it is
`exit` or `EOF`. If the text that it completes fails, then behind some of
its statements, and the shell goes on with an empty buffer, with the prompt
for a new text, and with the scopes as these statements have left them. -/
theorem no_line_ends_the_shell (highlight : String → String) (limit : Nat)
    (lexical : Bool) (level : Int) (input : List Char) (lines : List String)
    (line : String) :
    let shell := Shell.after lines
      (Shell.start highlight (Session.startWithin limit lexical level input))
    ∃ stop shell', Shell.enter line shell = .done stop shell' ∧
      (stop = true ↔ Shell.stripped line ∈ ["exit", "EOF"]) ∧
      ∀ source failure session,
        Shell.completed? line shell = some source →
        Session.execute source shell.session = .failed failure session →
        shell'.buffer = "" ∧ shell'.prompt = ">> " ∧
        ∃ k v s₁, let reading :=
            Reading.ofText shell.session.setting.limit source
          Session.runNodes (reading.statements.take k) Machine.globalScope
            shell.session = .done v s₁ ∧
          shell.session.StopsBehind reading k s₁ failure ∧
          ∀ id, id < s₁.machine.store.size →
            shell'.session.machine.store.scope? id =
              s₁.machine.store.scope? id := by
  intro shell
  have hshell : shell.session.Interactive :=
    Shell.interactive_after (.start limit lexical level input) lines
  obtain ⟨stop, shell', henter, hstop⟩ := Shell.enter_returns hshell line
  refine ⟨stop, shell', henter, hstop, ?_⟩
  intro source failure session hsource hfailed
  have hcleared : shell.cleared.session.Interactive := hshell
  have hrun := Shell.handsOver_completed? line shell
  rw [hsource] at hrun
  -- The text is run in the cleared shell, and reporting the failure changes
  -- nothing but the output.
  replace hrun : Shell.enter line shell = _ := hrun
  rw [henter, Step.bind_apply, Shell.execute_of_failed hcleared hfailed] at hrun
  cases hrun
  refine ⟨rfl, rfl, ?_⟩
  obtain ⟨programs, hsafe⟩ := hshell.safe
  obtain ⟨k, v, s₁, hfront, hstops, hkept⟩ := hsafe.of_execute_failed hfailed
  exact ⟨k, v, s₁, hfront, hstops, hkept⟩

end Scriptlet
