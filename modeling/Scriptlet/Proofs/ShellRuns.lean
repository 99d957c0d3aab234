import Scriptlet.Proofs.Interactive
import Scriptlet.Proofs.ShellLines

/-!
# Texts in the shell and programs

A program is parsed as a whole and then run; the shell parses one statement,
evaluates it, prints its value and goes on. Both come upon the same
statements, and these do the same in both (`shell_executes_as_programs_run`).
The difference is in what happens at a syntax error: it keeps a program from
being run at all, while the shell has evaluated the statements in front of
it.
-/

namespace Scriptlet

namespace Shell

/-- The shell when the execution of a text has ended, one way or the
other. -/
def reported (ending : Except Failure Unit) : Step Failure Shell Unit :=
  match ending with
  | .ok () => pure ()
  | .error failure =>
    if failure.isProgramError then do
      within (Session.print ((← Step.get).highlight
        ("Error: " ++ failure.message) ++ "\n"))
    else Step.fail failure

/-- The shell reports how the execution of a text ended. -/
theorem execute_of_lift {source : String} {shell : Shell}
    {ending : Except Failure Unit} {session : Session}
    (h : Session.execute source shell.session = Step.lift ending session) :
    execute source shell =
      reported ending { shell with session := session } := by
  unfold execute within
  rw [h]
  cases ending with
  | ok _ => rfl
  | error failure =>
      unfold reported
      dsimp only [Step.lift_error]
      split <;> rfl

/-- The session in which the shell has reported something differs only in
what is written. -/
theorem reported_clear (ending : Except Failure Unit) (shell : Shell) :
    (reported ending shell).state.session.clear = shell.session.clear := by
  unfold reported
  cases ending with
  | ok _ => rfl
  | error failure =>
      dsimp only
      split <;> rfl

variable {failure : Failure}

theorem reported_programError (h : failure.isProgramError = true)
    (shell : Shell) : reported (.error failure) shell =
      within (Session.print
        (shell.highlight ("Error: " ++ failure.message) ++ "\n")) shell := by
  unfold reported
  dsimp only
  rw [if_pos h]
  rfl

theorem reported_escape (h : failure.isProgramError = false)
    (shell : Shell) :
    reported (.error failure) shell = .failed failure shell := by
  unfold reported
  dsimp only
  rw [if_neg (ne_true_of_eq_false h)]
  rfl

end Shell

section

variable {s : Session} {source : String}

/-- A text is run if all of it can be read. -/
theorem Session.runSource_of_read
    (h : (Reading.ofText s.setting.limit source).failure? = none) :
    runSource source Machine.globalScope s =
      runNodes (Reading.ofText s.setting.limit source).statements
        Machine.globalScope s := by
  refine runSource_of_ok ?_
  rw [parseProgram_eq_reading, Reading.result, h]

/-- A text has no effect if some of it cannot be read. -/
theorem Session.runSource_of_unread {e : ParseFailure}
    (h : (Reading.ofText s.setting.limit source).failure? = some e) :
    runSource source Machine.globalScope s = .failed (.ofParse e) s := by
  refine runSource_of_error ?_
  rw [parseProgram_eq_reading, Reading.result, h]

end

/-- **The shell executes a text as a program is run.** The statements that
the shell reads one after the other are those of the program, up to the
failure that parsing the program ends with; such a failure keeps the program
from being run. What the shell leaves behind is what running the statements
leaves, but for what is written. Both print what the statements print; the
shell adds the line for the value behind each one, and at the end it reports
the fault of the statement that failed or, if none did, the failure behind
the statements. What it cannot report, it fails with. This is if the values
can be printed; in a session of texts they can, and what fails there can be
reported. Both nest up to the same limit, whatever frames the shell itself has
on a stack. -/
theorem shell_executes_as_programs_run (shell : Shell) (source : String) :
    let s := shell.session
    let reading := Reading.ofText s.setting.limit source
    let t := s.transcript reading.statements
    let run := Session.runNodes reading.statements Machine.globalScope s
    let executed := Shell.execute source shell
    parseProgram s.setting.limit source = reading.result ∧
    (reading.failure? = none →
      Session.runSource source Machine.globalScope s = run) ∧
    (∀ e, reading.failure? = some e →
      Session.runSource source Machine.globalScope s =
        .failed (.ofParse e) s) ∧
    (t.Renders →
      run.result = t.result.mapError Failure.fault ∧
      run.state.machine.output = s.machine.output ++ t.printed ∧
      executed.state.session.clear = run.state.clear ∧
      executed.state.buffer = shell.buffer ∧
      (t.ending reading.failure? = .ok () → executed.result = .ok () ∧
        executed.state.session.machine.output =
          s.machine.output ++ t.echoed) ∧
      ∀ failure, t.ending reading.failure? = .error failure →
        (failure.isProgramError = true → executed.result = .ok () ∧
          executed.state.session.machine.output =
            s.machine.output ++ t.echoed ++
              (shell.highlight ("Error: " ++ failure.message) ++ "\n")) ∧
        (failure.isProgramError = false → executed.result = .error failure ∧
          executed.state.session.machine.output =
            s.machine.output ++ t.echoed)) ∧
    (s.Interactive → t.Renders ∧
      ∀ failure, t.ending reading.failure? = .error failure →
        failure.isProgramError = true) := by
  intro s reading t run executed
  refine ⟨parseProgram_eq_reading _ _, Session.runSource_of_read,
    fun e => Session.runSource_of_unread, fun ht => ?_, fun hs => ?_⟩
  · obtain ⟨trace, hrun⟩ := Session.runNodes_eq_transcript rfl ht
    obtain ⟨trace', hexecute⟩ := Session.execute_eq_transcript rfl rfl ht
    have hshell := Shell.execute_of_lift hexecute
    refine ⟨?_, ?_, ?_, Shell.buffer_execute source shell, ?_, ?_⟩
    · exact (congrArg Outcome.result hrun).trans (Step.result_lift _ _)
    · rw [show run = _ from hrun, Step.state_lift]
      rfl
    · rw [show run = _ from hrun, show executed = _ from hshell,
        Step.state_lift, Shell.reported_clear]
      rfl
    · intro hending
      rw [show executed = _ from hshell, hending]
      exact ⟨rfl, rfl⟩
    · intro failure hending
      rw [show executed = _ from hshell, hending]
      constructor
      · intro herror
        rw [Shell.reported_programError herror]
        exact ⟨rfl, rfl⟩
      · intro hescape
        rw [Shell.reported_escape hescape]
        exact ⟨rfl, rfl⟩
  · obtain ⟨programs, hsafe⟩ := hs.safe
    have ht := hsafe.transcript source
    exact ⟨ht.renders, fun failure => ht.isProgramError⟩

end Scriptlet
