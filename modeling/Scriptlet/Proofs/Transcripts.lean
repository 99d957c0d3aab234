import Scriptlet.Proofs.Appending
import Scriptlet.Proofs.Atomicity
import Scriptlet.Proofs.ParserFuel

/-!
# Transcripts

A transcript says of each statement of a program, up to the first that
fails, what it printed and what became of it. Each statement is evaluated
where nothing is written yet, on what the one before has left; what was
written before makes no difference (`evaluate_of_blank`). Running a program and
executing a text in the shell have the same transcript, and differ in what
they write besides (`runNodes_eq_transcript`, `execute_eq_transcript`).
-/

namespace Scriptlet

structure Entry where
  printed : String
  result : Except Fault Value

namespace Entry

/-- The value, if there is one, can be printed. -/
def Renders (entry : Entry) : Prop :=
  ∀ v, entry.result = .ok v → ∃ text, v.display? = some text

/-- The line that the shell adds for the value. -/
def echo (entry : Entry) : String :=
  match entry.result with
  | .ok v => "=> " ++ v.display?.getD "" ++ "\n"
  | .error _ => ""

theorem echo_error (printed : String) (f : Fault) :
    echo ⟨printed, .error f⟩ = "" := rfl

end Entry

/-- What became of the statements of a program, and the machine that they
left, with nothing written on it. -/
structure Transcript where
  entries : List Entry
  machine : Machine

namespace Transcript

def empty (m : Machine) : Transcript := ⟨[], m.blank⟩

def cons (entry : Entry) (t : Transcript) : Transcript :=
  ⟨entry :: t.entries, t.machine⟩

def Renders (t : Transcript) : Prop := ∀ entry ∈ t.entries, entry.Renders

/-- The value of the last statement, or the fault of one that failed; `last`
is the value so far. -/
def resultFrom (last : Value) (t : Transcript) : Except Fault Value :=
  t.entries.foldlM (fun _ entry => entry.result) last

def result (t : Transcript) : Except Fault Value := t.resultFrom .nil

def printed (t : Transcript) : String :=
  String.join (t.entries.map (·.printed))

/-- What the statements printed, each with the line for its value. -/
def echoed (t : Transcript) : String :=
  String.join (t.entries.map fun entry => entry.printed ++ entry.echo)

/-- How the execution of a text ends: with the fault of a statement, or with
what stopped the reading of further ones. -/
def ending (t : Transcript) (failure? : Option ParseFailure) :
    Except Failure Unit :=
  match t.result, failure? with
  | .error f, _ => .error (.fault f)
  | .ok _, some e => .error (.ofParse e)
  | .ok _, none => .ok ()

theorem resultFrom_cons_ok (last v : Value) (printed : String)
    (t : Transcript) :
    (t.cons ⟨printed, .ok v⟩).resultFrom last = t.resultFrom v := rfl

theorem resultFrom_cons_error (last : Value) (f : Fault) (printed : String)
    (t : Transcript) :
    (t.cons ⟨printed, .error f⟩).resultFrom last = .error f := rfl

theorem ending_cons_ok (v : Value) (printed : String) (t : Transcript)
    (failure? : Option ParseFailure) :
    (t.cons ⟨printed, .ok v⟩).ending failure? = t.ending failure? := by
  unfold ending result
  rw [resultFrom_cons_ok]
  obtain ⟨entries, m⟩ := t
  cases entries with
  | nil => cases failure? <;> rfl
  | cons entry rest => rfl

theorem ending_cons_error (f : Fault) (printed : String) (t : Transcript)
    (failure? : Option ParseFailure) :
    (t.cons ⟨printed, .error f⟩).ending failure? = .error (.fault f) := rfl

theorem printed_empty (m : Machine) : (empty m).printed = "" := rfl

theorem printed_cons (entry : Entry) (t : Transcript) :
    (t.cons entry).printed = entry.printed ++ t.printed := by
  simp [printed, cons, String.join_cons]

theorem echoed_empty (m : Machine) : (empty m).echoed = "" := rfl

theorem echoed_cons (entry : Entry) (t : Transcript) :
    (t.cons entry).echoed = entry.printed ++ entry.echo ++ t.echoed := by
  simp [echoed, cons, String.join_cons]

end Transcript

/-- The transcript of statements in the global scope, numbered from `index`
on. -/
def transcript (setting : Setting) (site : Site) :
    Nat → List Node → Machine → Transcript
  | _, [], m => .empty m
  | index, node :: rest, m =>
    match evaluate setting setting.limit node (site.child index)
      Machine.globalScope m.blank with
    | .done v m' =>
      (transcript setting site (index + 1) rest m').cons ⟨m'.output, .ok v⟩
    | .failed f m' => (Transcript.empty m').cons ⟨m'.output, .error f⟩

section

variable {setting : Setting} {site : Site}

/-- What was written before does not show up in a transcript. -/
theorem transcript_wrote (index : Nat) (nodes : List Node) (m : Machine)
    (output : String) (trace : Array Event) :
    transcript setting site index nodes (m.wrote output trace) =
      transcript setting site index nodes m := by
  cases nodes <;> rfl

variable {index : Nat} {node : Node} {rest : List Node} {m m' : Machine}

theorem transcript_of_done {v : Value}
    (h : evaluate setting setting.limit node (site.child index)
      Machine.globalScope m.blank = .done v m') :
    transcript setting site index (node :: rest) m =
      (transcript setting site (index + 1) rest m').cons
        ⟨m'.output, .ok v⟩ := by
  rw [transcript, h]

theorem transcript_of_failed {f : Fault}
    (h : evaluate setting setting.limit node (site.child index)
      Machine.globalScope m.blank = .failed f m') :
    transcript setting site index (node :: rest) m =
      (Transcript.empty m').cons ⟨m'.output, .error f⟩ := by
  rw [transcript, h]

/-! ## Programs -/

/-- An event that can be put together only adds to the trace. -/
theorem Eval.record_wrote (setting : Setting) (required : Int)
    {event : Unit → Except Fault Event} {e : Event}
    (hevent : event () = .ok e) (m : Machine) :
    ∃ trace, Eval.record setting required event m =
      .done () (m.wrote m.output trace) := by
  unfold Eval.record
  split
  · rw [Step.bind_apply, hevent]
    by_cases htracing : m.tracing = true
    · exact ⟨m.trace.push e, congrArg (Outcome.done ()) (if_pos htracing)⟩
    · exact ⟨m.trace, congrArg (Outcome.done ()) (if_neg htracing)⟩
  · exact ⟨m.trace, rfl⟩

theorem evalStatement_of_done {v : Value}
    (hv : ∃ text, v.display? = some text)
    (h : evaluate setting setting.limit node (site.child index)
      Machine.globalScope m.blank = .done v m') :
    ∃ trace, evalStatement setting site Machine.globalScope index node m =
      .done v (m'.wrote (m.output ++ m'.output) trace) := by
  obtain ⟨text, htext⟩ := hv
  obtain ⟨trace, hrecord⟩ : ∃ trace, Eval.record setting 1 (fun _ => do
      return .statement node.form (← traceValue v))
      (m'.behind m.output m.trace) =
        .done () (m'.wrote (m.output ++ m'.output) trace) := by
    refine Eval.record_wrote (e := .statement node.form text) setting 1 ?_ _
    rw [traceValue, htext]
    rfl
  refine ⟨trace, ?_⟩
  rw [evalStatement, runStatement, Step.bind_apply, evaluate_of_done h]
  dsimp only
  rw [Step.bind_apply, hrecord]
  rfl

theorem evalStatement_of_failed {f : Fault}
    (h : evaluate setting setting.limit node (site.child index)
      Machine.globalScope m.blank = .failed f m') :
    evalStatement setting site Machine.globalScope index node m =
      .failed f (m'.wrote (m.output ++ m'.output) (m.trace ++ m'.trace)) := by
  rw [evalStatement, runStatement, Step.bind_apply, evaluate_of_failed h]
  rfl

/-- A program does what its transcript says. -/
theorem evalLast_eq_transcript {index : Nat} {nodes : List Node} {m : Machine}
    {t : Transcript} (ht : transcript setting site index nodes m = t)
    (h : t.Renders) (last : Value) :
    ∃ trace, evalLast (evalStatement setting site Machine.globalScope) index
        last nodes m =
      Step.lift (t.resultFrom last)
        (t.machine.wrote (m.output ++ t.printed) trace) := by
  induction nodes generalizing index last m t with
  | nil =>
      subst ht
      refine ⟨m.trace, ?_⟩
      rw [transcript, Transcript.printed_empty, String.append_empty]
      rfl
  | cons node rest ih =>
      rw [evalLast, Step.bind_apply]
      cases heval : evaluate setting setting.limit node (site.child index)
        Machine.globalScope m.blank with
      | failed f m' =>
          rw [transcript_of_failed heval] at ht
          subst ht
          refine ⟨m.trace ++ m'.trace, ?_⟩
          rw [evalStatement_of_failed heval, Transcript.resultFrom_cons_error,
            Transcript.printed_cons, Transcript.printed_empty,
            String.append_empty]
          rfl
      | done v m' =>
          rw [transcript_of_done heval] at ht
          subst ht
          obtain ⟨hv, hrest⟩ := List.forall_mem_cons.mp h
          obtain ⟨trace, hfirst⟩ := evalStatement_of_done (hv v rfl) heval
          obtain ⟨trace', hlast⟩ :=
            ih (transcript_wrote _ _ m' (m.output ++ m'.output) trace) hrest v
          refine ⟨trace', ?_⟩
          rw [hfirst]
          dsimp only
          rw [hlast, Transcript.resultFrom_cons_ok, Transcript.printed_cons,
            ← String.append_assoc]
          rfl

end

namespace Session

/-- The transcript of statements that are loaded now. -/
def transcript (s : Session) (statements : List Node) : Transcript :=
  Scriptlet.transcript s.setting ⟨s.units, []⟩ 0 statements s.machine

theorem runNodes_eq_transcript {s : Session} {statements : List Node}
    {t : Transcript} (ht : s.transcript statements = t) (h : t.Renders) :
    ∃ trace, runNodes statements Machine.globalScope s =
      Step.lift (t.result.mapError Failure.fault)
        (s.ranTo (t.machine.wrote (s.machine.output ++ t.printed) trace)) := by
  obtain ⟨trace, hrun⟩ := evalLast_eq_transcript ht h .nil
  refine ⟨trace, ?_⟩
  rw [runNodes_eq, runStatements_eq, hrun]
  unfold Transcript.result
  cases t.resultFrom .nil <;> rfl

/-! ## Texts in the shell -/

section

variable {s : Session} {site : Site} {index : Nat} {node : Node}
  {m' : Machine}

/-- A statement that has a value is executed, with what it printed and the
line for its value behind what was written, before the rest. -/
theorem executed_of_done {v : Value} (hv : Entry.Renders ⟨m'.output, .ok v⟩)
    (h : evaluate s.setting s.setting.limit node (site.child index)
      Machine.globalScope s.machine.blank = .done v m') (next : Act Unit) :
    (do
      let value ← perform fun setting => evaluate setting setting.limit node
        (site.child index) Machine.globalScope
      printResult value
      next : Act Unit) s =
      next { s with
        machine := m'.wrote
          (s.machine.output ++ (m'.output ++ Entry.echo ⟨m'.output, .ok v⟩))
          (s.machine.trace ++ m'.trace) } := by
  obtain ⟨text, htext⟩ := hv v rfl
  have hecho : Entry.echo ⟨m'.output, .ok v⟩ = "=> " ++ text ++ "\n" := by
    simp only [Entry.echo, htext, Option.getD_some]
  rw [Step.bind_apply, hecho, ← String.append_assoc]
  dsimp only [perform]
  rw [evaluate_of_done h]
  dsimp only
  rw [Step.bind_apply, printResult, htext]
  rfl

theorem executed_of_failed {f : Fault}
    (h : evaluate s.setting s.setting.limit node (site.child index)
      Machine.globalScope s.machine.blank = .failed f m')
    (next : Value → Act Unit) :
    (do
      let value ← perform fun setting => evaluate setting setting.limit node
        (site.child index) Machine.globalScope
      next value : Act Unit) s =
      .failed (.fault f) { s with
        machine := m'.wrote (s.machine.output ++ m'.output)
          (s.machine.trace ++ m'.trace) } := by
  rw [Step.bind_apply]
  dsimp only [perform]
  rw [evaluate_of_failed h]
  rfl

end

/-- No statement leaves everything as it is. -/
theorem wrote_empty (s : Session) :
    { s with
      machine := (Transcript.empty s.machine).machine.wrote
        (s.machine.output ++ (Transcript.empty s.machine).echoed)
        s.machine.trace } = s := by
  rw [Transcript.echoed_empty, String.append_empty]
  rfl

/-- The statements from a cursor on do what their transcript says. -/
theorem executeFrom_eq_transcript {site : Site} {count index : Nat}
    {c : Cursor} {s : Session} {reading : Reading} {t : Transcript}
    (hreading : Reading.fromCursor s.setting.limit count c = reading)
    (ht : Scriptlet.transcript s.setting site index reading.statements
      s.machine = t) (h : t.Renders) :
    ∃ trace, executeFrom site count index c s =
      Step.lift (t.ending reading.failure?) { s with
        machine := t.machine.wrote (s.machine.output ++ t.echoed) trace } := by
  induction count generalizing index c s reading t with
  | zero =>
      subst hreading ht
      refine ⟨s.machine.trace, ?_⟩
      rw [Reading.fromCursor, Scriptlet.transcript, wrote_empty]
      rfl
  | succ count ih =>
      rw [executeFrom, Step.bind_apply, Step.get_apply]
      rw [Reading.fromCursor] at hreading
      dsimp only
      cases hnext : Parse.nextStatement s.setting.limit c with
      | failed e c' =>
          rw [hnext] at hreading
          subst hreading ht
          refine ⟨s.machine.trace, ?_⟩
          rw [Scriptlet.transcript, wrote_empty]
          rfl
      | done node? c' =>
          rw [hnext] at hreading
          cases node? with
          | none =>
              subst hreading ht
              refine ⟨s.machine.trace, ?_⟩
              rw [Scriptlet.transcript, wrote_empty]
              rfl
          | some node =>
              subst hreading
              dsimp only [Reading.statements_cons, Reading.failure?_cons]
                at ht ⊢
              cases heval : evaluate s.setting s.setting.limit node
                (site.child index) Machine.globalScope s.machine.blank with
              | failed f m' =>
                  rw [transcript_of_failed heval] at ht
                  subst ht
                  refine ⟨s.machine.trace ++ m'.trace, ?_⟩
                  rw [executed_of_failed heval, Transcript.ending_cons_error,
                    Transcript.echoed_cons, Transcript.echoed_empty,
                    Entry.echo_error, String.append_empty,
                    String.append_empty]
                  rfl
              | done v m' =>
                  rw [transcript_of_done heval] at ht
                  subst ht
                  obtain ⟨hv, hrest⟩ := List.forall_mem_cons.mp h
                  rw [Transcript.ending_cons_ok, Transcript.echoed_cons,
                    ← String.append_assoc, executed_of_done hv heval]
                  exact ih (s := { s with machine := _ }) rfl
                    (transcript_wrote _ _ m' _ _) hrest

/-- A text that is executed does what its transcript says. -/
theorem execute_eq_transcript {s : Session} {source : String}
    {reading : Reading} {t : Transcript}
    (hreading : Reading.ofText s.setting.limit source = reading)
    (ht : s.transcript reading.statements = t) (h : t.Renders) :
    ∃ trace, execute source s = Step.lift (t.ending reading.failure?)
      (s.ranTo (t.machine.wrote (s.machine.output ++ t.echoed) trace)) := by
  rw [execute, Step.bind_apply]
  rw [Reading.ofText] at hreading
  dsimp only [load]
  cases hcursor : Cursor.ofText source with
  | error e =>
      rw [hcursor] at hreading
      subst hreading ht
      refine ⟨s.machine.trace, ?_⟩
      rw [transcript, Scriptlet.transcript, Transcript.echoed_empty,
        String.append_empty]
      rfl
  | ok c =>
      rw [hcursor] at hreading
      exact executeFrom_eq_transcript (s := { s with units := s.units + 1 })
        hreading ht h

end Session

end Scriptlet
