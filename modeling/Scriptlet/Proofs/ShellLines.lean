import Scriptlet.Proofs.OpenBlocks

/-!
# Lines and blocks

The shell keeps code lines in its buffer until they make up a text that need
not be continued, and then runs them as one block. So the code lines are
cut into blocks and a rest that is still pending: nothing is lost, nothing
comes twice, and a block ends at the first line at which it can
(`no_line_is_lost`).

The invariant is that what is in the buffer has to be continued, and had to
be after each of its lines (`IsOpen`), and that the prompt is the one for the
buffer (`PromptFits`). Entering a line keeps it, whatever running a block does
to the session.
-/

namespace Scriptlet

/-! ## Rows of lines -/

/-- The text of a row of lines, each of them ended. -/
def lineText (lines : List String) : String :=
  String.join (lines.map (· ++ "\n"))

theorem lineText_nil : lineText [] = "" := rfl

theorem lineText_concat (lines : List String) (line : String) :
    lineText (lines ++ [line]) = lineText lines ++ line ++ "\n" := by
  simp [lineText, String.join_append, String.append_assoc]

theorem lineText_append (first second : List String) :
    lineText (first ++ second) = lineText first ++ lineText second := by
  simp [lineText, String.join_append]

theorem join_lineText (blocks : List (List String)) :
    String.join (blocks.map lineText) = lineText blocks.flatten := by
  induction blocks with
  | nil => rfl
  | cons block rest ih =>
      rw [List.map_cons, String.join_cons, ih, List.flatten_cons,
        lineText_append]

/-- The text has to be continued behind each of these lines. -/
def IsOpen (lines : List String) : Prop :=
  ∀ front, front ≠ [] → front <+: lines → needsMoreInput (lineText front) = true

/-- The text need not be continued behind the last of these lines, and has
to be behind each one before. -/
structure IsBlock (lines : List String) : Prop where
  complete : needsMoreInput (lineText lines) = false
  earlier : ∀ front, front ≠ [] → front <+: lines → front ≠ lines →
    needsMoreInput (lineText front) = true

theorem isOpen_nil : IsOpen [] :=
  fun _ hne hprefix => absurd (List.prefix_nil.mp hprefix) hne

theorem IsOpen.concat {lines : List String} {line : String}
    (h : IsOpen lines)
    (hmore : needsMoreInput (lineText (lines ++ [line])) = true) :
    IsOpen (lines ++ [line]) := by
  intro front hne hprefix
  rcases List.prefix_concat_iff.mp hprefix with rfl | hprefix
  · exact hmore
  · exact h front hne hprefix

theorem IsOpen.block {lines : List String} {line : String}
    (h : IsOpen lines)
    (hmore : needsMoreInput (lineText (lines ++ [line])) = false) :
    IsBlock (lines ++ [line]) := by
  refine ⟨hmore, fun front hne hprefix hproper => ?_⟩
  exact h front hne ((List.prefix_concat_iff.mp hprefix).resolve_left hproper)

/-- Nothing has to be continued where there is nothing. -/
theorem needsMoreInput_empty : needsMoreInput "" = false := by cbv

theorem IsOpen.ne_empty_iff {lines : List String} (h : IsOpen lines) :
    lineText lines ≠ "" ↔ needsMoreInput (lineText lines) = true := by
  constructor
  · intro hne
    refine h lines ?_ List.prefix_rfl
    rintro rfl
    exact hne lineText_nil
  · intro hmore hempty
    rw [hempty, needsMoreInput_empty] at hmore
    cases hmore

namespace Shell

/-! ## Entering a line -/

def stripped (line : String) : String :=
  String.ofList (Text.trim Text.isBlank line.toList)

/-- The lines of code: those that are neither empty nor a command. -/
def codeLines (lines : List String) : List String :=
  (lines.map stripped).filter fun code => code ∉ ["", "exit", "EOF"]

/-- What is done in the session changes nothing else. -/
theorem state_within {α : Type} (act : Act α) (shell : Shell) :
    (within act shell).state =
      { shell with session := (act shell.session).state } := by
  unfold within
  cases act shell.session <;> rfl

/-- Running a text changes nothing but the session. -/
theorem exists_state_execute (source : String) (shell : Shell) :
    ∃ session, (execute source shell).state =
      { shell with session := session } := by
  have hwithin := state_within (Session.execute source) shell
  unfold execute
  split
  · rename_i hrun
    rw [hrun] at hwithin
    exact ⟨_, hwithin⟩
  · rename_i shell' hrun
    rw [hrun] at hwithin
    obtain rfl : shell' = _ := hwithin
    split
    · exact ⟨_, state_within _ _⟩
    · exact ⟨_, rfl⟩

theorem buffer_execute (source : String) (shell : Shell) :
    (execute source shell).state.buffer = shell.buffer := by
  obtain ⟨session, hstate⟩ := exists_state_execute source shell
  rw [hstate]

section

variable {line : String} {shell : Shell}

/-- A command, or an empty line, at most ends the line that is printed. -/
theorem enter_of_command (h : stripped line ∈ ["", "exit", "EOF"])
    (shell : Shell) :
    ∃ text ∈ ["", "\n"], enter line shell =
      (do
        within (Session.print text)
        return decide (stripped line ∈ ["exit", "EOF"])) shell := by
  unfold enter
  rw [show String.ofList (Text.trim Text.isBlank line.toList) =
    stripped line from rfl]
  generalize stripped line = code at h
  fin_cases h
  · refine ⟨"", List.mem_cons_self, ?_⟩
    rw [Step.bind_apply, print_nothing]
    rfl
  · refine ⟨"", List.mem_cons_self, ?_⟩
    rw [Step.bind_apply, print_nothing]
    rfl
  · exact ⟨"\n", by decide, rfl⟩

/-- Code that has to be continued goes to the buffer. -/
theorem enter_of_open (h : stripped line ∉ ["", "exit", "EOF"])
    (hmore : needsMoreInput (shell.buffer ++ stripped line ++ "\n") = true) :
    enter line shell = .done false
      { shell with
        buffer := shell.buffer ++ stripped line ++ "\n"
        prompt := secondaryPrompt } := by
  have hcode : enter line shell =
      (do takeCode (stripped line); return false) shell :=
    enter_code shell rfl h
  rw [hcode]
  simp only [takeCode, Step.bind_apply, Step.get_apply, if_pos hmore]
  rfl

/-- Code that need not be continued is run, with an empty buffer and the
prompt for new code. -/
theorem enter_of_complete (h : stripped line ∉ ["", "exit", "EOF"])
    (hmore : needsMoreInput (shell.buffer ++ stripped line ++ "\n") = false) :
    enter line shell =
      (do
        execute (shell.buffer ++ stripped line ++ "\n")
        return false) shell.cleared := by
  have hcode : enter line shell =
      (do takeCode (stripped line); return false) shell :=
    enter_code shell rfl h
  rw [hcode]
  simp only [takeCode, Step.bind_apply, Step.get_apply,
    if_neg (ne_true_of_eq_false hmore)]
  rfl

/-- A command changes nothing but the session. -/
theorem exists_state_enter_of_command
    (h : stripped line ∈ ["", "exit", "EOF"]) (shell : Shell) :
    ∃ session, (enter line shell).state =
      { shell with session := session } := by
  obtain ⟨text, -, henter⟩ := enter_of_command h shell
  rw [henter, Step.state_bind_pure]
  exact ⟨_, state_within (Session.print text) shell⟩

theorem exists_state_enter_of_complete
    (h : stripped line ∉ ["", "exit", "EOF"])
    (hmore : needsMoreInput (shell.buffer ++ stripped line ++ "\n") = false) :
    ∃ session, (enter line shell).state =
      { shell.cleared with session := session } := by
  rw [enter_of_complete h hmore, Step.state_bind_pure]
  exact exists_state_execute _ _

end

/-! ## The prompt -/

/-- The prompt is the one for new code if the buffer is empty, and the one
for more code if it is not. -/
def PromptFits (shell : Shell) : Prop :=
  shell.buffer = "" ∧ shell.prompt = primaryPrompt ∨
    shell.buffer ≠ "" ∧ shell.prompt = secondaryPrompt

section

variable {shell : Shell}

theorem promptFits_start (highlight : String → String) (session : Session) :
    (start highlight session).PromptFits :=
  Or.inl ⟨rfl, rfl⟩

theorem PromptFits.enter (h : shell.PromptFits) (line : String) :
    (enter line shell).state.PromptFits := by
  by_cases hcommand : stripped line ∈ ["", "exit", "EOF"]
  · obtain ⟨session, hstate⟩ := exists_state_enter_of_command hcommand shell
    rw [hstate]
    exact h
  · cases hmore : needsMoreInput (shell.buffer ++ stripped line ++ "\n") with
    | true =>
        -- There is at least the line end in the buffer now.
        rw [enter_of_open hcommand hmore]
        refine Or.inr ⟨?_, rfl⟩
        show shell.buffer ++ stripped line ++ "\n" ≠ ""
        simp
    | false =>
        obtain ⟨session, hstate⟩ :=
          exists_state_enter_of_complete hcommand hmore
        rw [hstate]
        exact Or.inl ⟨rfl, rfl⟩

theorem PromptFits.after (h : shell.PromptFits) (lines : List String) :
    (after lines shell).PromptFits := by
  induction lines generalizing shell with
  | nil => exact h
  | cons line rest ih => exact ih (h.enter line)

theorem PromptFits.eq_secondary_iff (h : shell.PromptFits) :
    shell.prompt = secondaryPrompt ↔ shell.buffer ≠ "" := by
  rcases h with ⟨hbuffer, hprompt⟩ | ⟨hbuffer, hprompt⟩ <;>
    simp [hbuffer, hprompt, primaryPrompt, secondaryPrompt]

theorem PromptFits.eq_primary_iff (h : shell.PromptFits) :
    shell.prompt = primaryPrompt ↔ shell.buffer = "" := by
  rcases h with ⟨hbuffer, hprompt⟩ | ⟨hbuffer, hprompt⟩ <;>
    simp [hbuffer, hprompt, primaryPrompt, secondaryPrompt]

end

/-! ## Entering lines -/

/-- The texts that lines complete, in the order in which they are run. -/
def handed : List String → Shell → List String
  | [], _ => []
  | line :: rest, shell =>
    (completed? line shell).toList ++ handed rest (enter line shell).state

/-- The text, if there is one, is what a line makes the shell run, with
nothing left in the buffer and the prompt for new code. If there is none, then
nothing is run, and at most a line end is printed. -/
def HandsOver (line : String) (shell : Shell) : Option String → Prop
  | some source =>
    enter line shell = (do execute source; return false) shell.cleared
  | none => ∃ leave buffer prompt text, text ∈ ["", "\n"] ∧
      enter line shell = (do within (Session.print text); return leave)
        { shell with buffer := buffer, prompt := prompt }

theorem handsOver_completed? (line : String) (shell : Shell) :
    HandsOver line shell (completed? line shell) := by
  rcases enter_cases line shell with ⟨hnone, hquiet⟩ | ⟨source, hsome, -, hrun⟩
  · rw [hnone]
    exact hquiet
  · rw [hsome]
    exact hrun

/-- The lines have been cut into blocks that were run and a rest that is in
the buffer. -/
structure Cut (lines : List String) (sources : List String) (buffer : String)
    (blocks : List (List String)) (pending : List String) : Prop where
  lines_eq : blocks.flatten ++ pending = lines
  sources_eq : blocks.map lineText = sources
  buffer_eq : lineText pending = buffer
  isBlock : ∀ block ∈ blocks, IsBlock block
  isOpen : IsOpen pending

/-- From a buffer that is open, lines are cut behind what is in it. -/
theorem exists_cut (lines : List String) {pending : List String}
    (hopen : IsOpen pending) {shell : Shell}
    (hbuffer : shell.buffer = lineText pending) :
    ∃ blocks rest, Cut (pending ++ codeLines lines) (handed lines shell)
      (after lines shell).buffer blocks rest := by
  induction lines generalizing pending shell with
  | nil =>
      refine ⟨[], pending, ?_, rfl, hbuffer.symm, ?_, hopen⟩
      · exact (List.append_nil pending).symm
      · exact fun _ h => (List.not_mem_nil h).elim
  | cons line lines ih =>
      have hafter : after (line :: lines) shell =
          after lines (enter line shell).state := rfl
      have hcode : shell.buffer ++ stripped line ++ "\n" =
          lineText (pending ++ [stripped line]) := by
        rw [hbuffer, lineText_concat]
      by_cases hcommand : stripped line ∈ ["", "exit", "EOF"]
      · -- The buffer stays, and the line is no code.
        have hlines : codeLines (line :: lines) = codeLines lines :=
          List.filter_cons_of_neg fun hcode =>
            of_decide_eq_true hcode hcommand
        have hnone : completed? line shell = none :=
          if_pos (Or.inl hcommand)
        rw [hafter, hlines, handed, hnone]
        obtain ⟨session, hstate⟩ :=
          exists_state_enter_of_command hcommand shell
        rw [hstate]
        exact ih hopen hbuffer
      · have hlines : pending ++ codeLines (line :: lines) =
            (pending ++ [stripped line]) ++ codeLines lines := by
          rw [List.append_assoc]
          exact congrArg _ (List.filter_cons_of_pos (decide_eq_true hcommand))
        rw [hafter, hlines, handed]
        cases hmore : needsMoreInput (shell.buffer ++ stripped line ++ "\n") with
        | true =>
            have hnone : completed? line shell = none :=
              if_pos (Or.inr hmore)
            have hstep := enter_of_open hcommand hmore
            rw [hnone, hstep]
            exact ih (hopen.concat (hcode ▸ hmore)) hcode
        | false =>
            have hsome : completed? line shell =
                some (shell.buffer ++ stripped line ++ "\n") :=
              if_neg (not_or.mpr ⟨hcommand, ne_true_of_eq_false hmore⟩)
            obtain ⟨session, hstate⟩ :=
              exists_state_enter_of_complete hcommand hmore
            rw [hstate]
            have hbuffer' : ({ shell.cleared with session := session }).buffer =
                lineText [] := rfl
            obtain ⟨blocks, rest, hcut⟩ := ih isOpen_nil hbuffer'
            refine ⟨(pending ++ [stripped line]) :: blocks, rest, ?_, ?_,
              hcut.buffer_eq, ?_, hcut.isOpen⟩
            · rw [List.flatten_cons, List.append_assoc, hcut.lines_eq]
              rfl
            · rw [hsome, List.map_cons, hcut.sources_eq, hcode]
              rfl
            · exact List.forall_mem_cons.mpr
                ⟨hopen.block (hcode ▸ hmore), hcut.isBlock⟩

end Shell

/-- **No line is lost.** Whatever lines are entered into a new shell, the texts
that were run, one after the other, and what is in the buffer are the lines
of code, each of them ended. Every text that was run is a block of lines
that need not be continued, while it had to be behind each line before the
last. The shell asks for more exactly when there is something in the buffer,
and this is exactly when the buffer has to be continued; otherwise it asks for
new code. -/
theorem no_line_is_lost (highlight : String → String) (session : Session)
    (lines : List String) :
    let shell := Shell.after lines (Shell.start highlight session)
    let sources := Shell.handed lines (Shell.start highlight session)
    (∀ line shell, Shell.HandsOver line shell (Shell.completed? line shell)) ∧
    String.join sources ++ shell.buffer = lineText (Shell.codeLines lines) ∧
    (∃ (blocks : List (List String)) (pending : List String),
      blocks.flatten ++ pending = Shell.codeLines lines ∧
      blocks.map lineText = sources ∧ lineText pending = shell.buffer ∧
      ∀ block ∈ blocks, IsBlock block) ∧
    (shell.prompt = ".. " ↔ shell.buffer ≠ "") ∧
    (shell.prompt = ">> " ↔ shell.buffer = "") ∧
    (shell.buffer ≠ "" ↔ needsMoreInput shell.buffer = true) := by
  intro shell sources
  have hstart : (Shell.start highlight session).buffer = lineText [] := rfl
  have hprompt : shell.PromptFits :=
    (Shell.promptFits_start highlight session).after lines
  obtain ⟨blocks, pending, hcut⟩ := Shell.exists_cut lines isOpen_nil hstart
  refine ⟨Shell.handsOver_completed?, ?_,
    ⟨blocks, pending, hcut.lines_eq, hcut.sources_eq, hcut.buffer_eq,
      hcut.isBlock⟩, hprompt.eq_secondary_iff, hprompt.eq_primary_iff, ?_⟩
  · calc String.join sources ++ shell.buffer
        = String.join (blocks.map lineText) ++ lineText pending := by
          rw [hcut.sources_eq, hcut.buffer_eq]
      _ = lineText (blocks.flatten ++ pending) := by
          rw [join_lineText, lineText_append]
      _ = lineText (Shell.codeLines lines) := by
          rw [hcut.lines_eq]
          rfl
  · rw [show shell.buffer = lineText pending from hcut.buffer_eq.symm]
    exact hcut.isOpen.ne_empty_iff

end Scriptlet
