import Scriptlet.Proofs.ViablePrefixes
import Scriptlet.Shell

/-!
# Open blocks

Whether a text has to be continued is decided by counting the words `def` and
`end` in it, and nothing else of it is looked at. The parser has its own
notion of an open block, the functions whose bodies it is in. The two agree
because the agendas of the parser know how many blocks are open
(`Agenda.blocks_run`): behind tokens that can come one after the other, as
many blocks are open as the count says.

So a program is never held back, a text that lacks an `end` always is, and
the shell never reports a missing `end` (`buffering_agrees_with_parsing`).
-/

namespace Scriptlet

open Agenda

/-! ## Counting keywords -/

theorem blockBalance_eq_countP (ts : List Token) :
    blockBalance ts =
      (ts.countP fun t => t.isKeyword "def" : Int) -
        (ts.countP fun t => t.isKeyword "end" : Int) := by
  induction ts with
  | nil => rfl
  | cons t ts ih =>
      rw [blockBalance_cons, ih, List.countP_cons, List.countP_cons]
      by_cases hend : t.isKeyword "end" = true
      · have hdef : ¬ t.isKeyword "def" = true := by
          intro hdef
          have hchange := Token.blockChange_of_end hend
          rw [Token.blockChange, if_pos hdef] at hchange
          cases hchange
        rw [Token.blockChange_of_end hend, if_pos hend, if_neg hdef]
        push_cast
        omega
      · rw [Token.blockChange, if_neg hend, if_neg hend]
        split
        · push_cast
          omega
        · omega

/-- The count of a stream is that of its tokens. -/
theorem Stream.openBlocks?_of_tokens {s : Stream} {ts : List Token}
    (h : s.tokens = (ts, none)) : s.openBlocks? = some (blockBalance ts) := by
  induction s generalizing ts with
  | token head rest ih =>
      obtain ⟨hts, hrest⟩ := Prod.mk.inj h
      have htokens : rest.tokens = (rest.tokens.1, none) := Prod.ext rfl hrest
      rw [openBlocks?, ih htokens, ← hts, blockBalance_cons, Token.blockChange]
      simp only [Option.map_some]
      split
      · rw [add_comm]
      · split
        · rw [neg_add_eq_sub]
        · rw [zero_add]
  | finish position =>
      cases h
      rfl
  | broken e => cases h

/-- Only a stream that is not broken has a count. -/
theorem Stream.tokens_of_openBlocks? {s : Stream} {n : Int}
    (h : s.openBlocks? = some n) : s.tokens = (s.tokens.1, none) := by
  refine Prod.ext rfl ?_
  induction s generalizing n with
  | token head rest ih =>
      rw [openBlocks?] at h
      obtain ⟨m, hm, -⟩ := Option.map_eq_some_iff.mp h
      exact ih hm
  | finish position => rfl
  | broken e => cases h

/-- A text has to be continued if it can be scanned and opens more blocks
than it closes. -/
theorem needsMoreInput_iff {source : String} :
    needsMoreInput source = true ↔
      ∃ ts, (Stream.ofText source).tokens = (ts, none) ∧
        0 < blockBalance ts := by
  constructor
  · intro h
    unfold needsMoreInput at h
    split at h
    · rename_i n hcount
      have htokens := Stream.tokens_of_openBlocks? hcount
      rw [Stream.openBlocks?_of_tokens htokens] at hcount
      cases hcount
      exact ⟨_, htokens, of_decide_eq_true h⟩
    · cases h
  · rintro ⟨ts, htokens, hopen⟩
    rw [needsMoreInput, Stream.openBlocks?_of_tokens htokens]
    exact decide_eq_true hopen

/-- A program closes the blocks that it opens. -/
theorem blockBalance_of_accepted {source : String} (h : Accepted source) :
    blockBalance (Stream.ofText source).tokens.1 = 0 := by
  obtain ⟨ts, htokens, hrun⟩ := run_of_accepted h
  have hblocks := blocks_run hrun
  rw [blocks, zero_add] at hblocks
  rw [htokens, hblocks]

theorem needsMoreInput_of_accepted {source : String} (h : Accepted source) :
    needsMoreInput source = false := by
  refine eq_false_of_ne_true fun hmore => ?_
  obtain ⟨ts, htokens, hopen⟩ := needsMoreInput_iff.mp hmore
  have hbalance := blockBalance_of_accepted h
  rw [htokens] at hbalance
  exact absurd hbalance hopen.ne'

/-- Where the input ends, a text has to be continued if more blocks were
opened than closed. -/
theorem needsMoreInput_iff_open {source : String} {front rest : List Token}
    {t : Token} (h : (Stream.ofText source).tokens.1 = front ++ t :: rest)
    (ht : t.kind = .endOfInput) :
    needsMoreInput source = true ↔ 0 < blockBalance front := by
  have htokens := Stream.tokens_eq_of_endOfInput (Stream.yields_ofText source)
    (by rw [h]; simp) ht
  rw [h] at htokens
  obtain rfl := (tokenizes_of_tokens htokens).eq_nil_of_endOfInput ht
  have hbalance : blockBalance (front ++ [t]) = blockBalance front := by
    rw [blockBalance_append, blockBalance_cons,
      Token.blockChange_of_kind ht (by decide)]
    exact add_zero _
  rw [needsMoreInput_iff, ← hbalance]
  constructor
  · rintro ⟨ts, hts, hopen⟩
    cases htokens.symm.trans hts
    exact hopen
  · exact fun hopen => ⟨_, htokens, hopen⟩

/-! ## Where a body is not closed -/

/-- Where the input ends, no block is open. -/
def ClosedRow (ts : List Token) : Prop :=
  ∀ front t rest, ts = front ++ t :: rest → t.kind = .endOfInput →
    blockBalance front ≤ 0

theorem closedRow_of_needsMoreInput {source : String}
    (h : needsMoreInput source = false) :
    ClosedRow (Stream.ofText source).tokens.1 := by
  intro front t rest htokens ht
  refine not_lt.mp fun hpos => ?_
  rw [(needsMoreInput_iff_open htokens ht).mpr hpos] at h
  cases h

/-- A missing `end` is reported at the end of the input, when more blocks
were opened than closed. -/
theorem ParseFailure.Stops.missingEnd {e : ParseError} {ts : List Token}
    (h : (ParseFailure.error e).Stops [] ts) (he : e.IsMissingEnd) :
    ∃ front t rest, ts = front ++ t :: rest ∧ t.kind = .endOfInput ∧
      0 < blockBalance front := by
  obtain ⟨front, k, rest, rfl, hrun, hat⟩ := h
  cases hat with
  | unrecognized _ => exact he.elim
  | @token _ _ t rest _ _ hend =>
      obtain ⟨hkind, hblocks⟩ := hend he
      rw [blocks_run hrun, blocks, zero_add] at hblocks
      exact ⟨front, t, rest, rfl, hkind, hblocks⟩

/-- Statements that were read leave no block open. -/
theorem ClosedRow.of_moves {ts rest : List Token} (h : ClosedRow ts)
    (hmoves : Moves [] ts [] rest) (hne : rest ≠ []) : ClosedRow rest := by
  obtain ⟨used, k, rfl, hrun, halike⟩ := hmoves
  obtain ⟨next, more, rfl⟩ := List.exists_cons_of_ne_nil hne
  have hused : blockBalance used = 0 := by
    have hblocks := blocks_run hrun
    rw [(halike next rfl).blocks_eq, blocks, zero_add] at hblocks
    exact hblocks.symm
  intro front t others hrest ht
  have hfront := h (used ++ front) t others
    (by rw [hrest, List.append_assoc]) ht
  rw [blockBalance_append, hused, zero_add] at hfront
  exact hfront

/-! ## The shell -/

/-- The failure is about a function that is not closed. -/
def Failure.IsMissingEnd : Failure → Prop
  | .parse e => e.IsMissingEnd
  | .fault _ => False

/-- A text without a first token has an unrecognised character there. -/
theorem Cursor.eq_unrecognized_of_ofText {source : String} {e : ParseError}
    (h : Cursor.ofText source = .error e) :
    ∃ error, e = .unrecognized error := by
  unfold Cursor.ofText Cursor.ofStream at h
  split at h
  · cases h
  · cases h
    exact ⟨_, rfl⟩

theorem Parse.withFuel_tracks {α : Type} {parser : Nat → Parse α}
    {k k' : Agenda} (h : ∀ fuel, Tracks (parser fuel) k k') :
    Tracks (withFuel parser) k k' :=
  fun c _ hc => h c.fuel hc

theorem Parse.nextStatement_tracks (limit : Nat) :
    Tracks (nextStatement limit) [] [] := by
  refine separated_tracks (fun _ _ => .pure) ?_
  have hstatement := withFuel_tracks fun fuel =>
    (tracked fuel).statement limit []
  exact hstatement.bind fun _ _ _ => .pure

namespace Session

/-- What is done does not fail because of a function that is not closed. -/
def KeepsClosed {α : Type} (act : Act α) : Prop :=
  ∀ s, (act s).Ensures (fun _ _ => True) fun failure _ =>
    ¬ failure.IsMissingEnd

theorem KeepsClosed.pure {α : Type} (a : α) :
    KeepsClosed (Pure.pure a : Act α) :=
  fun _ => trivial

theorem KeepsClosed.bind {α β : Type} {act : Act α} {next : α → Act β}
    (h : KeepsClosed act) (hnext : ∀ a, KeepsClosed (next a)) :
    KeepsClosed (act >>= next) :=
  fun s => Step.ensures_bind (h s) fun a s' _ => hnext a s'

theorem KeepsClosed.fail {α : Type} {failure : Failure}
    (h : ¬ failure.IsMissingEnd) :
    KeepsClosed (Step.fail failure : Act α) :=
  fun _ => h

theorem perform_keepsClosed {α : Type} (action : Setting → Eval α) :
    KeepsClosed (perform action) := by
  intro s
  unfold perform
  split
  · trivial
  · exact id

theorem printResult_keepsClosed (value : Value) :
    KeepsClosed (printResult value) := by
  unfold printResult
  split
  · exact fun _ => trivial
  · exact .fail id

/-- Statements are run one by one up to the end of a row in which every
block is closed. -/
theorem executeFrom_keepsClosed (site : Site) (count index : Nat)
    {c : Cursor} {ts : List Token} (hc : c.Sees ts) (hts : ClosedRow ts) :
    KeepsClosed (executeFrom site count index c) := by
  induction count generalizing index c ts with
  | zero => exact .pure ()
  | succ count ih =>
      intro s
      have hfollows := Parse.nextStatement_tracks s.setting.limit hc
      simp only [executeFrom, Step.bind_apply, Step.get_apply]
      cases hnext : Parse.nextStatement s.setting.limit c with
      | failed failure c' =>
          rw [hnext] at hfollows
          cases failure with
          | tooDeep => exact id
          | error e =>
              intro he
              obtain ⟨front, t, rest, hsplit, hend, hopen⟩ :=
                ParseFailure.Stops.missingEnd hfollows he
              exact absurd (hts front t rest hsplit hend) (not_le.mpr hopen)
      | done node c' =>
          cases node with
          | none => trivial
          | some node =>
              rw [hnext] at hfollows
              obtain ⟨rest, hc', hmoves⟩ := hfollows
              obtain ⟨more, rfl⟩ := hc'.eq_cons
              have hrest := hts.of_moves hmoves (List.cons_ne_nil _ _)
              refine KeepsClosed.bind (perform_keepsClosed _) (fun value => ?_) s
              exact (printResult_keepsClosed value).bind fun _ =>
                ih (index + 1) hc' hrest

/-- A text that is not held back has no function that is not closed. -/
theorem execute_keepsClosed {source : String}
    (h : needsMoreInput source = false) : KeepsClosed (execute source) := by
  refine KeepsClosed.bind (fun _ => trivial) fun site => ?_
  cases hcursor : Cursor.ofText source with
  | error e =>
      obtain ⟨error, rfl⟩ := Cursor.eq_unrecognized_of_ofText hcursor
      exact .fail id
  | ok c =>
      exact executeFrom_keepsClosed site c.fuel 0 (Cursor.sees_ofText hcursor)
        (closedRow_of_needsMoreInput h)

end Session

namespace Shell

def after (lines : List String) (shell : Shell) : Shell :=
  lines.foldl (fun shell line => (enter line shell).state) shell

/-- The shell with nothing in its buffer, asking for new code. -/
def cleared (shell : Shell) : Shell :=
  { shell with buffer := "", prompt := primaryPrompt }

/-- The text that a line completes, so that it is run. -/
def completed? (line : String) (shell : Shell) : Option String :=
  let code := String.ofList (Text.trim Text.isBlank line.toList)
  let source := shell.buffer ++ code ++ "\n"
  if code ∈ ["", "exit", "EOF"] ∨ needsMoreInput source then none
  else some source

/-- Whatever the shell reports on a line satisfies `p`: either no text is
run, and at most a line end is printed, or the text is run whose failure
satisfies `p`. -/
structure ReportsOnly (p : Failure → Prop) (line : String) (shell : Shell) :
    Prop where
  quiet : completed? line shell = none → ∃ leave buffer prompt text,
    text ∈ ["", "\n"] ∧
      enter line shell = (do within (Session.print text); return leave)
        { shell with buffer := buffer, prompt := prompt }
  run : ∀ source, completed? line shell = some source →
    enter line shell = (do execute source; return false) shell.cleared ∧
    ∀ failure session,
      Session.execute source shell.session = .failed failure session →
      p failure

/-- Printing nothing leaves everything as it is. -/
theorem print_nothing (shell : Shell) :
    within (Session.print "") shell = .done () shell := by
  simp [within, Session.print]

/-- A line that is no command is code. -/
theorem enter_code {line code : String} (shell : Shell)
    (hcode : String.ofList (Text.trim Text.isBlank line.toList) = code)
    (h : code ∉ ["", "exit", "EOF"]) :
    enter line shell = (do takeCode code; return false) shell := by
  unfold enter
  rw [hcode]
  split
  · exact absurd (by decide) h
  · exact absurd (by decide) h
  · exact absurd (by decide) h
  · rfl

/-- What a line does. -/
theorem enter_cases (line : String) (shell : Shell) :
    (completed? line shell = none ∧ ∃ leave buffer prompt text,
      text ∈ ["", "\n"] ∧
        enter line shell = (do within (Session.print text); return leave)
          { shell with buffer := buffer, prompt := prompt }) ∨
    ∃ source, completed? line shell = some source ∧
      needsMoreInput source = false ∧
      enter line shell = (do execute source; return false) shell.cleared := by
  generalize hcode : String.ofList (Text.trim Text.isBlank line.toList) = code
  by_cases hcommand : code ∈ ["", "exit", "EOF"]
  · have hnone : completed? line shell = none :=
      if_pos (Or.inl (hcode ▸ hcommand))
    refine Or.inl ⟨hnone, ?_⟩
    unfold enter
    rw [hcode]
    fin_cases hcommand
    · refine ⟨false, shell.buffer, shell.prompt, "", List.mem_cons_self, ?_⟩
      rw [Step.bind_apply, print_nothing]
      rfl
    · refine ⟨true, shell.buffer, shell.prompt, "", List.mem_cons_self, ?_⟩
      rw [Step.bind_apply, print_nothing]
      rfl
    · exact ⟨true, shell.buffer, shell.prompt, "\n", by decide, rfl⟩
  · rw [enter_code shell hcode hcommand]
    unfold completed?
    rw [hcode]
    by_cases hmore : needsMoreInput (shell.buffer ++ code ++ "\n") = true
    · refine Or.inl ⟨if_pos (Or.inr hmore), false,
        shell.buffer ++ code ++ "\n", secondaryPrompt, "",
        List.mem_cons_self, ?_⟩
      rw [Step.bind_apply (within _), print_nothing]
      simp only [takeCode, Step.bind_apply, Step.get_apply, if_pos hmore,
        Step.modify_apply]
    · refine Or.inr ⟨_, if_neg (not_or.mpr ⟨hcommand, hmore⟩),
        eq_false_of_ne_true hmore, ?_⟩
      simp only [takeCode, Step.bind_apply, Step.get_apply, if_neg hmore,
        Step.modify_apply, cleared]

theorem reportsOnly_not_missingEnd (line : String) (shell : Shell) :
    ReportsOnly (fun failure => ¬ failure.IsMissingEnd) line shell := by
  rcases enter_cases line shell with ⟨hnone, hquiet⟩ |
    ⟨source, hsome, hmore, hrun⟩
  · refine ⟨fun _ => hquiet, fun source hsource => ?_⟩
    rw [hnone] at hsource
    cases hsource
  · refine ⟨fun hnone => ?_, fun source' hsource => ?_⟩
    · rw [hsome] at hnone
      cases hnone
    · obtain rfl := Option.some.inj (hsome.symm.trans hsource)
      refine ⟨hrun, fun failure session hfailed => ?_⟩
      have hkeeps := Session.execute_keepsClosed hmore shell.session
      rw [hfailed] at hkeeps
      exact hkeeps

end Shell

/-- **Buffering agrees with the parser.** A text that is parsed has as many
words `def` as `end` and is not held back; a text in which the end of the
input comes where a function should be closed is. Whatever lines are entered
into the shell, none makes it report such a function. -/
theorem buffering_agrees_with_parsing :
    (∀ limit source nodes, parseProgram limit source = .ok nodes →
      let tokens := (Stream.ofText source).tokens.1
      (tokens.countP fun t => t.isKeyword "def") =
          (tokens.countP fun t => t.isKeyword "end") ∧
        needsMoreInput source = false) ∧
    (∀ limit source t,
      parseProgram limit source = .error (.error (.unexpected .blockEnd t)) →
      needsMoreInput source = true) ∧
    ∀ highlight session lines line,
      Shell.ReportsOnly (fun failure => ¬ failure.IsMissingEnd) line
        (Shell.after lines (Shell.start highlight session)) := by
  refine ⟨fun limit source nodes h => ?_, fun limit source t h => ?_,
    fun highlight session lines line =>
      Shell.reportsOnly_not_missingEnd _ _⟩
  · have haccepted : Accepted source := ⟨limit, nodes, h⟩
    have hbalance := blockBalance_of_accepted haccepted
    rw [blockBalance_eq_countP] at hbalance
    exact ⟨by omega, needsMoreInput_of_accepted haccepted⟩
  · cases hcursor : Cursor.ofText source with
    | error e =>
        obtain ⟨error, rfl⟩ := Cursor.eq_unrecognized_of_ofText hcursor
        rw [parseProgram_of_error hcursor] at h
        cases h
    | ok c =>
        have hstops := stops_of_parseProgram hcursor h
        obtain ⟨front, _, rest, htokens, ht, hopen⟩ := hstops.missingEnd trivial
        exact (needsMoreInput_iff_open htokens ht).mpr hopen

end Scriptlet
