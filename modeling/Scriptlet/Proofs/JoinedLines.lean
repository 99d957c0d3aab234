import Scriptlet.Proofs.CursorScanning
import Scriptlet.Proofs.ShellLines

/-!
# Joined lines

A newline ends every token. So scanning two texts with a newline between them
is scanning the first one and then the second one further on
(`Stream.ofText_joined`), unless the first one has an unrecognised character,
behind which nothing is scanned any more.

The count of open blocks therefore adds up over lines. A shell may keep the
count of its buffer and scan each line once, when it is entered
(`CountingShell`), in place of scanning the whole buffer again with every new
line: it is the same shell (`open_blocks_add_up`).
-/

namespace Scriptlet

namespace Stream

/-! ## One stream behind another -/

/-- The tokens of the first stream and then those of the second one. Behind an
unrecognised character there are none. -/
def followedBy : Stream → Stream → Stream
  | .token head rest, s => .token head (rest.followedBy s)
  | .finish _, s => s
  | .broken error, _ => .broken error

theorem tokens_followedBy_of_broken {s : Stream} {ts : List Token}
    {e : LexError} (h : s.tokens = (ts, some e)) (s' : Stream) :
    (s.followedBy s').tokens = (ts, some e) := by
  induction s generalizing ts with
  | token head rest ih =>
      obtain ⟨rfl, he⟩ := Prod.mk.inj h
      have hrest : (rest.followedBy s').tokens = (rest.tokens.1, some e) :=
        ih (Prod.ext rfl he)
      simp [followedBy, tokens, hrest]
  | finish position => simp [tokens] at h
  | broken error => exact h

theorem tokens_followedBy {s : Stream} {front : List Token} {last : Token}
    (h : s.tokens = (front ++ [last], none)) (s' : Stream) :
    (s.followedBy s').tokens = (front ++ s'.tokens.1, s'.tokens.2) := by
  induction s generalizing front with
  | token head rest ih =>
      obtain ⟨hts, he⟩ := Prod.mk.inj h
      cases front with
      | nil =>
          -- The end of the input comes last, so `head` is not the only one.
          obtain ⟨-, hnil⟩ := List.cons.inj hts
          cases rest <;> simp_all [tokens]
      | cons t front =>
          obtain ⟨rfl, hrest⟩ := List.cons.inj hts
          have hrest := ih (Prod.ext hrest he)
          simp [followedBy, tokens, hrest]
  | finish position =>
      obtain ⟨hts, -⟩ := Prod.mk.inj h
      cases front <;> simp_all [followedBy]
  | broken error => simp [tokens] at h

theorem openBlocks?_followedBy (s s' : Stream) :
    (s.followedBy s').openBlocks? =
      s.openBlocks?.bind fun m => s'.openBlocks?.map (m + ·) := by
  induction s with
  | token head rest ih =>
      rw [followedBy, openBlocks?, ih, openBlocks?]
      cases rest.openBlocks? with
      | none => rfl
      | some m =>
          cases s'.openBlocks? with
          | none => rfl
          | some n =>
              simp only [Option.bind_some, Option.map_some, Option.some.injEq]
              split
              · omega
              · split <;> omega
  | finish position => simp [followedBy, openBlocks?]
  | broken error => rfl

theorem openBlocks?_shift (distance : Int) (s : Stream) :
    (s.shift distance).openBlocks? = s.openBlocks? := by
  have hword : ∀ (t : Token) (word : String),
      (t.shift distance).isKeyword word = t.isKeyword word := fun _ _ => rfl
  induction s with
  | token head rest ih => simp only [shift, openBlocks?, ih, hword]
  | finish position => rfl
  | broken error => rfl

theorem openBlocks?_eq_none_iff (s : Stream) :
    s.openBlocks? = none ↔ s.tokens.2 ≠ none := by
  induction s with
  | token head rest ih => simp [openBlocks?, tokens, ih]
  | finish position => simp [openBlocks?, tokens]
  | broken error => simp [openBlocks?, tokens]

/-! ## A newline between two texts -/

/-- A run of characters does not go on behind a newline, which is none of
them. -/
theorem run_newline {p : Char → Bool} (h : p '\n' = false)
    (cs rest : List Char) :
    (cs ++ '\n' :: rest).takeWhile p = cs.takeWhile p ∧
      (cs ++ '\n' :: rest).dropWhile p = cs.dropWhile p ++ '\n' :: rest := by
  induction cs with
  | nil => simp [h]
  | cons c cs ih =>
      by_cases hc : p c = true
      · simp [hc, ih.1, ih.2]
      · simp [hc]

/-- Behind a run the newline is where it was. -/
theorem position_behind_run (p : Char → Bool) (position : Int) (c : Char)
    (cs : List Char) :
    position + ((c :: cs.takeWhile p).length : Int) +
        ((cs.dropWhile p).length : Int) + 1 =
      position + ((c :: cs).length : Int) + 1 := by
  have hsplit := congrArg List.length
    (List.takeWhile_append_dropWhile (p := p) (l := cs))
  rw [List.length_append] at hsplit
  simp only [List.length_cons]
  omega

/-- The newline cuts whatever token it comes behind. -/
theorem scan_joined (finish finish' position : Int) (cs rest : List Char) :
    scan finish' position (cs ++ '\n' :: rest) =
      (scan finish position cs).followedBy
        (scan finish' (position + cs.length + 1) rest) := by
  have hnewline : '\n' ∈ blanks := by decide
  obtain ⟨hdigit', hpart'⟩ := not_part_of_mem_blanks '\n' hnewline
  fun_induction scan finish position cs with
  | case1 position =>
      rw [List.nil_append, scan_blank _ _ _ hnewline]
      simp [followedBy]
  | case2 position c cs hspace ih =>
      rw [List.cons_append, scan_blank _ _ _ (isSpace_iff.mp hspace), ih,
        List.length_cons]
      congr 2
      push_cast
      omega
  | case3 position c cs hspace hdigit digits ih =>
      obtain ⟨htake, hdrop⟩ := run_newline hdigit' cs rest
      have hplace := position_behind_run Char.isDigit position c cs
      rw [List.cons_append, scan_digit _ _ _ hdigit, htake, hdrop, followedBy]
      dsimp only
      rw [ih, hplace]
  | case4 position c cs hspace hdigit hstart letters word ih =>
      obtain ⟨htake, hdrop⟩ := run_newline hpart' cs rest
      have hplace := position_behind_run isWordPart position c cs
      rw [List.cons_append, scan_word _ _ _ hstart, htake, hdrop, followedBy]
      dsimp only
      rw [ih, hplace]
  | case5 position c cs hspace hdigit hstart kind hkind ih =>
      rw [List.cons_append, scan_symbol _ _ _ hkind, followedBy, ih,
        List.length_cons]
      congr 3
      push_cast
      omega
  | case6 position c cs hspace hdigit hstart hsymbol =>
      have hunknown : isRecognised c = false := by
        rw [Bool.eq_false_iff, ne_eq, isRecognised_iff, hsymbol]
        simp [hspace, hdigit, hstart]
      rw [List.cons_append, scan_broken _ _ _ hunknown]
      rfl

/-- The stream of two texts with a newline between them. -/
theorem ofText_joined (a b : String) :
    ofText (a ++ "\n" ++ b) =
      (ofText a).followedBy ((ofText b).shift (a.length + 1)) := by
  have hcs : (a ++ "\n" ++ b).toList = a.toList ++ '\n' :: b.toList := by
    simp
  have hlength : ((a ++ "\n" ++ b).toList.length : Int) =
      (b.toList.length : Int) + (a.length + 1) := by
    rw [hcs, List.length_append, List.length_cons, String.length_toList]
    push_cast
    omega
  rw [ofText_eq, ofText_eq a, ofText_eq b, ← scan_shift, ← hlength, hcs,
    scan_joined a.toList.length, String.length_toList, add_assoc]

theorem openBlocks?_joined (a b : String) :
    (ofText (a ++ "\n" ++ b)).openBlocks? =
      (ofText a).openBlocks?.bind fun m =>
        (ofText b).openBlocks?.map (m + ·) := by
  rw [ofText_joined, openBlocks?_followedBy, openBlocks?_shift]

/-- The line end behind a text does not count. -/
theorem openBlocks?_line (line : String) :
    (ofText (line ++ "\n")).openBlocks? = (ofText line).openBlocks? := by
  have hempty : (ofText "").openBlocks? = some 0 := by cbv
  have h := openBlocks?_joined line ""
  rw [String.append_empty, hempty] at h
  rw [h]
  simp

/-- The count of lines and of a text behind them. -/
theorem openBlocks?_lineText_append (lines : List String) (text : String) :
    (ofText (lineText lines ++ text)).openBlocks? =
      (ofText (lineText lines)).openBlocks?.bind fun m =>
        (ofText text).openBlocks?.map (m + ·) := by
  induction lines with
  | nil =>
      have hempty : (ofText "").openBlocks? = some 0 := by cbv
      simp [lineText_nil, hempty]
  | cons line lines ih =>
      have hcons : lineText (line :: lines) = line ++ "\n" ++ lineText lines :=
        lineText_append [line] lines
      rw [hcons, String.append_assoc, openBlocks?_joined, ih,
        openBlocks?_joined]
      cases (ofText line).openBlocks? with
      | none => rfl
      | some k =>
          cases (ofText (lineText lines)).openBlocks? with
          | none => rfl
          | some m => cases (ofText text).openBlocks? <;> simp [add_assoc]

end Stream

/-! ## A running count -/

/-- A shell that knows how many blocks the lines in its buffer leave open. -/
structure CountingShell where
  shell : Shell
  count : Int

namespace CountingShell

def start (highlight : String → String) (session : Session) :
    CountingShell :=
  ⟨Shell.start highlight session, 0⟩

def keeping {α : Type} (step : Step Failure Shell α) :
    Step Failure CountingShell α := fun c =>
  match step c.shell with
  | .done value shell => .done value { c with shell }
  | .failed failure shell => .failed failure { c with shell }

/-- The count when a line follows, if there are blocks open then. Only this
line is scanned. -/
def stillOpen? (count : Int) (line : String) : Option Int :=
  ((Stream.ofText line).openBlocks?.map (count + ·)).filter (0 < ·)

def takeCode (line : String) : Step Failure CountingShell Unit := do
  let c ← Step.get
  let source := c.shell.buffer ++ line ++ "\n"
  match stillOpen? c.count line with
  | some count =>
    Step.modify fun _ =>
      ⟨{ c.shell with buffer := source, prompt := Shell.secondaryPrompt },
        count⟩
  | none =>
    Step.modify fun _ => ⟨c.shell.cleared, 0⟩
    keeping (Shell.execute source)

/-- Takes in a line and says whether it asks to leave. -/
def enter (line : String) : Step Failure CountingShell Bool :=
  if Shell.stripped line ∈ ["", "exit", "EOF"] then keeping (Shell.enter line)
  else do
    takeCode (Shell.stripped line)
    return false

def after (lines : List String) (c : CountingShell) : CountingShell :=
  lines.foldl (fun c line => (enter line c).state) c

/-- The count is that of the lines in the buffer. -/
structure Counts (c : CountingShell) : Prop where
  lines : ∃ lines, c.shell.buffer = lineText lines
  count : (Stream.ofText c.shell.buffer).openBlocks? = some c.count

theorem counts_start (highlight : String → String) (session : Session) :
    (start highlight session).Counts where
  lines := ⟨[], rfl⟩
  count := by
    show (Stream.ofText "").openBlocks? = some 0
    cbv

theorem result_keeping {α : Type} (step : Step Failure Shell α)
    (c : CountingShell) : (keeping step c).result = (step c.shell).result := by
  unfold keeping
  cases step c.shell <;> rfl

theorem state_keeping {α : Type} (step : Step Failure Shell α)
    (c : CountingShell) :
    (keeping step c).state = { c with shell := (step c.shell).state } := by
  unfold keeping
  cases step c.shell <;> rfl

section

variable {c : CountingShell} {line : String}

theorem Counts.openBlocks? (h : c.Counts) (line : String) :
    (Stream.ofText (c.shell.buffer ++ line ++ "\n")).openBlocks? =
      (Stream.ofText line).openBlocks?.map (c.count + ·) := by
  obtain ⟨lines, hlines⟩ := h.lines
  have hcount := h.count
  rw [hlines] at hcount ⊢
  rw [String.append_assoc, Stream.openBlocks?_lineText_append, hcount,
    Stream.openBlocks?_line, Option.bind_some]

/-- The count of the new line tells whether the buffer has to be
continued. -/
theorem Counts.needsMoreInput_eq (h : c.Counts) (line : String) :
    needsMoreInput (c.shell.buffer ++ line ++ "\n") =
      (stillOpen? c.count line).isSome := by
  rw [needsMoreInput, h.openBlocks? line, stillOpen?]
  cases (Stream.ofText line).openBlocks? with
  | none => rfl
  | some n => by_cases hpos : 0 < c.count + n <;> simp [hpos]

theorem Counts.of_empty {shell : Shell} (h : shell.buffer = "") :
    Counts ⟨shell, 0⟩ := by
  refine ⟨⟨[], h⟩, ?_⟩
  show (Stream.ofText shell.buffer).openBlocks? = some 0
  rw [h]
  cbv

theorem Counts.of_stillOpen? (h : c.Counts) {count : Int}
    (hopen : stillOpen? c.count line = some count) :
    Counts ⟨{ c.shell with
      buffer := c.shell.buffer ++ line ++ "\n"
      prompt := Shell.secondaryPrompt }, count⟩ := by
  obtain ⟨lines, hlines⟩ := h.lines
  refine ⟨⟨lines ++ [line], ?_⟩, ?_⟩
  · rw [lineText_concat, ← hlines]
  · show (Stream.ofText (c.shell.buffer ++ line ++ "\n")).openBlocks? = _
    rw [h.openBlocks? line]
    exact (Option.filter_eq_some_iff.mp hopen).1

/-- Entering a line does what it does in a shell that scans its buffer again,
and the count is right afterwards. -/
theorem Counts.enter (h : c.Counts) (line : String) :
    (CountingShell.enter line c).result = (Shell.enter line c.shell).result ∧
      (CountingShell.enter line c).state.shell =
        (Shell.enter line c.shell).state ∧
      (CountingShell.enter line c).state.Counts := by
  unfold CountingShell.enter
  by_cases hcommand : Shell.stripped line ∈ ["", "exit", "EOF"]
  · rw [if_pos hcommand, result_keeping, state_keeping]
    refine ⟨rfl, rfl, ?_⟩
    obtain ⟨session, hstate⟩ :=
      Shell.exists_state_enter_of_command hcommand c.shell
    rw [hstate]
    exact ⟨h.lines, h.count⟩
  · rw [if_neg hcommand]
    have hmore := h.needsMoreInput_eq (Shell.stripped line)
    cases hopen : stillOpen? c.count (Shell.stripped line) with
    | some count =>
        rw [hopen] at hmore
        rw [Shell.enter_of_open hcommand hmore]
        simp only [takeCode, Step.bind_apply, Step.get_apply, hopen,
          Step.modify_apply]
        exact ⟨rfl, rfl, h.of_stillOpen? hopen⟩
    | none =>
        rw [hopen] at hmore
        have hbuffer := Shell.buffer_execute
          (c.shell.buffer ++ Shell.stripped line ++ "\n")
          c.shell.cleared
        rw [Shell.enter_of_complete hcommand hmore]
        simp only [takeCode, Step.bind_apply, Step.get_apply, hopen,
          Step.modify_apply, keeping]
        cases hrun : Shell.execute
            (c.shell.buffer ++ Shell.stripped line ++ "\n")
            c.shell.cleared <;>
          rw [hrun] at hbuffer <;> exact ⟨rfl, rfl, .of_empty hbuffer⟩

/-- However many lines are entered, the two shells are the same. -/
theorem Counts.after (h : c.Counts) (lines : List String) :
    (c.after lines).shell = Shell.after lines c.shell ∧
      (c.after lines).Counts := by
  induction lines generalizing c with
  | nil => exact ⟨rfl, h⟩
  | cons line lines ih =>
      obtain ⟨-, hshell, hcounts⟩ := h.enter line
      obtain ⟨hafter, hcounts⟩ := ih hcounts
      rw [hshell] at hafter
      exact ⟨hafter, hcounts⟩

end

end CountingShell

/-- **Open blocks add up over lines.** Let two texts have a newline between
them. If both can be scanned, the tokens are those of the first text and then
those of the second one, moved by the length of the first text and the
newline; and the count of open blocks is the sum of the two counts. If one of
them cannot, the error is the one of the first text if there is one, else that
of the second text, moved, and the text need not be continued. So a shell
that keeps a running count, and scans no more than the line that is entered,
does with every line what the shell does that scans its whole buffer. -/
theorem open_blocks_add_up :
    (∀ a b : String,
      let joined := a ++ "\n" ++ b
      let first := (Stream.ofText a).tokens
      let second := (Stream.ofText b).tokens
      (first.2 = none → ∃ front, first.1 = front ++ [Token.atEnd a.length] ∧
        (Stream.ofText joined).tokens =
          (front ++ second.1.map (·.shift (a.length + 1)),
            second.2.map (·.shift (a.length + 1)))) ∧
      (∀ m n, (Stream.ofText a).openBlocks? = some m →
        (Stream.ofText b).openBlocks? = some n →
        (Stream.ofText joined).openBlocks? = some (m + n)) ∧
      (∀ e, first.2 = some e → (Stream.ofText joined).tokens = first) ∧
      (first.2 ≠ none ∨ second.2 ≠ none →
        (Stream.ofText joined).tokens.2 ≠ none ∧
          needsMoreInput joined = false)) ∧
    ∀ highlight session lines line,
      let counting :=
        CountingShell.after lines (CountingShell.start highlight session)
      counting.shell = Shell.after lines (Shell.start highlight session) ∧
      (CountingShell.enter line counting).result =
        (Shell.enter line counting.shell).result ∧
      (CountingShell.enter line counting).state.shell =
        (Shell.enter line counting.shell).state := by
  refine ⟨fun a b => ?_, fun highlight session lines line => ?_⟩
  · intro joined first second
    have hcount : (Stream.ofText joined).openBlocks? = _ :=
      Stream.openBlocks?_joined a b
    refine ⟨fun hfirst => ?_, fun m n hm hn => ?_, fun e he => ?_,
      fun hbroken => ?_⟩
    · have htokens : (Stream.ofText a).tokens = (first.1, none) :=
        Prod.ext rfl hfirst
      obtain ⟨front, hfront, -⟩ := (tokenizes_of_tokens htokens).ends
      rw [String.length_toList] at hfront
      refine ⟨front, hfront, ?_⟩
      rw [hfront] at htokens
      rw [Stream.ofText_joined, Stream.tokens_followedBy htokens,
        Stream.tokens_shift]
    · rw [hcount, hm, hn]
      rfl
    · rw [Stream.ofText_joined]
      have htokens : (Stream.ofText a).tokens = (first.1, some e) :=
        Prod.ext rfl he
      exact (Stream.tokens_followedBy_of_broken htokens _).trans htokens.symm
    · have hnone : (Stream.ofText joined).openBlocks? = none := by
        simp only [← Stream.openBlocks?_eq_none_iff, first, second] at hbroken
        rcases hbroken with h | h
        · rw [hcount, h]
          rfl
        · rw [hcount, h]
          cases (Stream.ofText a).openBlocks? <;> rfl
      refine ⟨(Stream.openBlocks?_eq_none_iff _).mp hnone, ?_⟩
      rw [needsMoreInput, hnone]
  · obtain ⟨hshell, hcounts⟩ :=
      (CountingShell.counts_start highlight session).after lines
    obtain ⟨hresult, hstate, -⟩ := hcounts.enter line
    exact ⟨hshell, hresult, hstate⟩

end Scriptlet
