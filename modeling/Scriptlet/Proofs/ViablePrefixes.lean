import Scriptlet.Proofs.ParserErrors
import Scriptlet.Proofs.ParserGrammar

/-!
# The first impossible token

A text is a program exactly if its tokens can come one after the other
(`accepted_iff`). Since every agenda can be completed, the rows of tokens
that programs start with are those that leave an agenda (`viable_of_run`,
`Viable.exists_run`), and a syntax error is reported at the first token with
which a text stops being such a row (`error_at_first_impossible_token`).
-/

namespace Scriptlet

open Agenda

/-- A text is a program, if only it may nest deeply enough. -/
def Accepted (source : String) : Prop :=
  ∃ limit nodes, parseProgram limit source = .ok nodes

/-- Some program starts with these tokens. -/
def Viable (ts : List Token) : Prop :=
  ∃ source, Accepted source ∧
    ts.map Token.form <+: (Stream.ofText source).tokens.1.map Token.form

/-! ## Texts that are parsed -/

section

variable {source : String} {ts : List Token}

/-- The tokens of a text that has no unrecognised character. -/
theorem tokenizes_of_tokens (h : (Stream.ofText source).tokens = (ts, none)) :
    Tokenizes source ts :=
  Lexes.tokenizesFrom (k := 0) (tokens_eq_iff_lexes.mp h) (Nat.zero_le _)

/-- Only a text without unrecognised characters has the end of the input
among its tokens. -/
theorem Stream.tokens_eq_of_endOfInput {s : Stream} {t : Token}
    (hs : s.Yields s.tokens.1) (ht : t ∈ s.tokens.1)
    (hkind : t.kind = .endOfInput) : s.tokens = (s.tokens.1, none) := by
  refine Prod.ext rfl ?_
  induction s with
  | token head rest ih =>
      cases hs with
      | token hne hrest =>
          rcases List.mem_cons.mp ht with rfl | ht
          · exact absurd hkind hne
          · exact ih hrest ht
  | finish position => rfl
  | broken e => cases ht

/-- The tokens of a program can come one after the other. -/
theorem run_of_accepted (h : Accepted source) :
    ∃ ts, (Stream.ofText source).tokens = (ts, none) ∧
      run [] ts = some [] := by
  obtain ⟨limit, nodes, h⟩ := h
  cases hcursor : Cursor.ofText source with
  | error e =>
      rw [parseProgram_of_error hcursor] at h
      cases h
  | ok c =>
      have hfollows := Parse.statements_tracks c.fuel limit
        (Cursor.sees_ofText hcursor)
      rw [parseProgram_of_cursor hcursor] at h
      cases hrun : Parse.statements c.fuel limit c with
      | failed e c' =>
          rw [hrun] at h
          cases h
      | done value c' =>
          rw [hrun] at hfollows
          obtain ⟨rest, hc', hmoves⟩ := hfollows
          obtain ⟨more, rfl⟩ := hc'.eq_cons
          have hend := Parse.atEnd_of_statements hrun
          obtain rfl := hc'.eq_nil_of_endOfInput hend
          refine ⟨_, Stream.tokens_eq_of_endOfInput
            (Stream.yields_ofText source) ?_ hend, ?_⟩
          · obtain ⟨used, -, hused, -⟩ := hmoves
            rw [hused]
            exact List.mem_append_right _ List.mem_cons_self
          · rw [hmoves.run_eq (List.cons_ne_nil _ _), run_cons,
              step_nil_endOfInput hend]
            rfl

/-- A text that is not parsed is given up in front of a token. -/
theorem stops_of_parseProgram {limit : Nat} {failure : ParseFailure}
    {c : Cursor} (hcursor : Cursor.ofText source = .ok c)
    (h : parseProgram limit source = .error failure) :
    failure.Stops [] (Stream.ofText source).tokens.1 := by
  have hfollows := Parse.statements_tracks c.fuel limit
    (Cursor.sees_ofText hcursor)
  rw [parseProgram_of_cursor hcursor] at h
  rw [Outcome.eq_failed_of_result h] at hfollows
  exact hfollows

/-- A syntax error in a row of tokens is about one of them, which cannot
come behind those in front of it. -/
theorem exists_impossible_token {limit : Nat} {e : ParseError}
    (hlex : (Stream.ofText source).tokens = (ts, none))
    (h : parseProgram limit source = .error (.error e)) :
    ∃ front t rest k, ts = front ++ t :: rest ∧ e.found? = some t ∧
      run [] front = some k ∧ step t k = none := by
  obtain ⟨before, hts, -⟩ := (tokenizes_of_tokens hlex).ends
  obtain ⟨c, hcursor⟩ : ∃ c, Cursor.ofText source = .ok c :=
    Cursor.exists_ofText (by rw [hlex, hts]; simp)
  have hstops := stops_of_parseProgram hcursor h
  rw [hlex] at hstops
  obtain ⟨front, k, rest, hsplit, hrun, hat⟩ := hstops
  cases hat with
  | unrecognized hkind =>
      -- the last token is the end of the input, so there is one behind it
      rw [hts] at hsplit
      obtain ⟨-, hlast⟩ := List.append_inj' hsplit rfl
      cases hlast
      exact absurd rfl hkind
  | @token _ _ t rest hfound hstep _ =>
      exact ⟨front, t, rest, k, hsplit, hfound, hrun, hstep⟩

/-- A text is a program exactly if its tokens can come one after the
other. -/
theorem accepted_iff : Accepted source ↔
    ∃ ts, (Stream.ofText source).tokens = (ts, none) ∧
      run [] ts = some [] := by
  constructor
  · exact run_of_accepted
  · rintro ⟨ts, hlex, hrun⟩
    have hdeep : parseProgram ts.length source ≠ .error .tooDeep :=
      parseProgram_ne_tooDeep (by rw [hlex])
    cases hparse : parseProgram ts.length source with
    | ok nodes => exact ⟨_, nodes, hparse⟩
    | error failure =>
        cases failure with
        | tooDeep => exact absurd hparse hdeep
        | error e =>
            obtain ⟨front, t, rest, k, rfl, -, hfront, hstep⟩ :=
              exists_impossible_token hlex hparse
            rw [run_eq_none hfront hstep] at hrun
            cases hrun

end

/-! ## Rows that programs start with -/

/-- What follows a viable row in a program shows that it leaves an agenda. -/
theorem Viable.exists_run {ts : List Token} (h : Viable ts) :
    ∃ k, run [] ts = some k := by
  obtain ⟨source, haccepted, more, hmore⟩ := h
  obtain ⟨ts', hlex, hrun⟩ := run_of_accepted haccepted
  rw [hlex] at hmore
  obtain ⟨us, vs, rfl, hus, -⟩ := List.map_eq_append_iff.mp hmore.symm
  obtain ⟨k, hk, -⟩ := exists_run_of_append hrun
  rw [run_relocated (.of_map_form hus)] at hk
  exact ⟨k, hk⟩

/-- A row that leaves an agenda is continued to a program by what completes
the agenda. -/
theorem viable_of_run {ts : List Token} {k : Agenda} (hts : WritableRow ts)
    (h : run [] ts = some k) : Viable ts := by
  obtain ⟨us, finish, hus, htokens⟩ :=
    tokens_spelling (hts.append (writableRow_completion k))
  refine ⟨_, accepted_iff.mpr ⟨_, htokens, ?_⟩, ?_⟩
  · rw [run_append, run_relocated hus, ← run_append, List.append_assoc,
      run_append, h, Option.bind_some, run_completion]
  · rw [htokens, List.map_append, hus.map_form, List.map_append,
      List.append_assoc]
    exact List.prefix_append _ _

section

variable {source : String} {front rest : List Token} {t : Token}

/-- The end of the input is not in front of another token. -/
theorem Tokenizes.ne_endOfInput (h : Tokenizes source (front ++ t :: rest)) :
    ∀ u ∈ front, u.kind ≠ .endOfInput := by
  obtain ⟨before, hbefore, hkinds⟩ := h.ends
  have hdrop := congrArg List.dropLast hbefore
  rw [List.dropLast_concat,
    List.dropLast_append_of_ne_nil (List.cons_ne_nil _ _)] at hdrop
  intro u hu
  refine hkinds u ?_
  rw [← hdrop]
  exact List.mem_append_left _ hu

theorem Tokenizes.eq_nil_of_endOfInput
    (h : Tokenizes source (front ++ t :: rest)) (ht : t.kind = .endOfInput) :
    rest = [] := by
  cases rest with
  | nil => rfl
  | cons u rest =>
      rw [List.append_cons] at h
      exact absurd ht (h.ne_endOfInput t (by simp))

/-- The tokens of a text in front of another one of them can be spelled. -/
theorem writableRow_front
    (hlex : (Stream.ofText source).tokens = (front ++ t :: rest, none)) :
    WritableRow front := by
  intro u hu
  have hspelled := (tokens_eq_iff_lexes.mp hlex).spelled u
    (List.mem_append_left _ hu)
  exact ⟨(tokenizes_of_tokens hlex).ne_endOfInput u hu, hspelled⟩

end

/-! ## The place of an error -/

/-- The message of an error ends with an offset, or goes on behind it with
what was found there. -/
def ParseError.NamesOffset (e : ParseError) (offset : Int) : Prop :=
  ∃ wanted found,
    e.message = wanted ++ " at offset " ++ toString offset ++ found ∧
      (found = "" ∨ ∃ what, found = ", got " ++ what)

theorem ParseError.namesOffset_of_found {e : ParseError} {t : Token}
    (h : e.found? = some t) : e.NamesOffset t.position := by
  cases e with
  | unrecognized error => cases h
  | unexpected wanted found =>
      cases h
      refine ⟨"UnexpectedToken" ++ ": " ++ ("expected " ++ wanted.message),
        ", got " ++ foundText t, ?_, Or.inr ⟨foundText t, rfl⟩⟩
      have hmessage : message (.unexpected wanted t) =
          "UnexpectedToken" ++ ": " ++ ("expected " ++ wanted.message ++
            " at offset " ++ toString t.position ++ ", got " ++
            foundText t) := rfl
      rw [hmessage]
      repeat rw [String.append_assoc]
  | closingParen found =>
      cases h
      refine ⟨"ExpectedClosingParen" ++ ": " ++ "expected ')'", "", ?_,
        Or.inl rfl⟩
      have hmessage : message (.closingParen t) =
          "ExpectedClosingParen" ++ ": " ++
            ("expected ')' at offset " ++ toString t.position) := rfl
      have hdetail : "expected ')' at offset " =
          "expected ')'" ++ " at offset " := by decide
      rw [hmessage, hdetail, String.append_empty]
      repeat rw [String.append_assoc]
  | functionName found =>
      cases h
      refine ⟨"ExpectedFunctionName" ++ ": " ++
        "expected function name after 'def'", "", ?_, Or.inl rfl⟩
      have hmessage : message (.functionName t) =
          "ExpectedFunctionName" ++ ": " ++
            ("expected function name after 'def' at offset " ++
              toString t.position) := rfl
      have hdetail : "expected function name after 'def' at offset " =
          "expected function name after 'def'" ++ " at offset " := by decide
      rw [hmessage, hdetail, String.append_empty]
      repeat rw [String.append_assoc]

/-- **Errors are reported at the first impossible token.** Let a text consist
of tokens only and have a syntax error. The message names the offset of one
of the tokens. Some program starts with the tokens in front of it, and none
does with these and the token itself; so if it is the end of the input, the
tokens are no program but can be continued to one. -/
theorem error_at_first_impossible_token (source : String)
    (tokens : List Token)
    (hlex : (Stream.ofText source).tokens = (tokens, none)) (limit : Nat)
    (e : ParseError) (h : parseProgram limit source = .error (.error e)) :
    ∃ front t rest, tokens = front ++ t :: rest ∧
      e.NamesOffset t.position ∧
      (∀ u ∈ front, u.position < t.position) ∧
      (∀ u ∈ rest, t.position < u.position) ∧
      Viable front ∧ ¬ Viable (front ++ [t]) ∧
      (t.kind = .endOfInput → rest = []) ∧ ¬ Accepted source := by
  obtain ⟨front, t, rest, k, rfl, hfound, hrun, hstep⟩ :=
    exists_impossible_token hlex h
  have htokenizes := tokenizes_of_tokens hlex
  have hincreasing := htokenizes.increasing
  rw [List.map_append, List.map_cons, List.pairwise_append,
    List.pairwise_cons] at hincreasing
  obtain ⟨-, ⟨hrest, -⟩, hfront⟩ := hincreasing
  refine ⟨front, t, rest, rfl, e.namesOffset_of_found hfound, ?_, ?_,
    viable_of_run (writableRow_front hlex) hrun, ?_,
    htokenizes.eq_nil_of_endOfInput, ?_⟩
  · intro u hu
    exact hfront _ (List.mem_map_of_mem hu) _ List.mem_cons_self
  · intro u hu
    exact hrest _ (List.mem_map_of_mem hu)
  · intro hviable
    obtain ⟨k', hk'⟩ := hviable.exists_run
    rw [run_eq_none hrun hstep] at hk'
    cases hk'
  · intro haccepted
    obtain ⟨ts, hlex', hts⟩ := run_of_accepted haccepted
    obtain ⟨rfl, -⟩ := Prod.mk.inj (hlex.symm.trans hlex')
    rw [run_eq_none hrun hstep] at hts
    cases hts

/-- A sum in a function lacks its second term. -/
theorem end_word_is_impossible :
    let tokens : List Token := [⟨.keyword, "def", 0⟩, ⟨.identifier, "f", 4⟩,
      ⟨.identifier, "x", 6⟩, ⟨.operator, "+", 8⟩, ⟨.keyword, "end", 10⟩,
      ⟨.endOfInput, "", 13⟩]
    let e : ParseError := .unexpected .operand ⟨.keyword, "end", 10⟩
    (Stream.ofText "def f x + end").tokens = (tokens, none) ∧
      parseProgram 6 "def f x + end" = .error (.error e) ∧
      ∃ front t rest, tokens = front ++ t :: rest ∧
        e.NamesOffset t.position ∧
        (∀ u ∈ front, u.position < t.position) ∧
        (∀ u ∈ rest, t.position < u.position) ∧
        Viable front ∧ ¬ Viable (front ++ [t]) ∧
        (t.kind = .endOfInput → rest = []) ∧ ¬ Accepted "def f x + end" := by
  intro tokens e
  have hlex : (Stream.ofText "def f x + end").tokens = (tokens, none) := by
    cbv
  have hparse : parseProgram 6 "def f x + end" = .error (.error e) := by cbv
  exact ⟨hlex, hparse, error_at_first_impossible_token _ _ hlex _ _ hparse⟩

end Scriptlet
