import Scriptlet.Proofs.OpenBlocks

/-!
# Texts that can be continued

A text that has to be continued need not be the beginning of a program: the
count of the words `def` and `end` goes on behind a token at which the parser
gives up. Here is said which texts can be continued to a program
(`held_back_continuable_iff`).

What is written behind a text leaves its tokens alone, up to the last one,
which goes on if it is a number or a word and no blank comes between
(`Lexes.ending`). A number stays one. A word may turn from a keyword into an
identifier, and wherever a keyword can come an identifier can
(`Agenda.step_identifier`), so it is enough to look at one more letter.
-/

namespace Scriptlet

open Agenda

/-! ## Texts without an error in front of their end -/

/-- If the parser objects to the text, then to its end. -/
def Faultless (source : String) : Prop :=
  ∀ limit e, parseProgram limit source = .error (.error e) →
    ∃ t, e.found? = some t ∧ t.kind = .endOfInput

section

variable {source : String} {front : List Token} {position : Int}

/-- A row of tokens up to the end of the input, split at one of them. -/
theorem eq_end_or_mem_front {before rest : List Token} {t : Token}
    (h : front ++ [Token.atEnd position] = before ++ t :: rest) :
    (t = Token.atEnd position ∧ before = front) ∨
      ∃ others, front = before ++ t :: others := by
  rcases List.eq_nil_or_concat' rest with rfl | ⟨others, last, rfl⟩
  · obtain ⟨rfl, hend⟩ := List.append_inj' h rfl
    cases hend
    exact Or.inl ⟨rfl, rfl⟩
  · rw [← List.cons_append, ← List.append_assoc] at h
    obtain ⟨rfl, -⟩ := List.append_inj' h rfl
    exact Or.inr ⟨others, rfl⟩

theorem faultless_of_run {k : Agenda}
    (htokens : (Stream.ofText source).tokens =
      (front ++ [Token.atEnd position], none))
    (hrun : run [] front = some k) : Faultless source := by
  intro limit e h
  obtain ⟨before, t, rest, k', hsplit, hfound, hbefore, hstep⟩ :=
    exists_impossible_token htokens h
  rcases eq_end_or_mem_front hsplit with ⟨rfl, -⟩ | ⟨others, rfl⟩
  · exact ⟨_, hfound, rfl⟩
  · rw [run_eq_none hbefore hstep] at hrun
    cases hrun

/-- An error about the end of the input is about a text that can be
scanned. -/
theorem tokens_of_error_at_end {limit : Nat} {e : ParseError} {t : Token}
    (h : parseProgram limit source = .error (.error e))
    (hfound : e.found? = some t) (ht : t.kind = .endOfInput) :
    (Stream.ofText source).tokens =
      ((Stream.ofText source).tokens.1, none) := by
  cases hcursor : Cursor.ofText source with
  | error e' =>
      obtain ⟨error, rfl⟩ := Cursor.eq_unrecognized_of_ofText hcursor
      rw [parseProgram_of_error hcursor] at h
      cases h
      cases hfound
  | ok c =>
      obtain ⟨before, k, rest, hsplit, -, hat⟩ :=
        stops_of_parseProgram hcursor h
      cases hat with
      | unrecognized _ => cases hfound
      | token hfound' _ _ =>
          cases hfound.symm.trans hfound'
          refine Stream.tokens_eq_of_endOfInput
            (Stream.yields_ofText source) ?_ ht
          rw [hsplit]
          exact List.mem_append_right _ List.mem_cons_self

/-- The tokens of a text without a fault leave an agenda. -/
theorem Faultless.exists_run (h : Faultless source) :
    ∃ front k, (Stream.ofText source).tokens =
      (front ++ [Token.atEnd source.toList.length], none) ∧
        run [] front = some k := by
  have hdeep : parseProgram (Stream.ofText source).tokens.1.length source ≠
      .error .tooDeep := parseProgram_ne_tooDeep (Nat.le_refl _)
  cases hparse :
      parseProgram (Stream.ofText source).tokens.1.length source with
  | ok nodes =>
      obtain ⟨ts, htokens, hrun⟩ := run_of_accepted ⟨_, nodes, hparse⟩
      obtain ⟨front, rfl, -⟩ := (tokenizes_of_tokens htokens).ends
      obtain ⟨k, hk, -⟩ := exists_run_of_append hrun
      exact ⟨front, k, htokens, hk⟩
  | error failure =>
      cases failure with
      | tooDeep => exact absurd hparse hdeep
      | error e =>
          obtain ⟨t, hfound, ht⟩ := h _ e hparse
          have htokens := tokens_of_error_at_end hparse hfound ht
          obtain ⟨front, hfront, hkinds⟩ := (tokenizes_of_tokens htokens).ends
          rw [hfront] at htokens
          obtain ⟨before, t', rest, k, hsplit, hfound', hrun, -⟩ :=
            exists_impossible_token htokens hparse
          cases hfound.symm.trans hfound'
          rcases eq_end_or_mem_front hsplit with ⟨-, rfl⟩ | ⟨others, rfl⟩
          · exact ⟨before, k, htokens, hrun⟩
          · exact absurd ht (hkinds t (by simp))

/-- A text without a fault can be continued: by what completes its
agenda. -/
theorem Faultless.exists_accepted (h : Faultless source) :
    ∃ more, Accepted (source ++ more) := by
  obtain ⟨front, k, htokens, hrun⟩ := h.exists_run
  let more := spelling (completion k)
  obtain ⟨us, hus, hmore⟩ := exists_lexes_spelling (writableRow_completion k)
    (source.toList ++ more).length (0 + source.toList.length)
  have hlexes := (tokens_eq_iff_lexes.mp htokens).append
    (head?_spelling (completion k)) hmore
  refine ⟨String.ofList more, accepted_iff.mpr
    ⟨_, tokens_eq_iff_lexes.mpr (by simpa using hlexes), ?_⟩⟩
  rw [run_append, hrun, Option.bind_some, run_append, run_relocated hus,
    ← run_append, run_completion]

end

/-! ## Steps with numbers and words -/

namespace Agenda

theorem exists_step_of_run {before us : List Token} {t : Token}
    {k k' : Agenda} (h : run k (before ++ t :: us) = some k') :
    ∃ k₁ k₂, run k before = some k₁ ∧ step t k₁ = some k₂ := by
  obtain ⟨k₁, hk₁, h⟩ := exists_run_of_append h
  rw [run_cons] at h
  obtain ⟨k₂, hk₂, -⟩ := Option.bind_eq_some_iff.mp h
  exact ⟨k₁, k₂, hk₁, hk₂⟩

theorem skips_of_number {t : Token} (h : t.kind = .number) : Skips t := by
  rw [Skips, h]
  decide

/-- All numbers do the same. -/
theorem step_number {t u : Token} (ht : t.kind = .number)
    (hu : u.kind = .number) (k : Agenda) : step u k = step t k := by
  induction k with
  | nil =>
      simp [step, startStatement, startTerm, Token.isOperator,
        Token.isKeyword, ht, hu]
  | cons part k ih =>
      cases part with
      | parameterList | separator | equals | tail | call =>
          rw [step_skip (skips_of_number ht) rfl,
            step_skip (skips_of_number hu) rfl, ih]
      | statement | name | parameter | nextParameter | body | term
      | argument | nextArgument | closing =>
          simp [step, startStatement, startTerm, Token.isOperator,
            Token.isKeyword, ht, hu]

theorem skips_of_word {t : Token} (h : t.kind = wordKind t.lexeme) :
    Skips t := by
  rw [Skips, h, wordKind]
  split <;> decide

/-- Where a word can come, an identifier can. -/
theorem step_identifier {t u : Token} {k k' : Agenda}
    (ht : t.kind = wordKind t.lexeme) (hu : u.kind = .identifier)
    (h : step t k = some k') : ∃ k₁, step u k = some k₁ := by
  have htskips := skips_of_word ht
  have huskips : Skips u := by
    rw [Skips, hu]
    decide
  induction k with
  | nil =>
      simp [step, startStatement, Token.isOperator, Token.isKeyword, hu]
  | cons part k ih =>
      cases part with
      | parameterList | separator | equals | tail | call =>
          rw [step_skip htskips rfl] at h
          rw [step_skip huskips rfl]
          exact ih h
      | statement | name | parameter | body | term | argument =>
          simp [step, startStatement, startTerm, Token.isKeyword, hu]
      | nextParameter | nextArgument | closing =>
          -- only commas and parentheses can come here
          have hclose : ¬ (t.kind == .rightParen) = true := by
            rw [ht, wordKind]
            split <;> decide
          have hcomma : ¬ t.isOperator "," = true := fun hcomma =>
            htskips.1 (Token.kind_of_isOperator hcomma)
          simp [step, hclose, hcomma] at h

end Agenda

/-! ## How a text ends -/

abbrev row (finish position : Int) (cs : List Char) : List Token :=
  (Stream.scan finish position cs).tokens.1

theorem row_nil (finish position : Int) :
    row finish position [] = [Token.atEnd finish] := by
  rw [row, Stream.scan]
  rfl

/-- The word that a token becomes when characters follow it directly. -/
def Token.grown (t : Token) (more : List Char) : Token :=
  let word := t.lexeme ++ String.ofList (more.takeWhile isWordPart)
  ⟨wordKind word, word, t.position⟩

/-- What becomes of the tokens `front` of some characters when others
follow. -/
inductive Ending (position : Int) (cs : List Char) : List Token → Prop
  /-- Nothing: the last one, if there is one, has ended. -/
  | closed {front : List Token} :
      (∀ finish more, ∃ us, row finish position (cs ++ more) = front ++ us) →
      Ending position cs front
  /-- The last one is a number, and may become another one. -/
  | number {before : List Token} {t : Token} : t.kind = .number →
      (∀ finish more, ∃ u us, u.kind = .number ∧
        row finish position (cs ++ more) = before ++ u :: us) →
      Ending position cs (before ++ [t])
  /-- The last one is a word, and may become another one. -/
  | word {before : List Token} {t : Token} :
      (∀ finish more, ∃ position', row finish position (cs ++ more) =
        before ++ t.grown more ::
          row finish position' (more.dropWhile isWordPart)) →
      Ending position cs (before ++ [t])

/-- The end does not depend on what is in front. -/
theorem Ending.prepend {position position' : Int} {cs cs' : List Char}
    {front : List Token} (before : List Token)
    (hrow : ∀ finish more, row finish position' (cs' ++ more) =
      before ++ row finish position (cs ++ more))
    (h : Ending position cs front) : Ending position' cs' (before ++ front) := by
  cases h with
  | closed h =>
      refine .closed fun finish more => ?_
      obtain ⟨us, hus⟩ := h finish more
      exact ⟨us, by rw [hrow, hus, List.append_assoc]⟩
  | number ht h =>
      rw [← List.append_assoc]
      refine .number ht fun finish more => ?_
      obtain ⟨u, us, hu, hus⟩ := h finish more
      exact ⟨u, us, hu, by rw [hrow, hus, List.append_assoc]⟩
  | word h =>
      rw [← List.append_assoc]
      refine .word fun finish more => ?_
      obtain ⟨position', hmore⟩ := h finish more
      exact ⟨position', by rw [hrow, hmore, List.append_assoc]⟩

/-- A symbol has ended, whatever follows. -/
theorem Token.endsBefore_symbol {t : Token} {c : Char}
    (h : symbolKind? c = some t.kind) (follower : Option Char) :
    t.EndsBefore follower := by
  have hmem := symbolKind?_mem h
  simp only [List.mem_cons, List.not_mem_nil, or_false] at hmem
  unfold EndsBefore
  rcases hmem with hkind | hkind | hkind | hkind <;> rw [hkind] <;> trivial

/-- A single token at the end. -/
theorem ending_token {t : Token} (hkind : t.kind ≠ .endOfInput)
    (hspelled : t.Spelled) :
    Ending t.position t.lexeme.toList ([] ++ [t]) := by
  rcases (Token.spelled_iff hkind).mp hspelled with ⟨hnumber, hne, hdigits⟩ |
    ⟨hword, c, cs, hcs, hstart, hparts⟩ | ⟨c, hsymbol, hc⟩
  · obtain ⟨c, cs, hcs⟩ := List.exists_cons_of_ne_nil hne
    refine .number hnumber fun finish more => ?_
    rw [hcs] at hdigits ⊢
    rw [row, List.cons_append, Stream.scan_digit _ _ _ (hdigits c (by simp))]
    exact ⟨_, _, rfl, rfl⟩
  · refine .word fun finish more => ?_
    rw [hcs, row, List.cons_append, Stream.scan_word _ _ _ hstart,
      List.takeWhile_append_of_pos hparts, List.dropWhile_append_of_pos hparts]
    have hgrown : String.ofList (c :: (cs ++ more.takeWhile isWordPart)) =
        t.lexeme ++ String.ofList (more.takeWhile isWordPart) := by
      rw [← String.toList_inj]
      simp [hcs]
    dsimp only
    rw [hgrown]
    exact ⟨_, rfl⟩
  · refine .closed fun finish more => ?_
    have hends := Token.endsBefore_symbol hsymbol more.head?
    rw [row, Stream.scan_token _ hkind hspelled hends]
    exact ⟨_, rfl⟩

theorem Lexes.ending {finish position : Int} {cs : List Char}
    {front : List Token}
    (h : Lexes finish position cs (front ++ [Token.atEnd finish])) :
    Ending position cs front := by
  generalize hts : front ++ [Token.atEnd finish] = ts at h
  induction h generalizing front with
  | finish =>
      obtain ⟨rfl, -⟩ := List.append_eq_singleton_iff.mp hts |>.resolve_right
        fun h => absurd h.2 (List.cons_ne_nil _ _)
      exact .closed fun _ _ => ⟨_, rfl⟩
  | blank hc _ ih =>
      refine Ending.prepend [] (fun finish more => ?_) (ih hts)
      rw [row, List.cons_append, Stream.scan_blank _ _ _ hc]
      rfl
  | @token t rest ts hkind hspelled hends hrest ih =>
      cases front with
      | nil =>
          cases hts
          exact absurd rfl hkind
      | cons u front =>
          obtain ⟨rfl, hrow⟩ := List.cons.inj hts
          cases rest with
          | nil =>
              have hend : row finish u.finish [] = ts :=
                congrArg Prod.fst (Stream.tokens_of_lexes hrest)
              rw [row_nil, ← hrow] at hend
              obtain rfl : front = [] := by simpa using hend
              rw [List.append_nil]
              exact ending_token hkind hspelled
          | cons c rest =>
              refine Ending.prepend [u] (fun finish more => ?_) (ih hrow)
              have hends' : u.EndsBefore (c :: rest ++ more).head? := hends
              rw [row, List.append_assoc,
                Stream.scan_token _ hkind hspelled hends']
              rfl

/-! ## Which texts can be continued -/

theorem wordKind_append_letter (word : String) :
    wordKind (word ++ "x") = .identifier := by
  have hlast : (word ++ "x").toList.getLast? = some 'x' := by simp
  have hreserved : ∀ r ∈ reservedWords, r.toList.getLast? ≠ some 'x' := by
    decide
  have hnot : word ++ "x" ∉ reservedWords := fun hmem =>
    hreserved _ hmem hlast
  exact (eq_wordKind_iff.mpr (Or.inr ⟨rfl, hnot⟩)).symm

/-- A text with a continuation has no fault, or a fault in its last word that
goes away when the word goes on. -/
theorem faultless_of_accepted {source more : String}
    (h : Accepted (source ++ more)) :
    Faultless source ∨ Faultless (source ++ "x") := by
  obtain ⟨ts, htokens, hrun⟩ := run_of_accepted h
  have hrecognised := (tokens_eq_iff_lexes.mp htokens).isRecognised
  rw [String.toList_append] at hrecognised
  have hsource : ∀ c ∈ source.toList, isRecognised c = true := fun c hc =>
    hrecognised c (List.mem_append_left _ hc)
  obtain ⟨all, hall⟩ := Stream.exists_lexes source.toList.length 0 hsource
  have hfront := tokenizes_of_tokens (tokens_eq_iff_lexes.mpr hall)
  obtain ⟨front, rfl, -⟩ := hfront.ends
  have hrow : ts = row (source ++ more).toList.length 0
      (source.toList ++ more.toList) := by
    rw [row, ← String.toList_append, ← Stream.ofText_eq, htokens]
  cases hall.ending with
  | closed hclosed =>
      obtain ⟨us, hus⟩ := hclosed (source ++ more).toList.length more.toList
      rw [hrow, hus] at hrun
      obtain ⟨k, hk, -⟩ := exists_run_of_append hrun
      exact Or.inl (faultless_of_run (tokens_eq_iff_lexes.mpr hall) hk)
  | @number before t ht hnumber =>
      obtain ⟨u, us, hu, hus⟩ :=
        hnumber (source ++ more).toList.length more.toList
      rw [hrow, hus] at hrun
      obtain ⟨k, k', hk, hstep⟩ := exists_step_of_run hrun
      rw [step_number ht hu] at hstep
      exact Or.inl (faultless_of_run (tokens_eq_iff_lexes.mpr hall)
        ((run_concat t hk).trans hstep))
  | @word before t hword =>
      obtain ⟨_, hus⟩ := hword (source ++ more).toList.length more.toList
      rw [hrow, hus] at hrun
      obtain ⟨k, k', hk, hstep⟩ := exists_step_of_run hrun
      -- with a letter behind it, the last word is an identifier
      have hgrown : (t.grown ['x']).kind = .identifier :=
        wordKind_append_letter t.lexeme
      obtain ⟨k₁, hk₁⟩ := step_identifier rfl hgrown hstep
      obtain ⟨position, hx⟩ := hword (source ++ "x").toList.length ['x']
      have hdrop : ['x'].dropWhile isWordPart = [] := by decide
      have hchars : (source ++ "x").toList = source.toList ++ ['x'] :=
        String.toList_append
      have htokens : (Stream.ofText (source ++ "x")).tokens.1 =
          (before ++ [t.grown ['x']]) ++
            [Token.atEnd (source ++ "x").toList.length] := by
        rw [hdrop, row_nil, ← hchars] at hx
        rw [Stream.ofText_eq, List.append_assoc]
        exact hx
      have hscanned := Stream.tokens_eq_of_endOfInput
        (Stream.yields_ofText (source ++ "x"))
        (by rw [htokens]; exact List.mem_concat_self) rfl
      rw [htokens] at hscanned
      exact Or.inr (faultless_of_run hscanned
        ((run_concat _ hk).trans hk₁))

/-- **What is held back.** A text that is held back is no program yet. It can
be continued to one exactly if the parser objects only to its end, or would
do so if the last word of the text had one more letter. -/
theorem held_back_continuable_iff (source : String)
    (h : needsMoreInput source = true) :
    ¬ Accepted source ∧
      ((∃ more, Accepted (source ++ more)) ↔
        Faultless source ∨ Faultless (source ++ "x")) := by
  refine ⟨fun haccepted => ?_, ?_, ?_⟩
  · rw [needsMoreInput_of_accepted haccepted] at h
    cases h
  · rintro ⟨more, hmore⟩
    exact faultless_of_accepted hmore
  · rintro (hsource | hx)
    · exact hsource.exists_accepted
    · obtain ⟨more, hmore⟩ := hx.exists_accepted
      rw [String.append_assoc] at hmore
      exact ⟨"x" ++ more, hmore⟩

/-- A function without its body is held back, and can be continued. -/
theorem unfinished_function_is_continuable :
    needsMoreInput "def f(x)" = true ∧
      ∃ more, Accepted ("def f(x)" ++ more) := by
  have hmore : needsMoreInput "def f(x)" = true := by cbv
  refine ⟨hmore, (held_back_continuable_iff _ hmore).2.mpr (Or.inl ?_)⟩
  have htokens : (Stream.ofText "def f(x)").tokens =
      ([⟨.keyword, "def", 0⟩, ⟨.identifier, "f", 4⟩, ⟨.leftParen, "(", 5⟩,
        ⟨.identifier, "x", 6⟩, ⟨.rightParen, ")", 7⟩] ++ [Token.atEnd 8],
        none) := by cbv
  have hrun : run [] [⟨.keyword, "def", 0⟩, ⟨.identifier, "f", 4⟩,
      ⟨.leftParen, "(", 5⟩, ⟨.identifier, "x", 6⟩, ⟨.rightParen, ")", 7⟩] =
      some [.body] := by decide
  exact faultless_of_run htokens hrun

/-- A number where the name of a function should be is held back as well,
though no program starts with it. -/
theorem malformed_function_is_held_back :
    needsMoreInput "def 1" = true ∧ ∀ more, ¬ Accepted ("def 1" ++ more) := by
  refine ⟨by cbv, fun more haccepted => ?_⟩
  obtain ⟨ts, htokens, hrun⟩ := run_of_accepted haccepted
  have hchars : ("def 1" ++ more).toList =
      defWord.lexeme.toList ++ ' ' :: '1' :: more.toList := by
    rw [String.toList_append]
    rfl
  have hdef : defWord.EndsBefore (' ' :: '1' :: more.toList).head? :=
    Token.endsBefore_of_blank (by rintro c ⟨rfl⟩; decide)
  -- whatever follows, the second token is a number
  rw [Stream.ofText_eq, hchars, show (0 : Int) = defWord.position from rfl,
    Stream.scan_token _ writable_defWord.1 writable_defWord.2 hdef,
    Stream.scan_blank _ _ _ (by decide),
    Stream.scan_digit _ _ _ (by decide)] at htokens
  obtain ⟨rfl, -⟩ := Prod.mk.inj htokens
  rw [run_cons] at hrun
  cases hrun

end Scriptlet
