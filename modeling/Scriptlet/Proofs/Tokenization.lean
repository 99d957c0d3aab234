import Scriptlet.Proofs.WellFormed

/-!
# Tokens of a text

What the tokens of a text are can be said without a scanner: they stand in
the text at their offsets, one behind the other, with nothing but blanks
around them; each is spelled as its kind asks for; and numbers and words are
as long as they can be (`Tokenizes`). The scanner succeeds on the texts that
have no unrecognised character, and its tokens are the only ones with these
properties. On another text it gives the tokens in front of the first
unrecognised character, and then this character (`tokenization_is_exact`).

Between the two stands `Lexes`, which takes a text apart from the front,
with a rule for a blank and a rule for a token.
-/

namespace Scriptlet

/-! ## Characters -/

/-- The characters that can stand between tokens. -/
def blanks : List Char := [' ', '\t', '\n']

/-- The characters that are tokens on their own. -/
def symbols : List Char := ['+', '-', '*', '/', ',', ';', '=', '(', ')']

/-- The characters that a program can be written with. -/
def isRecognised (c : Char) : Bool :=
  c.isAlphanum || c == '_' || symbols.contains c || blanks.contains c

theorem isSpace_iff {c : Char} : isSpace c = true ↔ c ∈ blanks := by
  simp [isSpace, blanks, or_assoc]

theorem symbolKind?_eq_some_iff {c : Char} {kind : TokenKind} :
    symbolKind? c = some kind ↔
      kind = .operator ∧ c ∈ ['+', '-', '*', '/', ',', ';'] ∨
      kind = .assign ∧ c = '=' ∨ kind = .leftParen ∧ c = '(' ∨
      kind = .rightParen ∧ c = ')' := by
  simp only [symbolKind?, List.contains_iff_mem, beq_iff_eq]
  grind

theorem symbolKind?_ne_endOfInput {c : Char} {kind : TokenKind}
    (h : symbolKind? c = some kind) : kind ≠ .endOfInput := by
  rcases symbolKind?_eq_some_iff.mp h with ⟨rfl, -⟩ | ⟨rfl, -⟩ | ⟨rfl, -⟩ |
    ⟨rfl, -⟩ <;> decide

theorem isSome_symbolKind? {c : Char} :
    (symbolKind? c).isSome = true ↔ c ∈ symbols := by
  simp only [Option.isSome_iff_exists, symbolKind?_eq_some_iff, symbols]
  grind

theorem eq_wordKind_iff {kind : TokenKind} {word : String} :
    kind = wordKind word ↔ kind = .keyword ∧ word ∈ reservedWords ∨
      kind = .identifier ∧ word ∉ reservedWords := by
  unfold wordKind
  simp only [List.contains_iff_mem]
  split <;> simp [*]

/-- The four classes of characters that the scanner looks for. -/
theorem isRecognised_iff {c : Char} :
    isRecognised c = true ↔ isSpace c = true ∨ c.isDigit = true ∨
      isWordStart c = true ∨ (symbolKind? c).isSome = true := by
  rw [isSpace_iff, isSome_symbolKind?]
  simp only [isRecognised, isWordStart, Char.isAlphanum, Bool.or_eq_true,
    beq_iff_eq, List.contains_iff_mem]
  tauto

/-- A blank ends every number and every word. -/
theorem not_part_of_mem_blanks : ∀ c ∈ blanks,
    c.isDigit = false ∧ isWordPart c = false := by
  simp [blanks, isWordPart, isWordStart, Char.isAlpha, Char.isUpper,
    Char.isLower]

theorem not_part_of_mem_symbols : ∀ c ∈ symbols, isSpace c = false ∧
    c.isDigit = false ∧ isWordPart c = false := by
  simp [symbols, isSpace, isWordPart, isWordStart, Char.isAlpha, Char.isUpper,
    Char.isLower]

theorem not_isDigit_of_isWordStart {c : Char} (h : isWordStart c = true) :
    c.isDigit = false := by
  rcases Bool.or_eq_true_iff.mp h with halpha | hunderscore
  · grind [Char.isAlpha, Char.isUpper, Char.isLower, Char.isDigit]
  · rw [eq_of_beq hunderscore]
    decide

/-! ## Spelling -/

/-- A letter or an underscore, and then letters, underscores and digits. -/
def IsWord (word : String) : Prop :=
  ∃ c cs, word.toList = c :: cs ∧ isWordStart c = true ∧
    ∀ d ∈ cs, isWordPart d = true

namespace Token

/-- The token is spelled as its kind asks for. -/
def Spelled (t : Token) : Prop :=
  match t.kind with
  | .number => IsNumeral t.lexeme
  | .identifier => IsWord t.lexeme ∧ t.lexeme ∉ reservedWords
  | .keyword => IsWord t.lexeme ∧ t.lexeme ∈ reservedWords
  | .operator => t.lexeme ∈ ["+", "-", "*", "/", ",", ";"]
  | .assign => t.lexeme = "="
  | .leftParen => t.lexeme = "("
  | .rightParen => t.lexeme = ")"
  | .endOfInput => t.lexeme = ""

/-- The character behind the token, if there is one, could not be a part of
it. -/
def EndsBefore (t : Token) (follower : Option Char) : Prop :=
  match t.kind with
  | .number => ∀ c ∈ follower, c.isDigit = false
  | .identifier | .keyword => ∀ c ∈ follower, isWordPart c = false
  | _ => True

/-- A token is a number, a word or a symbol. -/
theorem spelled_iff {t : Token} (hkind : t.kind ≠ .endOfInput) :
    t.Spelled ↔ (t.kind = .number ∧ IsNumeral t.lexeme) ∨
      (t.kind = wordKind t.lexeme ∧ IsWord t.lexeme) ∨
      ∃ c, symbolKind? c = some t.kind ∧ t.lexeme = c.toString := by
  simp only [eq_wordKind_iff, symbolKind?_eq_some_iff]
  obtain ⟨kind, lexeme, position⟩ := t
  cases kind <;> simp_all [Spelled, and_comm]

theorem endsBefore_word {t : Token} (h : t.kind = wordKind t.lexeme)
    {follower : Option Char} :
    t.EndsBefore follower ↔ ∀ c ∈ follower, isWordPart c = false := by
  unfold EndsBefore
  rcases eq_wordKind_iff.mp h with ⟨hkind, -⟩ | ⟨hkind, -⟩ <;> rw [hkind]

/-- An unrecognised character ends every token. -/
theorem endsBefore_of_unrecognised {t : Token} {c : Char}
    (h : isRecognised c = false) : t.EndsBefore (some c) := by
  have hnone := mt isRecognised_iff.mpr (Bool.eq_false_iff.mp h)
  simp only [not_or, Bool.not_eq_true] at hnone
  obtain ⟨-, hdigit, hstart, -⟩ := hnone
  unfold EndsBefore
  split
  · rintro d ⟨rfl⟩
    exact hdigit
  · rintro d ⟨rfl⟩
    rw [isWordPart, hstart, hdigit]
    rfl
  · rintro d ⟨rfl⟩
    rw [isWordPart, hstart, hdigit]
    rfl
  · trivial

end Token

/-! ## Tokens at their places -/

/-- The characters from one offset up to another. -/
def slice (cs : List Char) (start finish : Int) : List Char :=
  (cs.drop start.toNat).take (finish - start).toNat

/-- The token stands in the text where it says, and is as long as it can
be. -/
structure Token.StandsIn (cs : List Char) (t : Token) : Prop where
  position_nonneg : 0 ≤ t.position
  lexeme_eq : t.lexeme.toList = slice cs t.position t.finish
  spelled : t.Spelled
  endsBefore : t.EndsBefore cs[t.finish.toNat]?

/-- From an offset on there are only blanks in front of the first token and
between a token and the next one. -/
def OnlyBlanksBetween (cs : List Char) : Int → List Token → Prop
  | _, [] => True
  | offset, t :: ts =>
    offset ≤ t.position ∧ (∀ c ∈ slice cs offset t.position, c ∈ blanks) ∧
      OnlyBlanksBetween cs t.finish ts

structure TokenizesFrom (cs : List Char) (offset : Int) (ts : List Token) :
    Prop where
  /-- The last token, and no other one, is the end of the input. It stands
  behind the last character. -/
  ends : ∃ front, ts = front ++ [Token.atEnd cs.length] ∧
    ∀ t ∈ front, t.kind ≠ .endOfInput
  increasing : (ts.map Token.position).Pairwise (· < ·)
  standing : ∀ t ∈ ts, t.StandsIn cs
  between : OnlyBlanksBetween cs offset ts

def Tokenizes (source : String) (ts : List Token) : Prop :=
  TokenizesFrom source.toList 0 ts

/-! ## From the front -/

/-- Characters whose first one has offset `position` are taken apart into
tokens; the end of the input is reported at `finish`. -/
inductive Lexes (finish : Int) : Int → List Char → List Token → Prop
  | finish {position : Int} :
      Lexes finish position [] [Token.atEnd finish]
  | blank {position : Int} {c : Char} {cs : List Char} {ts : List Token} :
      c ∈ blanks → Lexes finish (position + 1) cs ts →
      Lexes finish position (c :: cs) ts
  | token {t : Token} {rest : List Char} {ts : List Token} :
      t.kind ≠ .endOfInput → t.Spelled → t.EndsBefore rest.head? →
      Lexes finish t.finish rest ts →
      Lexes finish t.position (t.lexeme.toList ++ rest) (t :: ts)

theorem Token.Spelled.isRecognised {t : Token} (h : t.Spelled)
    (hkind : t.kind ≠ .endOfInput) {c : Char} (hc : c ∈ t.lexeme.toList) :
    isRecognised c = true := by
  rw [isRecognised_iff]
  rcases (Token.spelled_iff hkind).mp h with ⟨-, hnumeral⟩ |
    ⟨-, d, ds, hword, hstart, hparts⟩ | ⟨d, hsymbol, hlexeme⟩
  · exact Or.inr (Or.inl (hnumeral.2 c hc))
  · rw [hword] at hc
    rcases List.mem_cons.mp hc with rfl | hc
    · exact Or.inr (Or.inr (Or.inl hstart))
    · rcases Bool.or_eq_true_iff.mp (hparts c hc) with hstart | hdigit
      · exact Or.inr (Or.inr (Or.inl hstart))
      · exact Or.inr (Or.inl hdigit)
  · obtain rfl : c = d := by simpa [hlexeme] using hc
    rw [hsymbol]
    exact Or.inr (Or.inr (Or.inr rfl))

theorem Lexes.isRecognised {finish position : Int} {cs : List Char}
    {ts : List Token} (h : Lexes finish position cs ts) :
    ∀ c ∈ cs, isRecognised c = true := by
  induction h with
  | finish => exact fun _ hc => absurd hc List.not_mem_nil
  | blank hblank _ ih =>
      refine List.forall_mem_cons.mpr ⟨?_, ih⟩
      exact isRecognised_iff.mpr (Or.inl (isSpace_iff.mpr hblank))
  | token hkind hspelled _ _ ih =>
      exact List.forall_mem_append.mpr
        ⟨fun c hc => hspelled.isRecognised hkind hc, ih⟩

namespace Stream

theorem scan_blank (finish position : Int) {c : Char} (rest : List Char)
    (h : c ∈ blanks) :
    scan finish position (c :: rest) = scan finish (position + 1) rest := by
  rw [scan, if_pos (isSpace_iff.mpr h)]

theorem scan_broken (finish position : Int) {c : Char} (rest : List Char)
    (h : isRecognised c = false) :
    scan finish position (c :: rest) = .broken ⟨c, position⟩ := by
  have hnone := mt isRecognised_iff.mpr (Bool.eq_false_iff.mp h)
  simp only [not_or, Option.not_isSome_iff_eq_none] at hnone
  obtain ⟨hspace, hdigit, hstart, hsymbol⟩ := hnone
  rw [scan, if_neg hspace, if_neg hdigit, if_neg hstart, hsymbol]

theorem scan_digit (finish position : Int) {c : Char} (rest : List Char)
    (h : c.isDigit = true) :
    scan finish position (c :: rest) =
      let digits := c :: rest.takeWhile Char.isDigit
      .token ⟨.number, String.ofList digits, position⟩
        (scan finish (position + digits.length)
          (rest.dropWhile Char.isDigit)) := by
  have hspace : ¬isSpace c = true := by
    intro hspace
    rw [(not_part_of_mem_blanks c (isSpace_iff.mp hspace)).1] at h
    cases h
  rw [scan, if_neg hspace, if_pos h]

theorem scan_word (finish position : Int) {c : Char} (rest : List Char)
    (h : isWordStart c = true) :
    scan finish position (c :: rest) =
      let letters := c :: rest.takeWhile isWordPart
      .token ⟨wordKind (String.ofList letters), String.ofList letters,
          position⟩
        (scan finish (position + letters.length)
          (rest.dropWhile isWordPart)) := by
  have hspace : ¬isSpace c = true := by
    intro hspace
    have hpart := (not_part_of_mem_blanks c (isSpace_iff.mp hspace)).2
    rw [isWordPart, h] at hpart
    cases hpart
  rw [scan, if_neg hspace,
    if_neg (Bool.eq_false_iff.mp (not_isDigit_of_isWordStart h)), if_pos h]

theorem scan_symbol (finish position : Int) {c : Char} (rest : List Char)
    {kind : TokenKind} (h : symbolKind? c = some kind) :
    scan finish position (c :: rest) =
      .token ⟨kind, c.toString, position⟩
        (scan finish (position + 1) rest) := by
  have hmem : c ∈ symbols := isSome_symbolKind?.mp (by rw [h]; rfl)
  obtain ⟨hspace, hdigit, hpart⟩ := not_part_of_mem_symbols c hmem
  have hstart : isWordStart c = false := (Bool.or_eq_false_iff.mp hpart).1
  rw [scan, if_neg (Bool.eq_false_iff.mp hspace),
    if_neg (Bool.eq_false_iff.mp hdigit),
    if_neg (Bool.eq_false_iff.mp hstart), h]

/-- A run of characters of one class that does not go on. -/
theorem takeWhile_run {p : Char → Bool} {run rest : List Char}
    (hrun : ∀ c ∈ run, p c = true) (hrest : ∀ c ∈ rest.head?, p c = false) :
    (run ++ rest).takeWhile p = run ∧ (run ++ rest).dropWhile p = rest := by
  rw [List.takeWhile_append_of_pos hrun, List.dropWhile_append_of_pos hrun]
  cases rest with
  | nil => simp
  | cons c rest => simp [hrest c rfl]

/-- A token that ends where it should is what the scanner finds. -/
theorem scan_token (finish : Int) {t : Token} {rest : List Char}
    (hkind : t.kind ≠ .endOfInput) (hspelled : t.Spelled)
    (hends : t.EndsBefore rest.head?) :
    scan finish t.position (t.lexeme.toList ++ rest) =
      .token t (scan finish t.finish rest) := by
  have hlexeme : String.ofList t.lexeme.toList = t.lexeme :=
    String.ofList_toList
  have hfinish : t.finish = t.position + t.lexeme.toList.length := by
    rw [String.length_toList]
    rfl
  obtain ⟨kind, lexeme, position⟩ := t
  rw [hfinish]
  rcases (Token.spelled_iff hkind).mp hspelled with ⟨hnumber, hne, hdigits⟩ |
    ⟨hword, c, cs, hcs, hstart, hparts⟩ | ⟨c, hsymbol, hc⟩
  · dsimp only at hnumber hne hdigits hlexeme ⊢
    subst hnumber
    obtain ⟨c, cs, hcs⟩ := List.exists_cons_of_ne_nil hne
    rw [hcs] at hdigits hlexeme ⊢
    obtain ⟨hc, hrun⟩ := List.forall_mem_cons.mp hdigits
    obtain ⟨htake, hdrop⟩ := takeWhile_run hrun hends
    rw [List.cons_append, scan_digit _ _ _ hc, htake, hdrop]
    dsimp only
    rw [hlexeme]
  · have hends := (Token.endsBefore_word hword).mp hends
    obtain ⟨htake, hdrop⟩ := takeWhile_run hparts hends
    dsimp only at hword hcs hlexeme ⊢
    rw [hcs] at hlexeme ⊢
    rw [List.cons_append, scan_word _ _ _ hstart, htake, hdrop]
    dsimp only
    rw [hlexeme, ← hword]
  · dsimp only at hsymbol hc ⊢
    have hcs : lexeme.toList = [c] := by simp [hc]
    rw [hcs, hc]
    exact scan_symbol _ _ _ hsymbol

theorem tokens_of_lexes {finish position : Int} {cs : List Char}
    {ts : List Token} (h : Lexes finish position cs ts) :
    (scan finish position cs).tokens = (ts, none) := by
  induction h with
  | finish => rw [scan, tokens]
  | blank hblank _ ih =>
      rw [scan_blank _ _ _ hblank]
      exact ih
  | token hkind hspelled hends _ ih =>
      rw [scan_token _ hkind hspelled hends, tokens, ih]

/-- The first character behind a run does not belong to it. -/
theorem head?_dropWhile_run (p : Char → Bool) (cs : List Char) :
    ∀ c ∈ (cs.dropWhile p).head?, p c = false := by
  intro c hc
  have h := List.head?_dropWhile_not p cs
  rw [Option.mem_def.mp hc] at h
  exact h

/-- A token in front of other characters. -/
theorem lexes_token {finish : Int} {t : Token} {run rest cs : List Char}
    {ts : List Token} (hlexeme : t.lexeme.toList = run)
    (hcs : run ++ rest = cs) (hkind : t.kind ≠ .endOfInput)
    (hspelled : t.Spelled) (hends : t.EndsBefore rest.head?)
    (h : Lexes finish (t.position + run.length) rest ts) :
    Lexes finish t.position cs (t :: ts) := by
  have hfinish : t.finish = t.position + run.length := by
    rw [← hlexeme, String.length_toList]
    rfl
  rw [← hfinish] at h
  rw [← hcs, ← hlexeme]
  exact .token hkind hspelled hends h

/-- Recognised characters can be taken apart. -/
theorem exists_lexes (finish position : Int) {cs : List Char}
    (h : ∀ c ∈ cs, isRecognised c = true) :
    ∃ ts, Lexes finish position cs ts := by
  have hdrop : ∀ {p : Char → Bool} {rest : List Char},
      (∀ c ∈ rest, isRecognised c = true) →
      ∀ c ∈ rest.dropWhile p, isRecognised c = true :=
    fun hrest c hc => hrest c ((List.dropWhile_suffix _).subset hc)
  have hrun : ∀ (p : Char → Bool) (c : Char) (rest : List Char),
      (c :: rest.takeWhile p) ++ rest.dropWhile p = c :: rest :=
    fun p c rest => congrArg (c :: ·) List.takeWhile_append_dropWhile
  fun_induction scan finish position cs with
  | case1 => exact ⟨_, .finish⟩
  | case2 position c rest hspace ih =>
      obtain ⟨ts, hts⟩ := ih (List.forall_mem_cons.mp h).2
      exact ⟨ts, .blank (isSpace_iff.mp hspace) hts⟩
  | case3 position c rest hspace hdigit digits ih =>
      obtain ⟨ts, hts⟩ := ih (hdrop (List.forall_mem_cons.mp h).2)
      have hspelled : Token.Spelled ⟨.number, String.ofList digits, position⟩ :=
        isNumeral_digits rest hdigit
      have hkind : TokenKind.number ≠ .endOfInput := by decide
      exact ⟨_, lexes_token String.toList_ofList (hrun _ c rest) hkind
        hspelled (head?_dropWhile_run Char.isDigit rest) hts⟩
  | case4 position c rest hspace hdigit hstart letters word ih =>
      obtain ⟨ts, hts⟩ := ih (hdrop (List.forall_mem_cons.mp h).2)
      have hword : IsWord word := ⟨c, rest.takeWhile isWordPart,
        String.toList_ofList, hstart, fun d hd =>
          List.all_eq_true.mp List.all_takeWhile d hd⟩
      have hkind := wordKind_ne_endOfInput word
      have hspelled : Token.Spelled ⟨wordKind word, word, position⟩ :=
        (Token.spelled_iff hkind).mpr (Or.inr (Or.inl ⟨rfl, hword⟩))
      have hends : Token.EndsBefore ⟨wordKind word, word, position⟩
          (rest.dropWhile isWordPart).head? :=
        (Token.endsBefore_word rfl).mpr (head?_dropWhile_run isWordPart rest)
      exact ⟨_, lexes_token String.toList_ofList (hrun _ c rest) hkind hspelled
        hends hts⟩
  | case5 position c rest hspace hdigit hstart kind hkind ih =>
      obtain ⟨ts, hts⟩ := ih (List.forall_mem_cons.mp h).2
      have hends : Token.EndsBefore ⟨kind, c.toString, position⟩
          rest.head? := by
        rcases symbolKind?_eq_some_iff.mp hkind with ⟨rfl, -⟩ | ⟨rfl, -⟩ |
          ⟨rfl, -⟩ | ⟨rfl, -⟩ <;> exact trivial
      have hne := symbolKind?_ne_endOfInput hkind
      have hspelled : Token.Spelled ⟨kind, c.toString, position⟩ :=
        (Token.spelled_iff hne).mpr (Or.inr (Or.inr ⟨c, hkind, rfl⟩))
      have hlexeme : c.toString.toList = [c] := by simp
      exact ⟨_, lexes_token (t := ⟨kind, c.toString, position⟩) hlexeme
        List.singleton_append hne hspelled hends hts⟩
  | case6 position c rest hspace hdigit hstart hsymbol =>
      rcases isRecognised_iff.mp (h c List.mem_cons_self) with h | h | h | h
      · exact absurd h hspace
      · exact absurd h hdigit
      · exact absurd h hstart
      · rw [hsymbol] at h
        cases h

/-- In front of an unrecognised character the tokens are those of the
characters before it. -/
theorem tokens_of_unrecognised {finish position : Int} {front : List Char}
    {ts : List Token} (h : Lexes finish position front ts) {c : Char}
    (hc : isRecognised c = false) (finish' : Int) (rest : List Char) :
    ∃ before, ts = before ++ [Token.atEnd finish] ∧
      (∀ t ∈ before, t.kind ≠ .endOfInput) ∧
      (scan finish' position (front ++ c :: rest)).tokens =
        (before, some ⟨c, position + front.length⟩) := by
  induction h with
  | finish =>
      refine ⟨[], rfl, fun _ ht => absurd ht List.not_mem_nil, ?_⟩
      rw [List.nil_append, scan_broken _ _ _ hc]
      simp [tokens]
  | @blank position d cs ts hblank _ ih =>
      obtain ⟨before, hts, hbefore, htokens⟩ := ih
      refine ⟨before, hts, hbefore, ?_⟩
      rw [List.cons_append, scan_blank _ _ _ hblank, htokens]
      simp only [List.length_cons, Prod.mk.injEq, Option.some.injEq,
        LexError.mk.injEq, true_and]
      omega
  | @token t cs ts hkind hspelled hends _ ih =>
      obtain ⟨before, hts, hbefore, htokens⟩ := ih
      refine ⟨t :: before, by rw [hts]; rfl,
        List.forall_mem_cons.mpr ⟨hkind, hbefore⟩, ?_⟩
      have hends' : t.EndsBefore (cs ++ c :: rest).head? := by
        cases cs with
        | cons d cs => exact hends
        | nil => exact Token.endsBefore_of_unrecognised hc
      rw [List.append_assoc, scan_token _ hkind hspelled hends', tokens,
        htokens]
      simp only [Token.finish, List.length_append, String.length_toList,
        Prod.mk.injEq, Option.some.injEq, LexError.mk.injEq, true_and]
      push_cast
      omega

end Stream

/-! ## From the front and at their places -/

section

variable {cs rest run : List Char} {ts : List Token} {k q : Nat}

theorem slice_append_drop (h : k ≤ q) :
    slice cs k q ++ cs.drop q = cs.drop k := by
  have hq : cs.drop q = (cs.drop k).drop (q - k) := by
    rw [List.drop_drop]
    congr 1
    omega
  have hlength : ((q : Int) - (k : Int)).toNat = q - k := by omega
  rw [slice, Int.toNat_natCast, hlength, hq, List.take_append_drop]

theorem slice_of_drop (h : cs.drop k = run ++ rest) :
    slice cs k (k + run.length) = run := by
  have hlength : ((k : Int) + (run.length : Int) - (k : Int)).toNat =
      run.length := by omega
  rw [slice, Int.toNat_natCast, hlength, h, List.take_left]

theorem drop_of_drop (h : cs.drop k = run ++ rest) :
    cs.drop (k + run.length) = rest := by
  rw [← List.drop_drop, h, List.drop_left]

theorem add_length_le (h : cs.drop k = run ++ rest) (hk : k ≤ cs.length) :
    k + run.length ≤ cs.length := by
  have hlength := congrArg List.length h
  rw [List.length_drop, List.length_append] at hlength
  omega

theorem slice_cons {c : Char} (h : cs.drop k = c :: rest) (hq : k + 1 ≤ q) :
    slice cs k q = c :: slice cs (k + 1 : Nat) q := by
  have hrest : cs.drop (k + 1) = rest :=
    drop_of_drop (show cs.drop k = [c] ++ rest from h)
  have hlength : ((q : Int) - (k : Int)).toNat =
      ((q : Int) - ((k + 1 : Nat) : Int)).toNat + 1 := by omega
  rw [slice, slice, Int.toNat_natCast, Int.toNat_natCast, hlength, h, hrest,
    List.take_succ_cons]

theorem Token.position_lt_finish {t : Token} (hkind : t.kind ≠ .endOfInput)
    (hspelled : t.Spelled) : t.position < t.finish := by
  have hne : t.lexeme.toList ≠ [] := by
    rcases (Token.spelled_iff hkind).mp hspelled with ⟨-, hne, -⟩ |
      ⟨-, c, cs, hcs, -⟩ | ⟨c, -, hc⟩
    · exact hne
    · simp [hcs]
    · simp [hc]
  have hpos := List.length_pos_iff.mpr hne
  rw [String.length_toList] at hpos
  unfold Token.finish
  omega

theorem Token.finish_eq {t : Token} (h : t.position = k) :
    t.finish = (k + t.lexeme.toList.length : Nat) := by
  rw [Token.finish, h, String.length_toList]
  push_cast
  rfl

theorem Token.le_finish (t : Token) : t.position ≤ t.finish := by
  unfold Token.finish
  omega

/-- Tokens that follow each other have growing offsets. -/
theorem OnlyBlanksBetween.le_position {offset : Int}
    (h : OnlyBlanksBetween cs offset ts) :
    ∀ t ∈ ts, offset ≤ t.position := by
  induction ts generalizing offset with
  | nil => exact fun _ ht => absurd ht List.not_mem_nil
  | cons t ts ih =>
      obtain ⟨hle, -, hrest⟩ := h
      refine List.forall_mem_cons.mpr ⟨hle, fun u hu => ?_⟩
      have hu := ih hrest u hu
      have ht := t.le_finish
      omega

theorem TokenizesFrom.atEnd (hk : k = cs.length) :
    TokenizesFrom cs k [Token.atEnd cs.length] where
  ends := ⟨[], rfl, fun _ ht => absurd ht List.not_mem_nil⟩
  increasing := List.pairwise_singleton _ _
  standing := by
    intro t ht
    rw [List.mem_singleton.mp ht]
    refine ⟨Int.natCast_nonneg _, ?_, rfl, trivial⟩
    simp [slice, Token.atEnd, Token.finish]
  between := by
    subst hk
    refine ⟨le_refl _, ?_, trivial⟩
    simp [slice, Token.atEnd]

theorem TokenizesFrom.blank {c : Char} (hc : c ∈ blanks)
    (hdrop : cs.drop k = c :: rest)
    (h : TokenizesFrom cs (k + 1 : Nat) ts) : TokenizesFrom cs k ts where
  ends := h.ends
  increasing := h.increasing
  standing := h.standing
  between := by
    have hbetween := h.between
    cases ts with
    | nil => exact trivial
    | cons t ts =>
        obtain ⟨hle, hblanks, hrest⟩ := hbetween
        refine ⟨by omega, ?_, hrest⟩
        obtain ⟨q, hq⟩ := Int.eq_ofNat_of_zero_le
          (h.standing t List.mem_cons_self).position_nonneg
        rw [hq] at hle hblanks ⊢
        rw [slice_cons hdrop (by omega)]
        exact List.forall_mem_cons.mpr ⟨hc, hblanks⟩

theorem TokenizesFrom.token {t : Token} (hkind : t.kind ≠ .endOfInput)
    (hspelled : t.Spelled) (hends : t.EndsBefore rest.head?)
    (hposition : t.position = k) (hdrop : cs.drop k = t.lexeme.toList ++ rest)
    (h : TokenizesFrom cs t.finish ts) : TokenizesFrom cs k (t :: ts) where
  ends := by
    obtain ⟨front, hts, hfront⟩ := h.ends
    exact ⟨t :: front, by rw [hts]; rfl,
      List.forall_mem_cons.mpr ⟨hkind, hfront⟩⟩
  increasing := by
    refine List.pairwise_cons.mpr ⟨fun p hp => ?_, h.increasing⟩
    obtain ⟨u, hu, rfl⟩ := List.mem_map.mp hp
    exact lt_of_lt_of_le (Token.position_lt_finish hkind hspelled)
      (h.between.le_position u hu)
  standing := by
    refine List.forall_mem_cons.mpr ⟨⟨?_, ?_, hspelled, ?_⟩, h.standing⟩
    · rw [hposition]
      exact Int.natCast_nonneg k
    · rw [Token.finish_eq hposition, hposition]
      exact (slice_of_drop hdrop).symm
    · rw [Token.finish_eq hposition, Int.toNat_natCast, ← List.head?_drop,
        drop_of_drop hdrop]
      exact hends
  between := by
    refine ⟨le_of_eq hposition.symm, ?_, h.between⟩
    simp [hposition, slice]

/-- What is taken apart from the front stands at its place. -/
theorem Lexes.tokenizesFrom (h : Lexes cs.length k (cs.drop k) ts)
    (hk : k ≤ cs.length) : TokenizesFrom cs k ts := by
  generalize hposition : (k : Int) = position at h
  generalize hdrop : cs.drop k = rest at h
  induction h generalizing k with
  | finish =>
      rw [← hposition]
      exact .atEnd (le_antisymm hk (List.drop_eq_nil_iff.mp hdrop))
  | @blank position c rest ts hblank _ ih =>
      have hdrop' : cs.drop k = [c] ++ rest := hdrop
      have hrest := ih (k := k + 1) (add_length_le hdrop' hk)
        (by push_cast; omega) (drop_of_drop hdrop')
      subst hposition
      exact .blank hblank hdrop hrest
  | @token t rest ts hkind hspelled hends _ ih =>
      have hrest := ih (add_length_le hdrop hk)
        (Token.finish_eq hposition.symm).symm (drop_of_drop hdrop)
      rw [← hposition]
      exact .token hkind hspelled hends hposition.symm hdrop hrest

/-- Blanks in front do not matter. -/
theorem Lexes.blanks_append {finish position : Int}
    (hrun : ∀ c ∈ run, c ∈ blanks)
    (h : Lexes finish (position + run.length) rest ts) :
    Lexes finish position (run ++ rest) ts := by
  induction run generalizing position with
  | nil => simpa using h
  | cons c run ih =>
      obtain ⟨hc, hrun⟩ := List.forall_mem_cons.mp hrun
      refine .blank hc (ih hrun ?_)
      have hlength : position + 1 + (run.length : Int) =
          position + ((c :: run).length : Int) := by
        simp only [List.length_cons]
        omega
      rw [hlength]
      exact h

theorem Lexes.of_gap (hkq : k ≤ q) (hq : q ≤ cs.length)
    (hblanks : ∀ c ∈ slice cs k q, c ∈ blanks)
    (h : Lexes cs.length q (cs.drop q) ts) :
    Lexes cs.length k (cs.drop k) ts := by
  have hlength : (k : Int) + ((slice cs k q).length : Int) = q := by
    have hsplit : (slice cs k q ++ cs.drop q).length = (cs.drop k).length :=
      congrArg List.length (slice_append_drop hkq)
    simp only [List.length_append, List.length_drop] at hsplit
    omega
  rw [← slice_append_drop hkq]
  refine .blanks_append hblanks ?_
  rw [hlength]
  exact h

/-- What follows a token in front of the end. -/
theorem TokenizesFrom.tail {offset : Int} {t : Token}
    (hkind : t.kind ≠ .endOfInput) (h : TokenizesFrom cs offset (t :: ts)) :
    TokenizesFrom cs t.finish ts where
  ends := by
    obtain ⟨front, hts, hfront⟩ := h.ends
    cases front with
    | nil =>
        cases hts
        exact absurd rfl hkind
    | cons u front =>
        cases hts
        exact ⟨front, rfl, (List.forall_mem_cons.mp hfront).2⟩
  increasing := (List.pairwise_cons.mp h.increasing).2
  standing := (List.forall_mem_cons.mp h.standing).2
  between := h.between.2.2

/-- A token that stands at its place is the start of what is left there. -/
theorem Token.StandsIn.drop_eq {t : Token} (h : t.StandsIn cs)
    (hposition : t.position = k) :
    cs.drop k = t.lexeme.toList ++ cs.drop (k + t.lexeme.toList.length) := by
  have hlexeme := h.lexeme_eq
  rw [Token.finish_eq hposition, hposition] at hlexeme
  have hsplit : slice cs k (k + t.lexeme.toList.length : Nat) ++
      cs.drop (k + t.lexeme.toList.length) = cs.drop k :=
    slice_append_drop (Nat.le_add_right k _)
  rw [← hlexeme] at hsplit
  exact hsplit.symm

/-- Tokens that stand at their places are found from the front. -/
theorem TokenizesFrom.lexes (h : TokenizesFrom cs k ts) :
    Lexes cs.length k (cs.drop k) ts := by
  induction ts generalizing k with
  | nil =>
      obtain ⟨front, hts, -⟩ := h.ends
      simp at hts
  | cons t ts ih =>
      have hstands := h.standing t List.mem_cons_self
      obtain ⟨q, hq⟩ := Int.eq_ofNat_of_zero_le hstands.position_nonneg
      obtain ⟨hle, hblanks, -⟩ := h.between
      rw [hq] at hle hblanks
      obtain ⟨front, hts, hfront⟩ := h.ends
      cases front with
      | nil =>
          cases hts
          obtain rfl : cs.length = q := Int.ofNat_inj.mp hq
          refine .of_gap (Int.ofNat_le.mp hle) le_rfl hblanks ?_
          rw [List.drop_length]
          exact .finish
      | cons u front =>
          cases hts
          have hkind := (List.forall_mem_cons.mp hfront).1
          have hfinish := Token.finish_eq hq
          have hdrop := hstands.drop_eq hq
          have hqlt : q < cs.length := by
            have hlt := Token.position_lt_finish hkind hstands.spelled
            have hlength := congrArg List.length hdrop
            rw [List.length_append, List.length_drop, List.length_drop]
              at hlength
            omega
          have hends := hstands.endsBefore
          rw [hfinish, Int.toNat_natCast, ← List.head?_drop] at hends
          have hrest := h.tail hkind
          rw [hfinish] at hrest
          have hlexes := ih hrest
          rw [← hfinish] at hlexes
          refine .of_gap (Int.ofNat_le.mp hle) hqlt.le hblanks ?_
          rw [hdrop, ← hq]
          exact .token hkind hstands.spelled hends hlexes

end

/-! ## Answers of a scanner -/

/-- Asked for tokens, the scanner gives those in front of the end, and then
the end as often as it is asked for: the end of the input, which is reported
at `finish`, or an unrecognised character. -/
structure Stream.Answers (s : Stream) (finish : Int) (front : List Token)
    (last : Except LexError Token) : Prop where
  front_ne : ∀ t ∈ front, t.kind ≠ .endOfInput
  last_eq : s.tokens = (front ++ [Token.atEnd finish], none) ∧
      last = .ok (Token.atEnd finish) ∨
    ∃ e, s.tokens = (front, some e) ∧ last = .error e
  draw_eq : ∀ n, s.draw (front.length + n) =
    front.map .ok ++ List.replicate n last

namespace Stream

theorem ofText_eq (source : String) :
    ofText source = scan source.toList.length 0 source.toList := rfl

theorem Answers.finish (position : Int) :
    (Stream.finish position).Answers position []
      (.ok (Token.atEnd position)) where
  front_ne := fun _ ht => absurd ht List.not_mem_nil
  last_eq := Or.inl ⟨rfl, rfl⟩
  draw_eq := by
    intro n
    rw [List.length_nil, Nat.zero_add]
    induction n with
    | zero => rfl
    | succ n ih =>
        rw [draw, List.replicate_succ]
        exact congrArg _ ih

theorem Answers.broken (finish : Int) (e : LexError) :
    (Stream.broken e).Answers finish [] (.error e) where
  front_ne := fun _ ht => absurd ht List.not_mem_nil
  last_eq := Or.inr ⟨e, rfl, rfl⟩
  draw_eq := by
    intro n
    rw [List.length_nil, Nat.zero_add]
    induction n with
    | zero => rfl
    | succ n ih =>
        rw [draw, List.replicate_succ]
        exact congrArg _ ih

theorem Answers.token {s : Stream} {finish : Int} {front : List Token}
    {last : Except LexError Token} {t : Token} (ht : t.kind ≠ .endOfInput)
    (h : s.Answers finish front last) :
    (Stream.token t s).Answers finish (t :: front) last where
  front_ne := List.forall_mem_cons.mpr ⟨ht, h.front_ne⟩
  last_eq := by
    rcases h.last_eq with ⟨htokens, hlast⟩ | ⟨e, htokens, hlast⟩
    · exact Or.inl ⟨by rw [tokens, htokens]; rfl, hlast⟩
    · exact Or.inr ⟨e, by rw [tokens, htokens], hlast⟩
  draw_eq := by
    intro n
    rw [List.length_cons, Nat.add_right_comm, draw]
    exact congrArg _ (h.draw_eq n)

/-- Every end of a scan is final. -/
theorem exists_answers_scan (finish position : Int) (cs : List Char) :
    ∃ front last, (scan finish position cs).Answers finish front last := by
  fun_induction scan finish position cs with
  | case1 => exact ⟨_, _, .finish finish⟩
  | case2 position c rest hspace ih => exact ih
  | case3 position c rest hspace hdigit digits ih =>
      obtain ⟨front, last, h⟩ := ih
      exact ⟨_, _, h.token fun h => by cases h⟩
  | case4 position c rest hspace hdigit hstart letters word ih =>
      obtain ⟨front, last, h⟩ := ih
      exact ⟨_, _, h.token (wordKind_ne_endOfInput word)⟩
  | case5 position c rest hspace hdigit hstart kind hkind ih =>
      obtain ⟨front, last, h⟩ := ih
      exact ⟨_, _, h.token (symbolKind?_ne_endOfInput hkind)⟩
  | case6 => exact ⟨_, _, .broken finish _⟩

end Stream

/-! ## Texts -/

/-- Characters are all recognised, or there is a first one that is not. -/
theorem recognised_or_split (cs : List Char) :
    (∀ c ∈ cs, isRecognised c = true) ∨
      ∃ before c rest, cs = before ++ c :: rest ∧
        (∀ d ∈ before, isRecognised d = true) ∧ isRecognised c = false := by
  have hsplit := List.takeWhile_append_dropWhile (p := isRecognised) (l := cs)
  have hbefore : ∀ d ∈ cs.takeWhile isRecognised, isRecognised d = true :=
    fun d hd => List.all_eq_true.mp List.all_takeWhile d hd
  cases hdrop : cs.dropWhile isRecognised with
  | nil =>
      left
      rw [hdrop, List.append_nil] at hsplit
      rw [← hsplit]
      exact hbefore
  | cons c rest =>
      right
      rw [hdrop] at hsplit
      refine ⟨_, c, rest, hsplit.symm, hbefore, ?_⟩
      exact Stream.head?_dropWhile_run isRecognised cs c (by rw [hdrop]; rfl)

/-- The scan stops at the first unrecognised character. -/
theorem tokens_of_split {source : String} {before rest : List Char} {c : Char}
    (hsource : source.toList = before ++ c :: rest)
    (hbefore : ∀ d ∈ before, isRecognised d = true)
    (hc : isRecognised c = false) :
    ∃ front, (∀ t ∈ front, t.kind ≠ .endOfInput) ∧
      (Stream.ofText (String.ofList before)).tokens =
        (front ++ [Token.atEnd before.length], none) ∧
      (Stream.ofText source).tokens = (front, some ⟨c, before.length⟩) := by
  obtain ⟨ts, hlexes⟩ := Stream.exists_lexes before.length 0 hbefore
  obtain ⟨front, rfl, hfront, htokens⟩ := Stream.tokens_of_unrecognised hlexes
    hc source.toList.length rest
  refine ⟨front, hfront, ?_, ?_⟩
  · rw [Stream.ofText_eq, String.toList_ofList]
    exact Stream.tokens_of_lexes hlexes
  · rw [← hsource, Int.zero_add] at htokens
    exact htokens

/-- The tokens of a text are found from the front. -/
theorem tokens_eq_iff_lexes {source : String} {ts : List Token} :
    (Stream.ofText source).tokens = (ts, none) ↔
      Lexes source.toList.length 0 source.toList ts := by
  refine ⟨fun h => ?_, fun h => Stream.tokens_of_lexes h⟩
  rcases recognised_or_split source.toList with hall |
    ⟨before, c, rest, hsource, hbefore, hc⟩
  · obtain ⟨ts', hlexes⟩ :=
      Stream.exists_lexes source.toList.length 0 hall
    have htokens := Stream.tokens_of_lexes hlexes
    rw [Stream.ofText_eq, htokens] at h
    cases h
    exact hlexes
  · obtain ⟨front, -, -, htokens⟩ := tokens_of_split hsource hbefore hc
    rw [htokens] at h
    cases h

/-- **Tokenization is exact.** A text has tokens if all its characters are
recognised, and then they are the only ones that stand at their places in
the text as tokens should. If there is an unrecognised character, the first
one is reported behind the tokens of the text in front of it. However often
one asks a scanner for a token, the answer is the same when the end of the
input, or the unrecognised character, has been reached. -/
theorem tokenization_is_exact (source : String) :
    let tokens := (Stream.ofText source).tokens
    (tokens.2 = none ↔ ∀ c ∈ source.toList, isRecognised c = true) ∧
    (∀ ts, tokens = (ts, none) ↔ Tokenizes source ts) ∧
    (∀ before c rest, source.toList = before ++ c :: rest →
      (∀ d ∈ before, isRecognised d = true) → isRecognised c = false →
      ∃ front, (∀ t ∈ front, t.kind ≠ .endOfInput) ∧
        (Stream.ofText (String.ofList before)).tokens =
          (front ++ [Token.atEnd before.length], none) ∧
        tokens = (front, some ⟨c, before.length⟩)) ∧
    ∀ start, ∃ front last, (Stream.ofTextAt source start).Answers
      source.toList.length front last := by
  intro tokens
  have hlexes : ∀ ts, tokens = (ts, none) ↔
      Lexes source.toList.length 0 source.toList ts :=
    fun ts => tokens_eq_iff_lexes
  refine ⟨⟨fun h => ?_, fun h => ?_⟩, fun ts => ⟨fun h => ?_, fun h => ?_⟩,
    fun before c rest => tokens_of_split,
    fun start => Stream.exists_answers_scan _ _ _⟩
  · exact ((hlexes tokens.1).mp (Prod.ext rfl h)).isRecognised
  · obtain ⟨ts, hts⟩ := Stream.exists_lexes source.toList.length 0 h
    rw [(hlexes ts).mpr hts]
  · exact Lexes.tokenizesFrom (k := 0) ((hlexes ts).mp h) (Nat.zero_le _)
  · exact (hlexes ts).mpr (TokenizesFrom.lexes (k := 0) h)

end Scriptlet
