import Scriptlet.Proofs.Grammar

/-!
# Cursors and rows of tokens

A cursor stands in front of a row of tokens (`Cursor.Sees`), and moving on
takes the first one off. The row ends with the end of the input or, when
the text has an unrecognised character, just before that character; in the
second case the last token cannot be consumed, because there is no token to
look at behind it.

Two kinds of statements about parsers are built on this. `Reads p ts a rest`
says that a parser in front of `ts` returns `a` and stops in front of
`rest`, unless it gives up because of its bounds; it has a rule for each
way in which parsers are put together. The converse, that what a parser
returned was there to be read, is taken apart with the `of_` lemmas.
-/

namespace Scriptlet

/-- A stream yields these tokens; only the last can be the end of the
input. -/
inductive Stream.Yields : Stream → List Token → Prop
  | token {t : Token} {s : Stream} {ts : List Token} :
      t.kind ≠ .endOfInput → s.Yields ts → Yields (.token t s) (t :: ts)
  | finish {position : Int} :
      Yields (.finish position) [Token.atEnd position]
  | broken {e : LexError} : Yields (.broken e) []

/-- A cursor stands in front of these tokens. -/
inductive Cursor.Sees : Cursor → List Token → Prop
  | token {t : Token} {s : Stream} {ts : List Token} :
      t.kind ≠ .endOfInput → s.Yields ts → Sees ⟨t, s⟩ (t :: ts)
  | finish {position : Int} :
      Sees ⟨Token.atEnd position, .finish position⟩ [Token.atEnd position]

/-! ## Classes of tokens -/

namespace Token

theorem kind_of_isOperator {t : Token} {symbol : String}
    (h : t.isOperator symbol = true) : t.kind = .operator := by
  simp only [isOperator, Bool.and_eq_true, beq_iff_eq] at h
  exact h.1

theorem kind_of_isKeyword {t : Token} {word : String}
    (h : t.isKeyword word = true) : t.kind = .keyword := by
  simp only [isKeyword, Bool.and_eq_true, beq_iff_eq] at h
  exact h.1

theorem kind_of_isArithmetic {t : Token} (h : isArithmetic t = true) :
    t.kind = .operator := by
  simp only [isArithmetic, Bool.and_eq_true, beq_iff_eq] at h
  exact h.1

end Token

/-! ## Scanned texts -/

/-- A single character is a token of one of four kinds. -/
theorem symbolKind?_mem {c : Char} {kind : TokenKind}
    (h : symbolKind? c = some kind) :
    kind ∈ [TokenKind.operator, .assign, .leftParen, .rightParen] := by
  unfold symbolKind? at h
  split at h
  · cases h
    decide
  · split at h
    · cases h
      decide
    · split at h
      · cases h
        decide
      · split at h
        · cases h
          decide
        · cases h

theorem wordKind_ne_endOfInput (word : String) :
    wordKind word ≠ .endOfInput := by
  unfold wordKind
  split <;> intro h <;> cases h

namespace Stream

theorem yields_scan (finish position : Int) (cs : List Char) :
    (scan finish position cs).Yields (scan finish position cs).tokens.1 := by
  fun_induction scan finish position cs with
  | case1 => exact .finish
  | case2 position c rest hspace ih => exact ih
  | case3 position c rest hspace hdigit digits ih =>
      exact .token (fun h => by cases h) ih
  | case4 position c rest hspace hdigit hword letters word ih =>
      exact .token (wordKind_ne_endOfInput word) ih
  | case5 position c rest hspace hdigit hword kind hkind ih =>
      refine .token (fun h => ?_) ih
      have hmem := symbolKind?_mem hkind
      rw [show kind = .endOfInput from h] at hmem
      exact absurd hmem (by decide)
  | case6 => exact .broken

/-- The tokens of a text are what its stream yields. -/
theorem yields_ofText (source : String) :
    (ofText source).Yields (ofText source).tokens.1 :=
  yields_scan _ _ _

end Stream

namespace Cursor

/-- The row in front of a cursor starts with the current token. -/
theorem Sees.eq_cons {c : Cursor} {ts : List Token} (h : c.Sees ts) :
    ∃ rest, ts = c.current :: rest := by
  cases h with
  | token _ _ => exact ⟨_, rfl⟩
  | finish => exact ⟨_, rfl⟩

theorem Sees.current_eq {c : Cursor} {t : Token} {ts : List Token}
    (h : c.Sees (t :: ts)) : c.current = t := by
  cases h <;> rfl

/-- At the end of the input nothing follows. -/
theorem Sees.eq_nil_of_endOfInput {c : Cursor} {t : Token} {ts : List Token}
    (h : c.Sees (t :: ts)) (ht : t.kind = .endOfInput) : ts = [] := by
  cases h with
  | token hne _ => exact absurd ht hne
  | finish => rfl

/-- Drawing a token from a stream gives a cursor in front of all that the
stream yields. -/
theorem Sees.of_next {s s' : Stream} {t : Token} {ts : List Token}
    (hs : s.Yields ts) (h : s.next = .ok (t, s')) : Sees ⟨t, s'⟩ ts := by
  cases hs with
  | token hne hs =>
      cases h
      exact .token hne hs
  | finish =>
      cases h
      exact .finish
  | broken => cases h

theorem sees_of_ofStream {s : Stream} {c : Cursor} {ts : List Token}
    (hs : s.Yields ts) (h : ofStream s = .ok c) : c.Sees ts := by
  unfold ofStream at h
  split at h
  · rename_i hnext
    cases h
    exact Sees.of_next hs hnext
  · cases h

end Cursor

namespace Parse

variable {α β : Type}

/-! ## What a parser reads -/

/-- In front of `ts` the parser returns `a` and stops in front of `rest`,
or it gives up because its bounds do not suffice. -/
def Reads (p : Parse α) (ts : List Token) (a : α) (rest : List Token) :
    Prop :=
  ∀ ⦃c : Cursor⦄, c.Sees ts →
    (∃ c', c'.Sees rest ∧ p c = .done a c') ∨ ∃ c', p c = .failed .tooDeep c'

theorem Reads.tooDeep {ts : List Token} {a : α} {rest : List Token} :
    Reads (Step.fail .tooDeep) ts a rest :=
  fun c _ => Or.inr ⟨c, rfl⟩

theorem Reads.pure {ts : List Token} {a : α} :
    Reads (Pure.pure a) ts a ts :=
  fun c hc => Or.inl ⟨c, hc, rfl⟩

theorem Reads.bind {p : Parse α} {next : α → Parse β}
    {ts mid rest : List Token} {a : α} {b : β} (hp : Reads p ts a mid)
    (hnext : Reads (next a) mid b rest) : Reads (p >>= next) ts b rest := by
  intro c hc
  rcases hp hc with ⟨c₁, hc₁, h₁⟩ | ⟨c₁, h₁⟩
  · rw [Step.bind_apply, h₁]
    exact hnext hc₁
  · exact Or.inr ⟨c₁, by rw [Step.bind_apply, h₁]⟩

theorem Reads.current {t : Token} {ts : List Token} :
    Reads current (t :: ts) t (t :: ts) :=
  fun c hc => Or.inl ⟨c, hc, by rw [← hc.current_eq]; rfl⟩

theorem Reads.get_bind {next : Cursor → Parse β} {ts rest : List Token}
    {b : β} (h : ∀ c, c.Sees ts → Reads (next c) ts b rest) :
    Reads (Step.get >>= next) ts b rest :=
  fun c hc => h c hc hc

/-- A token is consumed if another one follows. -/
theorem Reads.advance {t : Token} {ts : List Token} {kind : TokenKind}
    (ht : t.kind = kind) (hkind : kind ≠ .endOfInput) (hts : ts ≠ []) :
    Reads advance (t :: ts) t ts := by
  intro c hc
  left
  cases hc with
  | finish => exact absurd ht.symm hkind
  | token _ hs =>
      cases hs with
      | token hne hs => exact ⟨_, .token hne hs, rfl⟩
      | finish => exact ⟨_, .finish, rfl⟩
      | broken => exact absurd rfl hts

theorem Reads.closingParen {t : Token} {ts : List Token}
    (ht : t.kind = .rightParen) (hts : ts ≠ []) :
    Reads closingParen (t :: ts) () ts := by
  unfold Parse.closingParen
  apply Reads.bind Reads.current
  rw [if_pos (by rw [ht]; rfl)]
  exact Reads.bind (Reads.advance ht (by decide) hts) Reads.pure

/-! ## Where a value was read -/

theorem current_bind (next : Token → Parse β) (c : Cursor) :
    (current >>= next) c = next c.current c := rfl

theorem of_advance {c c' : Cursor} {t a : Token} {ts : List Token}
    {kind : TokenKind} (hc : c.Sees (t :: ts)) (ht : t.kind = kind)
    (hkind : kind ≠ .endOfInput) (h : advance c = .done a c') :
    a = t ∧ c'.Sees ts := by
  cases hc with
  | finish => exact absurd ht.symm hkind
  | token _ hs =>
      unfold advance at h
      split at h
      · rename_i hnext
        cases h
        exact ⟨rfl, .of_next hs hnext⟩
      · cases h

/-- A parser that consumed a token first returned what the rest of it
returned behind that token. -/
theorem of_advance_bind {next : Token → Parse β} {c c' : Cursor} {t : Token}
    {ts : List Token} {b : β} {kind : TokenKind} (hc : c.Sees (t :: ts))
    (ht : t.kind = kind) (hkind : kind ≠ .endOfInput)
    (h : (advance >>= next) c = .done b c') :
    ∃ c₁, c₁.Sees ts ∧ next t c₁ = .done b c' := by
  obtain ⟨a, c₁, ha, h⟩ := Step.bind_eq_done_iff.mp h
  obtain ⟨rfl, hc₁⟩ := of_advance hc ht hkind ha
  exact ⟨c₁, hc₁, h⟩

theorem of_closingParen {c c' : Cursor} {ts : List Token}
    (hc : c.Sees ts) (h : closingParen c = .done () c') :
    ∃ t rest, ts = t :: rest ∧ t.kind = .rightParen ∧ c'.Sees rest := by
  obtain ⟨rest, rfl⟩ := hc.eq_cons
  unfold closingParen at h
  rw [current_bind] at h
  split at h
  · rename_i hk
    have hkind : c.current.kind = .rightParen := eq_of_beq hk
    obtain ⟨c₁, hc₁, h⟩ := of_advance_bind hc hkind (by decide) h
    cases h
    exact ⟨_, rest, rfl, hkind, hc₁⟩
  · cases h

end Parse

end Scriptlet
