import Scriptlet.Proofs.Agenda

/-!
# Where parsing fails

The parser goes through the agendas of its tokens: while a parsing function
runs, the part of the program that it reads is on top of the agenda, and when
it returns this part has been taken off. When it fails, the token that it
complains about is the first one that cannot come next (`Parse.Follows`). The
functions call each other with one unit of fuel less, so this is one
induction on the fuel over all of them (`Tracked`), as in `ParserSoundness`.

The same holds of a whole program, and of one statement after the other as
the shell reads them (`separated_tracks`): between statements the agenda is
empty.
-/

namespace Scriptlet

namespace Agenda

variable {t : Token} {k k' k₁ k₂ : Agenda} {ts ts₁ ts₂ : List Token}

/-! ## Agendas in front of a token -/

/-- In front of `t` it does not matter which of the two agendas one has. -/
structure Alike (t : Token) (k k' : Agenda) : Prop where
  step_eq : step t k = step t k'
  blocks_eq : blocks k = blocks k'

theorem Alike.refl (t : Token) (k : Agenda) : Alike t k k := ⟨rfl, rfl⟩

theorem Alike.trans (h : Alike t k k₁) (h' : Alike t k₁ k₂) :
    Alike t k k₂ :=
  ⟨h.step_eq.trans h'.step_eq, h.blocks_eq.trans h'.blocks_eq⟩

section

variable (k)

theorem alike_tail (h : ¬ isArithmetic t = true) : Alike t (.tail :: k) k :=
  ⟨if_neg h, rfl⟩

theorem alike_call (h : ¬ (t.kind == .leftParen) = true) :
    Alike t (.call :: k) k :=
  ⟨if_neg h, rfl⟩

theorem alike_argument (h : ¬ (t.kind == .rightParen) = true) :
    Alike t (.argument :: k) (.term :: .tail :: .nextArgument :: k) :=
  ⟨if_neg h, rfl⟩

theorem alike_nextArgument (h : ¬ t.isOperator "," = true) :
    Alike t (.nextArgument :: k) (.closing :: k) :=
  ⟨if_neg h, rfl⟩

theorem alike_parameter (h : ¬ (t.kind == .identifier) = true) :
    Alike t (.parameter :: k) (.closing :: k) :=
  ⟨if_neg h, rfl⟩

theorem alike_nextParameter (h : ¬ t.isOperator "," = true) :
    Alike t (.nextParameter :: k) (.closing :: k) :=
  ⟨if_neg h, rfl⟩

theorem alike_parameterList (h : ¬ (t.kind == .leftParen) = true) :
    Alike t (.parameterList :: k) k :=
  ⟨if_neg h, rfl⟩

theorem alike_separator (h : ¬ t.isOperator ";" = true) :
    Alike t (.separator :: k) k :=
  ⟨if_neg h, rfl⟩

theorem alike_equals (h : ¬ (t.kind == .assign) = true) :
    Alike t (.equals :: k) (.call :: .tail :: k) :=
  ⟨if_neg h, rfl⟩

theorem alike_statement (hdef : ¬ t.isKeyword "def" = true)
    (hname : ¬ (t.kind == .identifier) = true) :
    Alike t (.statement :: k) (.term :: .tail :: k) :=
  ⟨(if_neg hdef).trans (if_neg hname), rfl⟩

theorem alike_body (h : ¬ t.isKeyword "end" = true) :
    Alike t (.body :: k) (.statement :: .separator :: .body :: k) :=
  ⟨if_neg h, rfl⟩

theorem alike_nil (hsep : ¬ t.isOperator ";" = true)
    (hend : ¬ (t.kind == .endOfInput) = true) : Alike t [] [.statement] := by
  have htest : ¬ (t.isOperator ";" || t.kind == .endOfInput) = true := by
    rw [Bool.or_eq_true_iff]
    exact not_or.mpr ⟨hsep, hend⟩
  exact ⟨if_neg htest, rfl⟩

end

/-! ## Moving along a row -/

/-- From `k` in front of `ts` one comes to `k'` in front of `ts'`, up to what
the first token there makes of it. -/
def Moves (k : Agenda) (ts : List Token) (k' : Agenda) (ts' : List Token) :
    Prop :=
  ∃ used mid, ts = used ++ ts' ∧ run k used = some mid ∧
    ∀ t ∈ ts'.head?, Alike t mid k'

theorem Moves.of_alike (h : Alike t k k') (ts : List Token) :
    Moves k (t :: ts) k' (t :: ts) := by
  refine ⟨[], k, rfl, rfl, ?_⟩
  rintro u ⟨rfl⟩
  exact h

theorem Moves.of_step (h : step t k = some k') (ts : List Token) :
    Moves k (t :: ts) k' ts :=
  ⟨[t], k', rfl, by rw [run_cons, h]; rfl, fun u _ => .refl u k'⟩

/-- Agendas that are alike in front of a row are changed by it alike. -/
theorem run_of_alike (h : ∀ t ∈ ts.head?, Alike t k k') (hts : ts ≠ []) :
    run k ts = run k' ts := by
  obtain ⟨t, ts, rfl⟩ := List.exists_cons_of_ne_nil hts
  rw [run_cons, run_cons, (h t rfl).step_eq]

theorem Moves.trans (h : Moves k ts k₁ ts₁) (h' : Moves k₁ ts₁ k₂ ts₂) :
    Moves k ts k₂ ts₂ := by
  obtain ⟨used, mid, rfl, hrun, halike⟩ := h
  obtain ⟨used', mid', rfl, hrun', halike'⟩ := h'
  cases used' with
  | nil =>
      cases hrun'
      exact ⟨used, mid, rfl, hrun,
        fun t ht => (halike t ht).trans (halike' t ht)⟩
  | cons t used' =>
      refine ⟨used ++ t :: used', mid', by rw [List.append_assoc], ?_,
        halike'⟩
      have hmid : ∀ u ∈ (t :: used').head?, Alike u mid k₁ := halike
      rw [run_append, hrun, Option.bind_some,
        run_of_alike hmid (List.cons_ne_nil _ _), hrun']

theorem Moves.run_eq (h : Moves k ts k' ts₁) (hts : ts₁ ≠ []) :
    run k ts = run k' ts₁ := by
  obtain ⟨used, mid, rfl, hrun, halike⟩ := h
  rw [run_append, hrun, Option.bind_some, run_of_alike halike hts]

end Agenda

/-! ## Errors -/

namespace ParseError

def found? : ParseError → Option Token
  | .unrecognized _ => none
  | .unexpected _ t => some t
  | .closingParen t => some t
  | .functionName t => some t

def IsMissingEnd : ParseError → Prop
  | .unexpected .blockEnd _ => True
  | _ => False

/-- An error that parsing can end with in front of a row: the first token
cannot come next, or there is no token behind it to look at. -/
inductive At : ParseError → Agenda → List Token → Prop
  | unrecognized {error : LexError} {k : Agenda} {t : Token} :
      t.kind ≠ .endOfInput → At (.unrecognized error) k [t]
  | token {e : ParseError} {k : Agenda} {t : Token} {rest : List Token} :
      e.found? = some t → Agenda.step t k = none →
      (e.IsMissingEnd → t.kind = .endOfInput ∧ 0 < Agenda.blocks k) →
      At e k (t :: rest)

theorem At.of_alike {e : ParseError} {k k' : Agenda} {ts : List Token}
    (h : e.At k' ts) (halike : ∀ t ∈ ts.head?, Agenda.Alike t k k') :
    e.At k ts := by
  cases h with
  | unrecognized hkind => exact .unrecognized hkind
  | token hfound hstep hend =>
      obtain ⟨hstep', hblocks⟩ := halike _ rfl
      refine .token hfound (hstep'.trans hstep) fun he => ?_
      rw [hblocks]
      exact hend he

end ParseError

/-- Where parsing gave up in front of a row. Running out of depth is no
matter of tokens. -/
def ParseFailure.Stops (failure : ParseFailure) (k : Agenda)
    (ts : List Token) : Prop :=
  match failure with
  | .tooDeep => True
  | .error e => ∃ used mid rest, ts = used ++ rest ∧
      Agenda.run k used = some mid ∧ e.At mid rest

theorem ParseFailure.Stops.of_moves {failure : ParseFailure} {k k' : Agenda}
    {ts ts' : List Token} (hmoves : Agenda.Moves k ts k' ts')
    (h : failure.Stops k' ts') : failure.Stops k ts := by
  cases failure with
  | tooDeep => trivial
  | error e =>
      obtain ⟨used, mid, rfl, hrun, halike⟩ := hmoves
      obtain ⟨used', mid', rest, rfl, hrun', hat⟩ := h
      cases used' with
      | nil =>
          cases hrun'
          exact ⟨used, mid, rest, rfl, hrun, hat.of_alike halike⟩
      | cons t used' =>
          refine ⟨used ++ t :: used', mid', rest, by rw [List.append_assoc],
            ?_, hat⟩
          have hmid : ∀ u ∈ (t :: used').head?, Agenda.Alike u mid k' :=
            halike
          rw [Agenda.run_append, hrun, Option.bind_some,
            Agenda.run_of_alike hmid (List.cons_ne_nil _ _), hrun']

namespace Parse

open Agenda

variable {α β : Type} {c : Cursor} {t : Token} {ts ts₁ : List Token}
  {k k₁ k₂ : Agenda}

/-! ## Parsers and agendas -/

/-- A parser that started with the agenda `k` in front of `ts` ended with
`k'`, or failed where the row does. -/
def Follows (o : Outcome ParseFailure Cursor α) (k : Agenda)
    (ts : List Token) (k' : Agenda) : Prop :=
  o.Ensures (fun _ c' => ∃ rest, c'.Sees rest ∧ Moves k ts k' rest)
    fun failure _ => failure.Stops k ts

theorem Follows.of_moves {o : Outcome ParseFailure Cursor α}
    (hmoves : Moves k ts k₁ ts₁) (h : Follows o k₁ ts₁ k₂) :
    Follows o k ts k₂ := by
  refine Outcome.Ensures.imp h ?_ fun _ _ hstops => hstops.of_moves hmoves
  rintro _ _ ⟨rest, hrest, hmoves'⟩
  exact ⟨rest, hrest, hmoves.trans hmoves'⟩

theorem Follows.of_alike {o : Outcome ParseFailure Cursor α}
    (halike : Alike t k k₁) (h : Follows o k₁ (t :: ts) k₂) :
    Follows o k (t :: ts) k₂ :=
  h.of_moves (.of_alike halike ts)

theorem Follows.bind {p : Parse α} {next : α → Parse β}
    (h : Follows (p c) k ts k₁)
    (hnext : ∀ a c₁ ts₁, c₁.Sees ts₁ → Follows (next a c₁) k₁ ts₁ k₂) :
    Follows ((p >>= next) c) k ts k₂ := by
  refine Step.ensures_bind h ?_
  rintro a c₁ ⟨ts₁, hc₁, hmoves⟩
  exact (hnext a c₁ ts₁ hc₁).of_moves hmoves

theorem Follows.pure {a : α} (hc : c.Sees ts) :
    Follows ((Pure.pure a : Parse α) c) k ts k :=
  ⟨ts, hc, [], k, rfl, rfl, fun u _ => .refl u k⟩

theorem Follows.failWith {e : ParseError} (hfound : e.found? = some t)
    (hstep : step t k = none)
    (hend : e.IsMissingEnd → t.kind = .endOfInput ∧ 0 < blocks k) :
    Follows ((failWith e : Parse α) c) k (t :: ts) k₁ :=
  ⟨[], k, t :: ts, rfl, rfl, .token hfound hstep hend⟩

/-- A token that can come next is consumed, unless an unrecognised character
follows it. -/
theorem Follows.advance_bind {next : Token → Parse β} {kind : TokenKind}
    (hc : c.Sees (t :: ts)) (ht : t.kind = kind) (hkind : kind ≠ .endOfInput)
    (hstep : step t k = some k₁)
    (hnext : ∀ a c₁ ts₁, c₁.Sees ts₁ → Follows (next a c₁) k₁ ts₁ k₂) :
    Follows ((advance >>= next) c) k (t :: ts) k₂ := by
  refine Follows.bind ?_ hnext
  cases hc with
  | finish => exact absurd ht.symm hkind
  | token hne hs =>
      cases hs with
      | token hne' hs => exact ⟨_, .token hne' hs, .of_step hstep _⟩
      | finish => exact ⟨_, .finish, .of_step hstep _⟩
      | broken => exact ⟨[], k, [t], rfl, rfl, .unrecognized hne⟩

/-- Wherever it starts, the parser takes `k` to `k'`. -/
def Tracks (p : Parse α) (k k' : Agenda) : Prop :=
  ∀ ⦃c : Cursor⦄ ⦃ts : List Token⦄, c.Sees ts → Follows (p c) k ts k'

theorem Tracks.tooDeep : Tracks (Step.fail .tooDeep : Parse α) k k₁ :=
  fun _ _ _ => trivial

theorem Tracks.bind {p : Parse α} {next : α → Parse β} (h : Tracks p k k₁)
    (hnext : ∀ a, Tracks (next a) k₁ k₂) : Tracks (p >>= next) k k₂ :=
  fun _ _ hc => (h hc).bind fun a _ _ hc₁ => hnext a hc₁

theorem closingParen_tracks (k : Agenda) :
    Tracks closingParen (.closing :: k) k := by
  intro c ts hc
  obtain ⟨more, rfl⟩ := hc.eq_cons
  rw [closingParen, current_bind]
  split
  · rename_i hk
    exact .advance_bind hc (eq_of_beq hk) (by decide) (if_pos hk)
      fun _ _ _ => .pure
  · rename_i hk
    exact .failWith rfl (if_neg hk) False.elim

/-! ## One unit of fuel -/

/-- What the parsing functions take off the agenda. -/
structure Tracked (fuel : Nat) : Prop where
  statement : ∀ depth k, Tracks (statement fuel depth) (.statement :: k) k
  function : ∀ depth k, Tracks (function fuel depth) (.name :: k) k
  body : ∀ depth k, Tracks (body fuel depth) (.body :: k) k
  expression : ∀ depth k,
    Tracks (expression fuel depth) (.term :: .tail :: k) k
  tail : ∀ depth left k, Tracks (tail fuel depth left) (.tail :: k) k
  term : ∀ depth k, Tracks (term fuel depth) (.term :: k) k
  operand : ∀ depth name k, Tracks (operand fuel depth name) (.call :: k) k
  arguments : ∀ depth k, Tracks (arguments fuel depth)
    (.term :: .tail :: .nextArgument :: k) (.closing :: k)

section

variable {fuel : Nat}

theorem expression_tracks (ih : Tracked fuel) (depth : Nat) (k : Agenda) :
    Tracks (expression (fuel + 1) depth) (.term :: .tail :: k) k := by
  rw [expression]
  exact (ih.term depth (.tail :: k)).bind fun left => ih.tail depth left k

theorem tail_tracks (ih : Tracked fuel) (depth : Nat) (left : Node)
    (k : Agenda) : Tracks (tail (fuel + 1) depth left) (.tail :: k) k := by
  intro c ts hc
  obtain ⟨more, rfl⟩ := hc.eq_cons
  rw [tail, current_bind]
  split
  · rename_i hop
    refine .advance_bind hc (Token.kind_of_isArithmetic hop) (by decide)
      (if_pos hop) fun op c₁ ts₁ hc₁ => ?_
    exact (ih.term depth (.tail :: k)).bind
      (fun right => ih.tail depth _ k) hc₁
  · rename_i hop
    exact .of_alike (alike_tail k hop) (.pure hc)

theorem term_tracks (ih : Tracked fuel) (depth : Nat) (k : Agenda) :
    Tracks (term (fuel + 1) depth) (.term :: k) k := by
  intro c ts hc
  obtain ⟨more, rfl⟩ := hc.eq_cons
  rw [term.eq_def]
  dsimp only
  rw [current_bind]
  split
  · rename_i hnumber
    exact .advance_bind hc (eq_of_beq hnumber) (by decide) (if_pos hnumber)
      fun _ _ _ => .pure
  · rename_i hnumber
    split
    · rename_i hname
      exact .advance_bind hc (eq_of_beq hname) (by decide)
        ((if_neg hnumber).trans (if_pos hname))
        fun _ _ _ hc₁ => ih.operand depth _ k hc₁
    · rename_i hname
      split
      · rename_i hopen
        refine .advance_bind hc (eq_of_beq hopen) (by decide)
          ((if_neg hnumber).trans ((if_neg hname).trans (if_pos hopen)))
          fun _ c₁ ts₁ hc₁ => ?_
        cases depth with
        | zero => trivial
        | succ depth =>
            refine (ih.expression depth (.closing :: k)).bind
              (fun inner => ?_) hc₁
            exact (closingParen_tracks k).bind fun _ _ _ => .pure
      · rename_i hopen
        exact .failWith rfl
          ((if_neg hnumber).trans ((if_neg hname).trans (if_neg hopen)))
          False.elim

theorem operand_tracks (ih : Tracked fuel) (depth : Nat) (name : Token)
    (k : Agenda) : Tracks (operand (fuel + 1) depth name) (.call :: k) k := by
  intro c ts hc
  obtain ⟨more, rfl⟩ := hc.eq_cons
  rw [operand.eq_def]
  dsimp only
  rw [current_bind]
  split
  · rename_i hopen
    refine .advance_bind hc (eq_of_beq hopen) (by decide) (if_pos hopen)
      fun _ c₁ ts₁ hc₁ => ?_
    obtain ⟨more₁, rfl⟩ := hc₁.eq_cons
    rw [current_bind]
    split
    · rename_i hclose
      -- the parenthesis ends the arguments before there are any
      have halike : Alike c₁.current (.argument :: k) (.closing :: k) :=
        ⟨(if_pos hclose).trans (if_pos hclose).symm, rfl⟩
      exact .of_alike halike
        (((closingParen_tracks k).bind fun _ _ _ => .pure) hc₁)
    · rename_i hclose
      cases depth with
      | zero => trivial
      | succ depth =>
          refine .of_alike (alike_argument k hclose) ?_
          refine (ih.arguments depth k).bind (fun args => ?_) hc₁
          exact (closingParen_tracks k).bind fun _ _ _ => .pure
  · rename_i hopen
    exact .of_alike (alike_call k hopen) (.pure hc)

theorem arguments_tracks (ih : Tracked fuel) (depth : Nat) (k : Agenda) :
    Tracks (arguments (fuel + 1) depth)
      (.term :: .tail :: .nextArgument :: k) (.closing :: k) := by
  rw [arguments]
  refine (ih.expression depth (.nextArgument :: k)).bind fun first c ts hc => ?_
  obtain ⟨more, rfl⟩ := hc.eq_cons
  rw [current_bind]
  split
  · rename_i hcomma
    refine .advance_bind hc (Token.kind_of_isOperator hcomma) (by decide)
      (if_pos hcomma) fun _ c₁ ts₁ hc₁ => ?_
    exact (ih.arguments depth k).bind (fun others _ _ => .pure) hc₁
  · rename_i hcomma
    exact .of_alike (alike_nextArgument k hcomma) (.pure hc)

theorem parameters_tracks (fuel : Nat) (k : Agenda) :
    Tracks (parameters fuel) (.parameter :: k) (.closing :: k) := by
  induction fuel with
  | zero => exact .tooDeep
  | succ fuel ih =>
      intro c ts hc
      obtain ⟨more, rfl⟩ := hc.eq_cons
      rw [parameters, current_bind]
      split
      · rename_i hname
        refine .advance_bind hc (eq_of_beq hname) (by decide) (if_pos hname)
          fun _ c₁ ts₁ hc₁ => ?_
        obtain ⟨more₁, rfl⟩ := hc₁.eq_cons
        rw [current_bind]
        split
        · rename_i hcomma
          refine .advance_bind hc₁ (Token.kind_of_isOperator hcomma)
            (by decide) (if_pos hcomma) fun _ c₂ ts₂ hc₂ => ?_
          exact ih.bind (fun others _ _ => .pure) hc₂
        · rename_i hcomma
          exact .of_alike (alike_nextParameter k hcomma) (.pure hc₁)
      · rename_i hname
        exact .of_alike (alike_parameter k hname) (.pure hc)

theorem statement_tracks (ih : Tracked fuel) (depth : Nat) (k : Agenda) :
    Tracks (statement (fuel + 1) depth) (.statement :: k) k := by
  intro c ts hc
  obtain ⟨more, rfl⟩ := hc.eq_cons
  rw [statement, current_bind]
  split
  · rename_i hdef
    exact .advance_bind hc (Token.kind_of_isKeyword hdef) (by decide)
      (if_pos hdef) fun _ _ _ hc₁ => ih.function depth k hc₁
  · rename_i hdef
    split
    · rename_i hname
      refine .advance_bind hc (eq_of_beq hname) (by decide)
        ((if_neg hdef).trans (if_pos hname)) fun _ c₁ ts₁ hc₁ => ?_
      obtain ⟨more₁, rfl⟩ := hc₁.eq_cons
      rw [current_bind]
      split
      · rename_i hassign
        refine .advance_bind hc₁ (eq_of_beq hassign) (by decide)
          (if_pos hassign) fun _ c₂ ts₂ hc₂ => ?_
        exact (ih.expression depth k).bind (fun value _ _ => .pure) hc₂
      · rename_i hassign
        refine .of_alike (alike_equals k hassign) ?_
        exact (ih.operand depth _ (.tail :: k)).bind
          (fun left => ih.tail depth left k) hc₁
    · rename_i hname
      exact .of_alike (alike_statement k hdef hname) (ih.expression depth k hc)

theorem function_tracks (ih : Tracked fuel) (depth : Nat) (k : Agenda) :
    Tracks (function (fuel + 1) depth) (.name :: k) k := by
  intro c ts hc
  obtain ⟨more, rfl⟩ := hc.eq_cons
  rw [function, current_bind]
  split
  · rename_i hname
    refine .advance_bind hc (eq_of_beq hname) (by decide) (if_pos hname)
      fun _ c₁ ts₁ hc₁ => ?_
    obtain ⟨more₁, rfl⟩ := hc₁.eq_cons
    rw [current_bind]
    dsimp only
    -- both ways of reading the parameters go on with the body
    split
    · rename_i hopen
      refine .advance_bind hc₁ (eq_of_beq hopen) (by decide) (if_pos hopen)
        fun _ c₂ ts₂ hc₂ => ?_
      refine (parameters_tracks fuel (.body :: k)).bind (fun params => ?_) hc₂
      refine (closingParen_tracks (.body :: k)).bind fun _ => ?_
      cases depth with
      | zero => exact .tooDeep
      | succ depth => exact (ih.body depth k).bind fun _ _ _ => .pure
    · rename_i hopen
      refine .of_alike (alike_parameterList (.body :: k) hopen) ?_
      cases depth with
      | zero => trivial
      | succ depth => exact (ih.body depth k).bind (fun _ _ _ => .pure) hc₁
  · rename_i hname
    exact .failWith rfl (if_neg hname) False.elim

theorem body_tracks (ih : Tracked fuel) (depth : Nat) (k : Agenda) :
    Tracks (body (fuel + 1) depth) (.body :: k) k := by
  intro c ts hc
  obtain ⟨more, rfl⟩ := hc.eq_cons
  rw [body, current_bind]
  split
  · rename_i hend
    exact .advance_bind hc (Token.kind_of_isKeyword hend) (by decide)
      (if_pos hend) fun _ _ _ => .pure
  · rename_i hend
    split
    · rename_i heof
      have hkind : c.current.kind = .endOfInput := eq_of_beq heof
      refine .failWith rfl ?_ fun _ => ⟨hkind, ?_⟩
      · rw [step, if_neg hend]
        exact startStatement_endOfInput hkind _
      · have hblocks := blocks_nonneg k
        rw [blocks]
        omega
    · refine .of_alike (alike_body k hend) ?_
      refine (ih.statement depth (.separator :: .body :: k)).bind
        (fun first c₁ ts₁ hc₁ => ?_) hc
      have hothers : Tracks (do
          let others ← body fuel depth
          return first :: others : Parse (List Node)) (.body :: k) k :=
        (ih.body depth k).bind fun _ _ _ => .pure
      obtain ⟨more₁, rfl⟩ := hc₁.eq_cons
      rw [current_bind]
      dsimp only
      split
      · rename_i hsep
        exact .advance_bind hc₁ (Token.kind_of_isOperator hsep) (by decide)
          (if_pos hsep) fun _ _ _ hc₂ => hothers hc₂
      · rename_i hsep
        exact .of_alike (alike_separator (.body :: k) hsep) (hothers hc₁)

end

/-- With any fuel, the parsing functions follow the agenda. -/
theorem tracked (fuel : Nat) : Tracked fuel := by
  induction fuel with
  | zero =>
      exact {
        statement := fun _ _ => by rw [statement]; exact .tooDeep
        function := fun _ _ => by rw [function]; exact .tooDeep
        body := fun _ _ => by rw [body]; exact .tooDeep
        expression := fun _ _ => by rw [expression]; exact .tooDeep
        tail := fun _ _ _ => by rw [tail]; exact .tooDeep
        term := fun _ _ => by rw [term]; exact .tooDeep
        operand := fun _ _ _ => by rw [operand]; exact .tooDeep
        arguments := fun _ _ => by rw [arguments]; exact .tooDeep }
  | succ fuel ih =>
      exact {
        statement := statement_tracks ih
        function := function_tracks ih
        body := body_tracks ih
        expression := expression_tracks ih
        tail := tail_tracks ih
        term := term_tracks ih
        operand := operand_tracks ih
        arguments := arguments_tracks ih }

/-! ## Programs -/

theorem skipSeparators_tracks : Tracks skipSeparators [] [] := by
  intro c ts hc
  obtain ⟨current, pending⟩ := c
  change Follows (skipSeparatorsFrom current pending) [] ts []
  have hstep : ∀ {t : Token}, t.isOperator ";" = true → step t [] = some [] :=
    fun hsep => if_pos (by rw [hsep]; rfl)
  fun_induction skipSeparatorsFrom current pending generalizing ts with
  | case1 current hsep head rest ih =>
      cases hc with
      | token _ hs =>
          cases hs with
          | token hne hs =>
              exact (ih (.token hne hs)).of_moves (.of_step (hstep hsep) _)
  | case2 current hsep position =>
      cases hc with
      | finish => cases hsep
      | token _ hs =>
          cases hs
          exact ⟨_, .finish, .of_step (hstep hsep) _⟩
  | case3 current hsep e =>
      cases hc with
      | token hne hs =>
          cases hs
          exact ⟨[], [], [current], rfl, rfl, .unrecognized hne⟩
  | case4 current pending hsep => exact Follows.pure (a := ()) hc

/-- Behind the separators there is a statement or the end. -/
theorem not_separator_of_skipSeparators {c c' : Cursor}
    (h : skipSeparators c = .done () c') :
    ¬ c'.current.isOperator ";" = true := by
  obtain ⟨current, pending⟩ := c
  change skipSeparatorsFrom current pending = .done () c' at h
  fun_induction skipSeparatorsFrom current pending with
  | case1 current hsep head rest ih => exact ih h
  | case2 current hsep position =>
      cases h
      exact Bool.false_ne_true
  | case3 => cases h
  | case4 current pending hsep =>
      cases h
      exact hsep

/-- Separators, and then a parser for the end or one for what starts with a
statement. -/
theorem separated_tracks {done next : Parse α} (hdone : Tracks done [] [])
    (hnext : Tracks next [.statement] []) :
    Tracks (do
      skipSeparators
      if (← Step.get).atEnd then done else next) [] [] := by
  intro c ts hc
  have hskip := skipSeparators_tracks hc
  rw [Step.bind_apply]
  cases hrun : skipSeparators c with
  | failed e c₁ =>
      rw [hrun] at hskip
      exact hskip
  | done _ c₁ =>
      rw [hrun] at hskip
      obtain ⟨rest, hc₁, hmoves⟩ := hskip
      obtain ⟨more, rfl⟩ := hc₁.eq_cons
      refine Follows.of_moves hmoves ?_
      change Follows ((if c₁.atEnd then done else next) c₁) _ _ _
      split
      · exact hdone hc₁
      · rename_i hend
        have hsep := not_separator_of_skipSeparators hrun
        exact .of_alike (alike_nil hsep hend) (hnext hc₁)

theorem statements_tracks (fuel depth : Nat) :
    Tracks (statements fuel depth) [] [] := by
  induction fuel with
  | zero => exact .tooDeep
  | succ fuel ih =>
      rw [statements]
      refine separated_tracks (fun _ _ => .pure) ?_
      refine ((tracked fuel).statement depth []).bind fun first => ?_
      exact ih.bind fun others _ _ => .pure

/-- A program is read to its end. -/
theorem atEnd_of_statements {fuel depth : Nat} {c c' : Cursor}
    {nodes : List Node} (h : statements fuel depth c = .done nodes c') :
    c'.current.kind = .endOfInput := by
  induction fuel generalizing c nodes with
  | zero => cases h
  | succ fuel ih =>
      rw [statements] at h
      obtain ⟨_, c₁, _, h⟩ := Step.bind_eq_done_iff.mp h
      obtain ⟨_, _, hget, h⟩ := Step.bind_eq_done_iff.mp h
      cases hget
      split at h
      · rename_i hend
        cases h
        exact eq_of_beq hend
      · obtain ⟨first, c₂, _, h⟩ := Step.bind_eq_done_iff.mp h
        obtain ⟨others, c₃, hothers, h⟩ := Step.bind_eq_done_iff.mp h
        cases h
        exact ih hothers

end Parse

end Scriptlet
