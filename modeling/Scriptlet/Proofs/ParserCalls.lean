import Scriptlet.Proofs.ParserFuel
import Scriptlet.Proofs.ParserGrammar
import Scriptlet.Proofs.Strategies

/-!
# Calls of the parser

The parsing functions can be called one after the other on one cursor, in any
order and also after a failure, which leaves the cursor wherever it has come
to. Whatever is called, the cursor keeps in step with the tokens of its text
(`parser_stays_in_step`): the tokens that the calls have consumed, and behind
them the current one, are the first tokens of the text.

In front of an unrecognised character the cursor is stuck for good. No call
can move it, every call that has to consume the current token passes on the
character, and no parsing function can do without consuming a token.
-/

namespace Scriptlet

variable {α β : Type}

/-! ## Calls -/

inductive ParserCall where
  | atEnd
  | advance
  | skipSeparators
  | closingParen
  | statement
  | program
  | expression
  | term
  | function
  deriving Repr, DecidableEq

/-- What a call comes to, if it does not fail. -/
inductive ParserAnswer where
  | flag (holds : Bool)
  | token (token : Token)
  | nothing
  | node (node : Node)
  | nodes (nodes : List Node)

namespace ParserCall

open Parse in
/-- Makes a call, with trees nesting no deeper than `limit`. -/
def run (limit : Nat) : ParserCall → Parse ParserAnswer
  | .atEnd => do
    let c ← Step.get
    return .flag c.atEnd
  | .advance => do
    let token ← Parse.advance
    return .token token
  | .skipSeparators => do
    Parse.skipSeparators
    return .nothing
  | .closingParen => do
    Parse.closingParen
    return .nothing
  | .statement => do
    let node ← withFuel (Parse.statement · limit)
    return .node node
  | .program => do
    let nodes ← withFuel (statements · limit)
    return .nodes nodes
  | .expression => do
    let node ← withFuel (Parse.expression · limit)
    return .node node
  | .term => do
    let node ← withFuel (Parse.term · limit)
    return .node node
  | .function => do
    let node ← withFuel (Parse.function · limit)
    return .node node

/-- The calls that come to a tree or to several. -/
def parses : ParserCall → Bool
  | .statement | .program | .expression | .term | .function => true
  | .atEnd | .advance | .skipSeparators | .closingParen => false

end ParserCall

/-- The cursor when calls were made one after the other, whether they failed
or not. -/
def Cursor.after (limit : Nat) (calls : List ParserCall) (c : Cursor) :
    Cursor :=
  calls.foldl (fun c call => (call.run limit c).state) c

/-! ## Consumed tokens -/

/-- Consuming these tokens, one after the other, brings a cursor to
another. -/
inductive Cursor.Consumes : Cursor → List Token → Cursor → Prop
  | refl {c : Cursor} : Consumes c [] c
  | cons {c c₁ c' : Cursor} {t : Token} {row : List Token} :
      Parse.advance c = .done t c₁ → Consumes c₁ row c' →
      Consumes c (t :: row) c'

/-- A call consumes these tokens: `advance` the one it comes to, and any
other call only such as are in front of the end of the input. -/
structure ParserCall.Takes (limit : Nat) (call : ParserCall) (c : Cursor)
    (row : List Token) : Prop where
  consumes : c.Consumes row (call.run limit c).state
  advance : call = .advance →
    match call.run limit c with
    | .done answer _ => ∃ t, answer = .token t ∧ row = [t]
    | .failed _ _ => row = []
  proper : call ≠ .advance → ∀ t ∈ row, t.kind ≠ .endOfInput

/-- Calls that are made one after the other consume these tokens, each its
own row. -/
inductive Calls (limit : Nat) :
    Cursor → List ParserCall → List (List Token) → Prop
  | nil {c : Cursor} : Calls limit c [] []
  | cons {c : Cursor} {call : ParserCall} {calls : List ParserCall}
      {row : List Token} {rows : List (List Token)} :
      call.Takes limit c row →
      Calls limit (call.run limit c).state calls rows →
      Calls limit c (call :: calls) (row :: rows)

/-- The token of a text with this number, the end of the input being
repeated as often as asked for. -/
def Stream.tokenAt (s : Stream) (k : Nat) : Option Token :=
  if k < s.tokens.1.length then s.tokens.1[k]?
  else if s.tokens.2.isNone then s.tokens.1.getLast?
  else none

/-! ## Tokens by number -/

namespace Stream

variable {s s' : Stream} {t : Token}

theorem tokens_ne_nil (h : s.tokens.2 = none) : s.tokens.1 ≠ [] := by
  cases s with
  | token head rest => exact List.cons_ne_nil _ _
  | finish position => exact List.cons_ne_nil _ _
  | broken e => cases h

theorem tokenAt_zero (h : s.next = .ok (t, s')) :
    s.tokenAt 0 = some t := by
  cases s with
  | token head rest =>
      cases h
      exact if_pos (Nat.succ_pos _)
  | finish position =>
      cases h
      rfl
  | broken e => cases h

theorem tokenAt_succ (h : s.next = .ok (t, s')) (k : Nat) :
    s.tokenAt (k + 1) = s'.tokenAt k := by
  cases s with
  | token head rest =>
      cases h
      have htokens : (token t s').tokens = (t :: s'.tokens.1, s'.tokens.2) :=
        rfl
      rw [tokenAt, tokenAt, htokens, List.length_cons,
        List.getElem?_cons_succ]
      by_cases hk : k < s'.tokens.1.length
      · rw [if_pos hk, if_pos (Nat.succ_lt_succ hk)]
      · rw [if_neg hk, if_neg (by omega)]
        cases herror : s'.tokens.2 with
        | some e => rfl
        | none =>
            obtain ⟨u, us, hu⟩ :=
              List.exists_cons_of_ne_nil (tokens_ne_nil herror)
            rw [hu, List.getLast?_cons_cons]
  | finish position =>
      cases h
      cases k <;> rfl
  | broken e => cases h

theorem error_of_next (h : s.next = .ok (t, s')) :
    s.tokens.2 = s'.tokens.2 := by
  cases s with
  | token head rest =>
      cases h
      rfl
  | finish position =>
      cases h
      rfl
  | broken e => cases h

end Stream

theorem Parse.of_advance_done {c c' : Cursor} {t : Token}
    (h : advance c = .done t c') :
    t = c.current ∧ c.pending.next = .ok (c'.current, c'.pending) := by
  unfold advance at h
  split at h
  · rename_i hnext
    cases h
    exact ⟨rfl, hnext⟩
  · cases h

namespace Cursor

variable {c c' c₁ : Cursor} {row row' : List Token} {t : Token}

theorem Consumes.append (h : c.Consumes row c₁) (h' : c₁.Consumes row' c') :
    c.Consumes (row ++ row') c' := by
  induction h with
  | refl => exact h'
  | cons hadvance _ ih => exact .cons hadvance (ih h')

/-- What was consumed and the current token are the first tokens of a
text. -/
theorem Consumes.tokenAt (h : c.Consumes row c') {s : Stream}
    (hs : s.next = .ok (c.current, c.pending)) :
    ∀ i ≤ row.length, (row ++ [c'.current])[i]? = s.tokenAt i := by
  induction h generalizing s with
  | @refl c =>
      intro i hi
      obtain rfl := Nat.le_zero.mp hi
      exact (Stream.tokenAt_zero hs).symm
  | cons hadvance _ ih =>
      obtain ⟨rfl, hnext⟩ := Parse.of_advance_done hadvance
      intro i hi
      cases i with
      | zero => exact (Stream.tokenAt_zero hs).symm
      | succ i =>
          rw [Stream.tokenAt_succ hs, ← ih hnext i (Nat.le_of_succ_le_succ hi)]
          rfl

/-- The error at the end of a text stays ahead. -/
theorem Consumes.error (h : c.Consumes row c') :
    c'.pending.tokens.2 = c.pending.tokens.2 := by
  induction h with
  | refl => rfl
  | cons hadvance _ ih =>
      obtain ⟨-, hnext⟩ := Parse.of_advance_done hadvance
      rw [ih, Stream.error_of_next hnext]

/-- In front of an unrecognised character nothing can be consumed. -/
theorem Consumes.eq_of_broken {e : LexError} (h : c.Consumes row c')
    (hc : c.pending = .broken e) : row = [] ∧ c' = c := by
  cases h with
  | refl => exact ⟨rfl, rfl⟩
  | cons hadvance _ =>
      obtain ⟨-, hnext⟩ := Parse.of_advance_done hadvance
      rw [hc] at hnext
      cases hnext

theorem Consumes.remaining_add_length (h : c.Consumes row c')
    (hrow : ∀ t ∈ row, t.kind ≠ .endOfInput) :
    c'.remaining + row.length ≤ c.remaining := by
  induction h with
  | refl => exact Nat.le_refl _
  | @cons c c₁ c' t row hadvance _ ih =>
      obtain ⟨ht, hothers⟩ := List.forall_mem_cons.mp hrow
      obtain ⟨rfl, -⟩ := Parse.of_advance_done hadvance
      have hless := Parse.settles_advance rfl ht
      rw [hadvance] at hless
      have hless' : c₁.remaining < c.remaining := hless
      have hrest := ih hothers
      rw [List.length_cons]
      omega

/-- There is only one way from a cursor to another, if the end of the input
is not consumed. -/
theorem Consumes.unique (h : c.Consumes row c') (h' : c.Consumes row' c')
    (hrow : ∀ t ∈ row, t.kind ≠ .endOfInput)
    (hrow' : ∀ t ∈ row', t.kind ≠ .endOfInput) : row = row' := by
  induction h generalizing row' with
  | refl =>
      have hle := h'.remaining_add_length hrow'
      exact (List.length_eq_zero_iff.mp (by omega)).symm
  | cons hadvance hrest ih =>
      cases h' with
      | refl =>
          have hle := (Consumes.cons hadvance hrest).remaining_add_length hrow
          rw [List.length_cons] at hle
          omega
      | cons hadvance' hrest' =>
          rw [hadvance] at hadvance'
          cases hadvance'
          rw [ih hrest' (List.forall_mem_cons.mp hrow).2
            (List.forall_mem_cons.mp hrow').2]

end Cursor

/-! ## Calls keep in step -/

namespace Parse

/-- A parser got here by consuming tokens in front of the end of the input.
If it failed because of an unrecognised character, it is in front of it. -/
def Arrives (c : Cursor) (o : Outcome ParseFailure Cursor α) : Prop :=
  (∃ row, (∀ t ∈ row, t.kind ≠ .endOfInput) ∧ c.Consumes row o.state) ∧
    ∀ e c', o = .failed (.error (.unrecognized e)) c' →
      c'.pending = .broken e

/-- From every cursor the parser moves by consuming tokens. -/
def Marches (p : Parse α) : Prop := ∀ c, Arrives c (p c)

theorem Marches.pure (a : α) : Marches (Pure.pure a : Parse α) := by
  intro c
  refine ⟨⟨[], fun _ ht => absurd ht List.not_mem_nil, .refl⟩,
    fun e c' h => ?_⟩
  cases h

theorem Arrives.bind {c : Cursor} {p : Parse α} {next : α → Parse β}
    (h : Arrives c (p c)) (hnext : ∀ a, Marches (next a)) :
    Arrives c ((p >>= next) c) := by
  rw [Step.bind_apply]
  cases hp : p c with
  | failed e c₁ =>
      rw [hp] at h
      obtain ⟨hrow, herror⟩ := h
      refine ⟨hrow, fun e' c' hfailed => ?_⟩
      cases hfailed
      exact herror _ _ rfl
  | done a c₁ =>
      rw [hp] at h
      obtain ⟨⟨row, hrow, hconsumes⟩, -⟩ := h
      obtain ⟨⟨row', hrow', hconsumes'⟩, herror⟩ := hnext a c₁
      exact ⟨⟨row ++ row', List.forall_mem_append.mpr ⟨hrow, hrow'⟩,
        hconsumes.append hconsumes'⟩, herror⟩

theorem Marches.bind {p : Parse α} {next : α → Parse β} (h : Marches p)
    (hnext : ∀ a, Marches (next a)) : Marches (p >>= next) :=
  fun c => (h c).bind hnext

theorem arrives_here {c : Cursor} {o : Outcome ParseFailure Cursor α}
    (hstate : o.state = c)
    (herror : ∀ e c', o = .failed (.error (.unrecognized e)) c' →
      c.pending = .broken e) : Arrives c o := by
  refine ⟨⟨[], fun _ ht => absurd ht List.not_mem_nil, ?_⟩, fun e c' h => ?_⟩
  · rw [hstate]
    exact .refl
  · have hc' : c' = c := by
      rw [← hstate, h]
      rfl
    rw [hc']
    exact herror e c' h

theorem Arrives.cons {c c₁ : Cursor} {t : Token}
    {o : Outcome ParseFailure Cursor α} (ht : t.kind ≠ .endOfInput)
    (hadvance : advance c = .done t c₁) (h : Arrives c₁ o) :
    Arrives c o := by
  obtain ⟨⟨row, hrow, hconsumes⟩, herror⟩ := h
  exact ⟨⟨t :: row, List.forall_mem_cons.mpr ⟨ht, hrow⟩,
    .cons hadvance hconsumes⟩, herror⟩

theorem arrives_advance {c : Cursor} (hc : c.current.kind ≠ .endOfInput) :
    Arrives c (advance c) := by
  obtain ⟨t, pending⟩ := c
  cases pending with
  | token head rest => exact .cons hc rfl (Marches.pure t ⟨head, rest⟩)
  | finish position =>
      exact .cons hc rfl
        (Marches.pure t ⟨Token.atEnd position, .finish position⟩)
  | broken error =>
      refine arrives_here rfl fun e c' h => ?_
      cases h
      rfl

theorem Plan.arrives {form : Form} (plan : Plan α form) {c : Cursor}
    (hc : c.current.form = form) : Arrives c (plan.run c) := by
  induction plan generalizing c with
  | give a => exact Marches.pure a c
  | object objection =>
      refine arrives_here rfl fun e c' h => ?_
      cases objection <;> cases h
  | giveUp =>
      refine arrives_here rfl fun e c' h => ?_
      cases h
  | consume proper σ ih =>
      have hproper : c.current.kind ≠ .endOfInput := by
        rw [← hc] at proper
        exact proper
      rw [Plan.run_consume]
      exact (arrives_advance hproper).bind fun _ c₁ =>
        ih c₁.current.form rfl

theorem Planned.marches {p : Parse α} (h : Planned p) : Marches p := by
  obtain ⟨σ, -, hrun⟩ := h
  intro c
  have hhere : p c = (σ c.current.form).run c := hrun c
  rw [hhere]
  exact Plan.arrives (σ c.current.form) rfl

theorem skipSeparators_marches : Marches skipSeparators := by
  intro c
  obtain ⟨current, pending⟩ := c
  have hproper : ∀ {t : Token}, t.isOperator ";" = true →
      t.kind ≠ .endOfInput := by
    intro t ht
    rw [Token.kind_of_isOperator ht]
    decide
  change Arrives _ (skipSeparatorsFrom current pending)
  fun_induction skipSeparatorsFrom current pending with
  | case1 current hsep head rest ih => exact .cons (hproper hsep) rfl ih
  | case2 current hsep position =>
      exact .cons (hproper hsep) rfl
        (Marches.pure () ⟨Token.atEnd position, .finish position⟩)
  | case3 current hsep error =>
      refine arrives_here rfl fun e c' h => ?_
      cases h
      rfl
  | case4 pending current hsep => exact Marches.pure () _

theorem statements_marches (fuel limit : Nat) :
    Marches (statements fuel limit) := by
  induction fuel with
  | zero => exact Planned.tooDeep.marches
  | succ fuel ih =>
      rw [statements]
      refine skipSeparators_marches.bind fun _ c => ?_
      change Arrives c ((if c.atEnd then pure [] else do
        let first ← statement fuel limit
        let others ← statements fuel limit
        return first :: others : Parse (List Node)) c)
      split
      · exact Marches.pure [] c
      · have hfirst := ((planned fuel).statement limit).marches
        exact (hfirst.bind fun first => ih.bind fun others => .pure _) c

/-- Parsing functions for which any fuel that is enough does, and that do not
come to a value without consuming a token. -/
structure Steady (parser : Nat → Parse α) : Prop where
  planned : ∀ fuel, Planned (parser fuel)
  stable : ∀ {fuel k : Nat} {c : Cursor}, 4 * c.remaining + 3 ≤ fuel →
    fuel ≤ k → Agrees (parser fuel c) (parser k c) c.remaining

theorem statement_steady (limit : Nat) : Steady (statement · limit) :=
  ⟨fun fuel => (planned fuel).statement limit,
    fun hfuel hle => (stable hle).statement hfuel⟩

theorem expression_steady (limit : Nat) : Steady (expression · limit) :=
  ⟨fun fuel => (planned fuel).expression limit,
    fun hfuel hle => (stable hle).expression (by omega)⟩

theorem term_steady (limit : Nat) : Steady (term · limit) :=
  ⟨fun fuel => (planned fuel).term limit,
    fun hfuel hle => (stable hle).term (by omega)⟩

theorem function_steady (limit : Nat) : Steady (function · limit) :=
  ⟨fun fuel => (planned fuel).function limit,
    fun hfuel hle => (stable hle).function (by omega)⟩

theorem Steady.marches {parser : Nat → Parse α} (h : Steady parser)
    (f : α → β) : Marches (withFuel parser >>= fun a => pure (f a)) := by
  have hparser : Marches (withFuel parser) :=
    fun c => (h.planned c.fuel).marches c
  exact hparser.bind fun _ => .pure _

end Parse

namespace ParserCall

open Parse

variable {limit : Nat} {call : ParserCall} {c c' : Cursor}

theorem run_marches (h : call ≠ .advance) : Marches (call.run limit) := by
  cases call with
  | atEnd => exact fun c => Marches.pure (ParserAnswer.flag c.atEnd) c
  | advance => exact absurd rfl h
  | skipSeparators => exact skipSeparators_marches.bind fun _ => .pure _
  | closingParen => exact closingParen_planned.marches.bind fun _ => .pure _
  | statement => exact (statement_steady limit).marches _
  | program =>
      have hprogram : Marches (withFuel (statements · limit)) :=
        fun c => statements_marches c.fuel limit c
      exact hprogram.bind fun _ => .pure _
  | expression => exact (expression_steady limit).marches _
  | term => exact (term_steady limit).marches _
  | function => exact (function_steady limit).marches _

/-- Every call consumes some tokens, which may be none. -/
theorem exists_takes (limit : Nat) (call : ParserCall) (c : Cursor) :
    ∃ row, call.Takes limit c row := by
  by_cases hcall : call = .advance
  · subst hcall
    have hrun : run limit .advance c =
        (Parse.advance >>= fun t => pure (.token t)) c := rfl
    cases hadvance : Parse.advance c with
    | done t c₁ =>
        rw [Step.bind_apply, hadvance] at hrun
        refine ⟨[t], ?_, fun _ => ?_, fun h => absurd rfl h⟩
        · rw [hrun]
          exact .cons hadvance .refl
        · rw [hrun]
          exact ⟨t, rfl, rfl⟩
    | failed e c₁ =>
        have hc₁ : c₁ = c := by
          unfold Parse.advance at hadvance
          split at hadvance
          · cases hadvance
          · cases hadvance
            rfl
        rw [Step.bind_apply, hadvance] at hrun
        refine ⟨[], ?_, fun _ => ?_, fun h => absurd rfl h⟩
        · rw [hrun, hc₁]
          exact .refl
        · rw [hrun]
  · have hmarches : Marches (call.run limit) := run_marches hcall
    obtain ⟨⟨row, hrow, hconsumes⟩, -⟩ := hmarches c
    exact ⟨row, hconsumes, fun h => absurd h hcall, fun _ => hrow⟩

theorem Takes.unique {row row' : List Token} (h : call.Takes limit c row)
    (h' : call.Takes limit c row') : row = row' := by
  by_cases hcall : call = .advance
  · have hrow := h.advance hcall
    have hrow' := h'.advance hcall
    cases hrun : call.run limit c with
    | done answer c₁ =>
        rw [hrun] at hrow hrow'
        obtain ⟨t, rfl, rfl⟩ := hrow
        obtain ⟨t', ht', rfl⟩ := hrow'
        cases ht'
        rfl
    | failed e c₁ =>
        rw [hrun] at hrow hrow'
        rw [hrow, hrow']
  · exact h.consumes.unique h'.consumes (h.proper hcall) (h'.proper hcall)

end ParserCall

theorem Calls.exists_rows (limit : Nat) (calls : List ParserCall)
    (c : Cursor) :
    ∃ rows, Calls limit c calls rows ∧
      c.Consumes rows.flatten (c.after limit calls) := by
  induction calls generalizing c with
  | nil => exact ⟨[], .nil, .refl⟩
  | cons call calls ih =>
      obtain ⟨row, hrow⟩ := call.exists_takes limit c
      obtain ⟨rows, hrows, hconsumes⟩ := ih (call.run limit c).state
      exact ⟨row :: rows, .cons hrow hrows, hrow.consumes.append hconsumes⟩

theorem Calls.unique {limit : Nat} {calls : List ParserCall} {c : Cursor}
    {rows rows' : List (List Token)} (h : Calls limit c calls rows)
    (h' : Calls limit c calls rows') : rows = rows' := by
  induction h generalizing rows' with
  | nil =>
      cases h'
      rfl
  | cons hrow _ ih =>
      cases h' with
      | cons hrow' hrows' => rw [hrow.unique hrow', ih hrows']

/-! ## In front of an unrecognised character -/

namespace Parse

variable {t : Token} {s : Stream} {e : LexError}

theorem Planned.state_broken {p : Parse α} (h : Planned p) (t : Token)
    (e : LexError) : (p ⟨t, .broken e⟩).state = ⟨t, .broken e⟩ := by
  obtain ⟨⟨row, -, hconsumes⟩, -⟩ := h.marches ⟨t, .broken e⟩
  exact (hconsumes.eq_of_broken rfl).2

/-- What consumes the token in front of some stream cannot do so in front of
an unrecognised character. -/
theorem Planned.refuses {p : Parse α} (h : Planned p)
    (hmoves : (p ⟨t, s⟩).state ≠ ⟨t, s⟩) (e : LexError) :
    p ⟨t, .broken e⟩ =
      .failed (.error (.unrecognized e)) ⟨t, .broken e⟩ := by
  obtain ⟨σ, -, hrun⟩ := h
  have hplan : ∀ s, p ⟨t, s⟩ = (σ t.form).run ⟨t, s⟩ := fun s => hrun ⟨t, s⟩
  rw [hplan] at hmoves ⊢
  cases hform : σ t.form with
  | consume proper τ => rfl
  | give a | object objection | giveUp =>
      rw [hform] at hmoves
      exact absurd rfl hmoves

/-- One token remains in front of an unrecognised character, for which seven
units of fuel are enough. -/
theorem enough_for_broken (ht : t.kind ≠ .endOfInput) {fuel : Nat}
    (hfuel : 7 ≤ fuel) (e : LexError) :
    4 * Cursor.remaining ⟨t, .broken e⟩ + 3 ≤ fuel := by
  have hremaining : Cursor.remaining ⟨t, .broken e⟩ = 1 :=
    Cursor.remaining_of_ne ht
  rw [hremaining]
  exact hfuel

namespace Steady

variable {parser : Nat → Parse α} {fuel k : Nat}

theorem refuses (h : Steady parser) (ht : t.kind ≠ .endOfInput)
    (hfuel : 7 ≤ fuel) (hle : fuel ≤ k)
    (hmoves : (parser k ⟨t, s⟩).state ≠ ⟨t, s⟩) (e : LexError) :
    parser fuel ⟨t, .broken e⟩ =
      .failed (.error (.unrecognized e)) ⟨t, .broken e⟩ := by
  have henough := enough_for_broken ht hfuel e
  rw [(h.stable henough hle).1]
  exact (h.planned k).refuses hmoves e

theorem fails (h : Steady parser) (ht : t.kind ≠ .endOfInput)
    (hfuel : 7 ≤ fuel) (e : LexError) :
    ∃ failure, parser fuel ⟨t, .broken e⟩ =
      .failed failure ⟨t, .broken e⟩ := by
  have henough := enough_for_broken ht hfuel e
  have hless := (h.stable henough (Nat.le_refl fuel)).2
  have hstate := (h.planned fuel).state_broken t e
  cases hrun : parser fuel ⟨t, .broken e⟩ with
  | failed failure c' =>
      rw [hrun] at hstate
      exact ⟨failure, by rw [← hstate]; rfl⟩
  | done a c' =>
      rw [hrun] at hless hstate
      have hsame : c' = ⟨t, .broken e⟩ := hstate
      rw [hsame] at hless
      exact absurd hless (Nat.lt_irrefl _)

/-- A parser that comes to a value has moved. -/
theorem moves (h : Steady parser) {c c' : Cursor} {a : α}
    (hfuel : 4 * c.remaining + 3 ≤ fuel) (hrun : parser fuel c = .done a c') :
    c' ≠ c := by
  have hless := (h.stable hfuel (Nat.le_refl fuel)).2
  rw [hrun] at hless
  rintro rfl
  exact Nat.lt_irrefl _ hless

end Steady

/-! ## Programs -/

/-- Where there is neither a semicolon nor the end of the input, a program
starts with a statement. -/
theorem statements_of_ne (fuel limit : Nat) (ht : t.kind ≠ .endOfInput)
    (hsep : ¬ t.isOperator ";" = true) (s : Stream) :
    statements (fuel + 1) limit ⟨t, s⟩ = (do
      let first ← statement fuel limit
      let others ← statements fuel limit
      return first :: others : Parse (List Node)) ⟨t, s⟩ := by
  have hend : ¬ Cursor.atEnd ⟨t, s⟩ = true := fun h => ht (eq_of_beq h)
  rw [statements, Step.bind_apply, skipSeparators_of_ne hsep]
  change (if Cursor.atEnd ⟨t, s⟩ then pure [] else _ : Parse (List Node))
    ⟨t, s⟩ = _
  rw [if_neg hend]

theorem skipSeparators_broken (hsep : t.isOperator ";" = true)
    (e : LexError) : skipSeparators ⟨t, .broken e⟩ =
      .failed (.error (.unrecognized e)) ⟨t, .broken e⟩ :=
  if_pos hsep

theorem statements_of_separator (fuel limit : Nat)
    (hsep : t.isOperator ";" = true) (e : LexError) :
    statements (fuel + 1) limit ⟨t, .broken e⟩ =
      .failed (.error (.unrecognized e)) ⟨t, .broken e⟩ := by
  rw [statements, Step.bind_apply, skipSeparators_broken hsep]

theorem statements_refuses {fuel k limit : Nat} (ht : t.kind ≠ .endOfInput)
    (hfuel : 7 ≤ fuel) (hle : fuel ≤ k)
    (hk : 4 * Cursor.remaining ⟨t, s⟩ + 3 ≤ k)
    (hmoves : (statements (k + 1) limit ⟨t, s⟩).state ≠ ⟨t, s⟩)
    (e : LexError) :
    statements (fuel + 1) limit ⟨t, .broken e⟩ =
      .failed (.error (.unrecognized e)) ⟨t, .broken e⟩ := by
  by_cases hsep : t.isOperator ";" = true
  · exact statements_of_separator fuel limit hsep e
  · have hfirst : (statement k limit ⟨t, s⟩).state ≠ ⟨t, s⟩ := by
      rw [statements_of_ne k limit ht hsep, Step.bind_apply] at hmoves
      cases hrun : statement k limit ⟨t, s⟩ with
      | failed failure c' =>
          rw [hrun] at hmoves
          exact hmoves
      | done node c' => exact (statement_steady limit).moves hk hrun
    have hrefuses :=
      (statement_steady limit).refuses ht hfuel hle hfirst e
    rw [statements_of_ne fuel limit ht hsep, Step.bind_apply]
    rw [show statement fuel limit _ = _ from hrefuses]

theorem statements_fails {fuel : Nat} (limit : Nat)
    (ht : t.kind ≠ .endOfInput) (hfuel : 7 ≤ fuel) (e : LexError) :
    ∃ failure, statements (fuel + 1) limit ⟨t, .broken e⟩ =
      .failed failure ⟨t, .broken e⟩ := by
  by_cases hsep : t.isOperator ";" = true
  · exact ⟨_, statements_of_separator fuel limit hsep e⟩
  · obtain ⟨failure, hfails⟩ := (statement_steady limit).fails ht hfuel e
    refine ⟨failure, ?_⟩
    rw [statements_of_ne fuel limit ht hsep, Step.bind_apply]
    rw [show statement fuel limit _ = _ from hfails]

/-! ## Every call -/

theorem bind_pure_state (p : Parse α) (f : α → β) (c : Cursor) :
    ((p >>= fun a => pure (f a)) c).state = (p c).state := by
  rw [Step.bind_apply]
  cases p c <;> rfl

theorem bind_pure_of_failed {p : Parse α} {c c' : Cursor}
    {failure : ParseFailure} (h : p c = .failed failure c') (f : α → β) :
    (p >>= fun a => pure (f a)) c = .failed failure c' := by
  rw [Step.bind_apply, h]

theorem Steady.call_refuses {parser : Nat → Parse α} (h : Steady parser)
    (f : α → β) (ht : t.kind ≠ .endOfInput)
    (hmoves : ((withFuel parser >>= fun a => pure (f a)) ⟨t, s⟩).state ≠
      ⟨t, s⟩) (e : LexError) :
    (withFuel parser >>= fun a => pure (f a)) ⟨t, .broken e⟩ =
      .failed (.error (.unrecognized e)) ⟨t, .broken e⟩ := by
  rw [bind_pure_state] at hmoves
  have hle : Cursor.fuel ⟨t, .broken e⟩ ≤ Cursor.fuel ⟨t, s⟩ := by
    change 8 ≤ 4 * s.length + 8
    omega
  exact bind_pure_of_failed
    (h.refuses ht (by decide : 7 ≤ 8) hle hmoves e) f

theorem Steady.call_fails {parser : Nat → Parse α} (h : Steady parser)
    (f : α → β) (ht : t.kind ≠ .endOfInput) (e : LexError) :
    ∃ failure, (withFuel parser >>= fun a => pure (f a)) ⟨t, .broken e⟩ =
      .failed failure ⟨t, .broken e⟩ := by
  obtain ⟨failure, hfails⟩ := h.fails ht (by decide : 7 ≤ 8) e
  have hcall : withFuel parser ⟨t, .broken e⟩ =
      .failed failure ⟨t, .broken e⟩ := hfails
  exact ⟨failure, bind_pure_of_failed hcall f⟩

end Parse

namespace ParserCall

open Parse

variable {limit : Nat} {t : Token} {s : Stream}

theorem run_refuses {call : ParserCall} (ht : t.kind ≠ .endOfInput)
    (hmoves : (call.run limit ⟨t, s⟩).state ≠ ⟨t, s⟩) (e : LexError) :
    call.run limit ⟨t, .broken e⟩ =
      .failed (.error (.unrecognized e)) ⟨t, .broken e⟩ := by
  cases call with
  | atEnd => exact absurd rfl hmoves
  | advance => rfl
  | skipSeparators =>
      by_cases hsep : t.isOperator ";" = true
      · exact bind_pure_of_failed (skipSeparators_broken hsep e)
          fun _ => ParserAnswer.nothing
      · refine absurd ?_ hmoves
        rw [run, bind_pure_state, skipSeparators_of_ne hsep]
        rfl
  | closingParen =>
      rw [run, bind_pure_state] at hmoves
      exact bind_pure_of_failed (closingParen_planned.refuses hmoves e)
        fun _ => ParserAnswer.nothing
  | statement => exact (statement_steady limit).call_refuses _ ht hmoves e
  | program =>
      rw [run, bind_pure_state] at hmoves
      have hfuel := Cursor.remaining_le_fuel ⟨t, s⟩
      have hk : Cursor.fuel ⟨t, s⟩ = 4 * s.length + 7 + 1 := rfl
      have hrefuses : statements (7 + 1) limit ⟨t, .broken e⟩ =
          .failed (.error (.unrecognized e)) ⟨t, .broken e⟩ :=
        statements_refuses (k := 4 * s.length + 7) ht (Nat.le_refl 7)
          (by omega) (by omega) hmoves e
      have hcall : withFuel (statements · limit) ⟨t, .broken e⟩ =
          .failed (.error (.unrecognized e)) ⟨t, .broken e⟩ := hrefuses
      exact bind_pure_of_failed hcall ParserAnswer.nodes
  | expression => exact (expression_steady limit).call_refuses _ ht hmoves e
  | term => exact (term_steady limit).call_refuses _ ht hmoves e
  | function => exact (function_steady limit).call_refuses _ ht hmoves e

theorem run_fails {call : ParserCall} (hcall : call.parses = true)
    (limit : Nat) (ht : t.kind ≠ .endOfInput) (e : LexError) :
    ∃ failure, call.run limit ⟨t, .broken e⟩ =
      .failed failure ⟨t, .broken e⟩ := by
  cases call with
  | atEnd | advance | skipSeparators | closingParen => cases hcall
  | statement => exact (statement_steady limit).call_fails _ ht e
  | program =>
      obtain ⟨failure, hfails⟩ := statements_fails limit ht (Nat.le_refl 7) e
      have hcall' : withFuel (statements · limit) ⟨t, .broken e⟩ =
          .failed failure ⟨t, .broken e⟩ := hfails
      exact ⟨failure, bind_pure_of_failed hcall' ParserAnswer.nodes⟩
  | expression => exact (expression_steady limit).call_fails _ ht e
  | term => exact (term_steady limit).call_fails _ ht e
  | function => exact (function_steady limit).call_fails _ ht e

/-- A call that fails because of an unrecognised character is in front of
it. -/
theorem pending_of_unrecognized {call : ParserCall} {c c' : Cursor}
    {e : LexError}
    (h : call.run limit c = .failed (.error (.unrecognized e)) c') :
    c'.pending = .broken e := by
  by_cases hcall : call = .advance
  · subst hcall
    obtain ⟨t, pending⟩ := c
    cases pending with
    | token head rest => cases h
    | finish position => cases h
    | broken error =>
        cases h
        rfl
  · exact (run_marches hcall c).2 e c' h

end ParserCall

/-- In front of an unrecognised character no call moves the cursor. -/
theorem Cursor.after_of_broken {c : Cursor} {e : LexError}
    (hc : c.pending = .broken e) (limit : Nat) (calls : List ParserCall) :
    c.after limit calls = c := by
  obtain ⟨rows, -, hconsumes⟩ := Calls.exists_rows limit calls c
  exact (hconsumes.eq_of_broken hc).2

/-- A cursor of a text is not behind the end of the input. -/
theorem Cursor.Consumes.sees {c c' : Cursor} {row ts : List Token}
    (h : c.Consumes row c') (hc : c.Sees ts) : ∃ rest, c'.Sees rest := by
  induction h generalizing ts with
  | refl => exact ⟨ts, hc⟩
  | @cons c c₁ c' t row hadvance _ ih =>
      obtain ⟨-, hnext⟩ := Parse.of_advance_done hadvance
      cases hc with
      | token hkind hs => exact ih (.of_next hs hnext)
      | finish => exact ih (.of_next .finish hnext)

/-! ## Any sequence of calls -/

/-- **The parser stays in step with the tokens.** Let any calls be made on
the cursor of a text, going on after failures. What each call consumes is
determined, and all of it, followed by the current token, is the row of the
first tokens of the text, the end of the input being repeated as often as it
is consumed. Once a call has come upon the unrecognised character of the
text, no calls change the cursor any more; each call that would consume the
current token, whatever came behind it, fails because of the same character;
and the parsing functions cannot but fail. -/
theorem parser_stays_in_step (limit : Nat) (source : String) (c₀ : Cursor)
    (h : Cursor.ofText source = .ok c₀) (calls : List ParserCall) :
    let c := c₀.after limit calls
    (∃ rows, Calls limit c₀ calls rows ∧
      (∀ rows', Calls limit c₀ calls rows' → rows' = rows) ∧
      ∀ k ≤ rows.flatten.length, (rows.flatten ++ [c.current])[k]? =
        (Stream.ofText source).tokenAt k) ∧
    ∀ (call : ParserCall) (e : LexError) (c₁ : Cursor),
      call.run limit c = .failed (.error (.unrecognized e)) c₁ →
      (Stream.ofText source).tokens.2 = some e ∧
      (∀ more, c₁.after limit more = c₁) ∧
      (∀ (call' : ParserCall) (s : Stream),
        (call'.run limit ⟨c₁.current, s⟩).state ≠ ⟨c₁.current, s⟩ →
        call'.run limit c₁ = .failed (.error (.unrecognized e)) c₁) ∧
      ∀ call' : ParserCall, call'.parses = true →
        ∃ failure, call'.run limit c₁ = .failed failure c₁ := by
  intro c
  have hnext : (Stream.ofText source).next =
      .ok (c₀.current, c₀.pending) := by
    unfold Cursor.ofText Cursor.ofStream at h
    split at h
    · rename_i hnext
      cases h
      exact hnext
    · cases h
  obtain ⟨rows, hcalls, hconsumes⟩ := Calls.exists_rows limit calls c₀
  refine ⟨⟨rows, hcalls, fun rows' h' => h'.unique hcalls,
    hconsumes.tokenAt hnext⟩, ?_⟩
  intro call e c₁ hfailed
  have hpending := ParserCall.pending_of_unrecognized hfailed
  -- the failed call is one more call of the sequence
  obtain ⟨row, hrow⟩ := call.exists_takes limit c
  have hlast : c.Consumes row c₁ := by
    have hmoves := hrow.consumes
    rw [hfailed] at hmoves
    exact hmoves
  have hwhole := hconsumes.append hlast
  obtain ⟨rest, hsees⟩ := hwhole.sees (Cursor.sees_ofText h)
  obtain ⟨t, pending⟩ := c₁
  cases hpending
  have ht : t.kind ≠ .endOfInput := by
    cases hsees with
    | token hkind _ => exact hkind
  refine ⟨?_, Cursor.after_of_broken rfl limit,
    fun call' s hmoves => ParserCall.run_refuses ht hmoves e,
    fun call' hcall => ParserCall.run_fails hcall limit ht e⟩
  rw [Stream.error_of_next hnext, ← hwhole.error]
  rfl

/-- A program that could not be read up to its end leaves the cursor at its
last token, where it stays. -/
theorem stuck_in_front_of_dollar :
    let c₀ : Cursor := ⟨⟨.operator, ";", 0⟩,
      .token ⟨.number, "1", 2⟩ (.broken ⟨'$', 4⟩)⟩
    let c₁ : Cursor := ⟨⟨.number, "1", 2⟩, .broken ⟨'$', 4⟩⟩
    Cursor.ofText "; 1 $ 2" = .ok c₀ ∧
      ParserCall.advance.run 1 (c₀.after 1 [.program]) =
        .failed (.error (.unrecognized ⟨'$', 4⟩)) c₁ ∧
      ∀ more, c₁.after 1 more = c₁ := by
  intro c₀ c₁
  have hcursor : Cursor.ofText "; 1 $ 2" = .ok c₀ := by cbv
  have hfailed : ParserCall.advance.run 1 (c₀.after 1 [.program]) =
      .failed (.error (.unrecognized ⟨'$', 4⟩)) c₁ := by cbv
  have hstuck := (parser_stays_in_step 1 "; 1 $ 2" c₀ hcursor [.program]).2
    .advance _ c₁ hfailed
  exact ⟨hcursor, hfailed, hstuck.2.1⟩

end Scriptlet
