import Scriptlet.Proofs.CursorScanning
import Scriptlet.Proofs.ParserFuel
import Scriptlet.Proofs.Strategies
import Scriptlet.Proofs.ViablePrefixes

/-!
# Programs behind each other

Two programs with a semicolon between them are a program, with the
statements of the first one and then those of the second one
(`programs_concatenate`).

In front of the semicolon the text is parsed as before, although the last
statement now ends at a semicolon and not at the end of the input
(`Cursor.Continued`): what parses it is a strategy, and strategies take the
two alike. Behind the semicolon everything is as in the second program on
its own, only further on in the text (`Parse.programAt_shift`), so an error
there is the same error at an offset that is larger by what stands in front.
-/

namespace Scriptlet

variable {α β : Type}

/-! ## Further on in a text -/

namespace ParseError

def shift (distance : Int) : ParseError → ParseError
  | .unrecognized error => .unrecognized (error.shift distance)
  | .unexpected wanted found => .unexpected wanted (found.shift distance)
  | .closingParen found => .closingParen (found.shift distance)
  | .functionName found => .functionName (found.shift distance)

def offset : ParseError → Int
  | .unrecognized error => error.position
  | .unexpected _ found => found.position
  | .closingParen found => found.position
  | .functionName found => found.position

theorem kind_shift (distance : Int) (e : ParseError) :
    (e.shift distance).kind = e.kind := by
  cases e <;> rfl

theorem offset_shift (distance : Int) (e : ParseError) :
    (e.shift distance).offset = e.offset + distance := by
  cases e <;> rfl

end ParseError

def ParseFailure.shift (distance : Int) : ParseFailure → ParseFailure
  | .error e => .error (e.shift distance)
  | .tooDeep => .tooDeep

def Cursor.shift (distance : Int) (c : Cursor) : Cursor :=
  ⟨c.current.shift distance, c.pending.shift distance⟩

theorem Stream.length_shift (distance : Int) (s : Stream) :
    (s.shift distance).length = s.length := by
  induction s with
  | token head rest ih => exact congrArg (· + 1) ih
  | finish position => rfl
  | broken error => rfl

theorem Cursor.fuel_shift (distance : Int) (c : Cursor) :
    (c.shift distance).fuel = c.fuel := by
  rw [fuel, shift, Stream.length_shift, fuel]

namespace Parse

/-- What a parser does further on in a text. -/
def shifted (distance : Int) :
    Outcome ParseFailure Cursor α → Outcome ParseFailure Cursor α
  | .done a c => .done a (c.shift distance)
  | .failed e c => .failed (e.shift distance) (c.shift distance)

theorem result_shifted (distance : Int)
    (o : Outcome ParseFailure Cursor α) :
    (shifted distance o).result = o.result.mapError (·.shift distance) := by
  cases o <;> rfl

/-- The parser does the same further on in a text. -/
def Shifts (p : Parse α) : Prop :=
  ∀ (distance : Int) (c : Cursor),
    p (c.shift distance) = shifted distance (p c)

theorem Shifts.bind {p : Parse α} {next : α → Parse β} (h : Shifts p)
    (hnext : ∀ a, Shifts (next a)) : Shifts (p >>= next) := by
  intro distance c
  rw [Step.bind_apply, Step.bind_apply, h distance c]
  cases p c with
  | failed e c' => rfl
  | done a c' => exact hnext a distance c'

theorem Plan.shifts {form : Form} (plan : Plan α form) : Shifts plan.run := by
  intro distance c
  induction plan generalizing c with
  | give a => rfl
  | object objection => cases objection <;> rfl
  | giveUp => rfl
  | consume proper σ ih =>
      obtain ⟨t, pending⟩ := c
      cases pending with
      | token head rest => exact ih head.form ⟨head, rest⟩
      | finish position =>
          exact ih .inputEnd ⟨Token.atEnd position, .finish position⟩
      | broken e => rfl

theorem Planned.shifts {p : Parse α} (h : Planned p) : Shifts p := by
  obtain ⟨σ, -, hrun⟩ := h
  intro distance c
  have hmoved : p (c.shift distance) = σ.run (c.shift distance) :=
    hrun (c.shift distance)
  have hhere : p c = σ.run c := hrun c
  rw [hmoved, hhere]
  exact Plan.shifts (σ c.current.form) distance c

theorem isOperator_shift (distance : Int) (t : Token) (symbol : String) :
    (t.shift distance).isOperator symbol = t.isOperator symbol := rfl

theorem skipSeparators_shifts : Shifts skipSeparators := by
  intro distance c
  obtain ⟨current, pending⟩ := c
  change skipSeparatorsFrom (current.shift distance) (pending.shift distance) =
    shifted distance (skipSeparatorsFrom current pending)
  fun_induction skipSeparatorsFrom current pending with
  | case1 current hsep head rest ih =>
      rw [Stream.shift, skipSeparatorsFrom, isOperator_shift, if_pos hsep]
      exact ih
  | case2 current hsep position =>
      rw [Stream.shift, skipSeparatorsFrom, isOperator_shift, if_pos hsep]
      rfl
  | case3 current hsep e =>
      rw [Stream.shift, skipSeparatorsFrom, isOperator_shift, if_pos hsep]
      rfl
  | case4 pending current hsep =>
      rw [skipSeparatorsFrom.eq_def, isOperator_shift, if_neg hsep]
      rfl

/-- A test for the end of the text. -/
theorem Shifts.ite_atEnd {p q : Parse α} (hp : Shifts p) (hq : Shifts q) :
    Shifts (do if (← Step.get).atEnd then p else q) := by
  intro distance c
  change (if c.atEnd then p else q) (c.shift distance) =
    shifted distance ((if c.atEnd then p else q) c)
  by_cases hend : c.atEnd = true
  · rw [if_pos hend]
    exact hp distance c
  · rw [if_neg hend]
    exact hq distance c

theorem statements_shifts (fuel limit : Nat) :
    Shifts (statements fuel limit) := by
  have hpure : ∀ nodes : List Node, Shifts (pure nodes : Parse _) :=
    fun _ _ _ => rfl
  induction fuel with
  | zero => exact fun _ _ => rfl
  | succ fuel ih =>
      rw [statements]
      refine skipSeparators_shifts.bind fun _ => .ite_atEnd (hpure []) ?_
      refine ((planned fuel).statement limit).shifts.bind fun first => ?_
      exact ih.bind fun others => hpure (first :: others)

/-! ## Programs from a cursor on -/

/-- The statements from a cursor on, up to the end of the text. -/
def programAt (limit : Nat) (c : Cursor) : Except ParseFailure (List Node) :=
  (withFuel (statements · limit) c).result

theorem programAt_shift (limit : Nat) (distance : Int) (c : Cursor) :
    programAt limit (c.shift distance) =
      (programAt limit c).mapError (·.shift distance) := by
  change (statements (c.shift distance).fuel limit _).result = _
  rw [Cursor.fuel_shift, statements_shifts, result_shifted]
  rfl

/-- A program is its first statement and the program behind it. -/
theorem programAt_eq (limit : Nat) (c : Cursor) :
    programAt limit c =
      match nextStatement limit c with
      | .failed e _ => .error e
      | .done none _ => .ok []
      | .done (some node) c' => (programAt limit c').map (node :: ·) := by
  have hread : ∀ (c : Cursor) (count : Nat), c.remaining + 1 ≤ count →
      programAt limit c = (Reading.fromCursor limit count c).result :=
    fun c _ hcount => Reading.result_fromCursor c.remaining_le_fuel hcount
  cases hnext : nextStatement limit c with
  | failed e c' =>
      rw [hread c (c.remaining + 1) le_rfl, Reading.fromCursor, hnext]
      rfl
  | done node? c' =>
      -- enough for what follows as well
      rw [hread c (c.remaining + c'.remaining + 1 + 1) (by omega),
        Reading.fromCursor, hnext]
      cases node? with
      | none => rfl
      | some node =>
          dsimp only
          rw [Reading.result_cons,
            ← hread c' (c.remaining + c'.remaining + 1) (by omega)]

theorem nextStatement_of_skipSeparators {limit : Nat} {c d : Cursor}
    (h : skipSeparators c = skipSeparators d) :
    nextStatement limit c = nextStatement limit d := by
  unfold nextStatement
  rw [Step.bind_apply, Step.bind_apply, h]

theorem programAt_of_skipSeparators {limit : Nat} {c d : Cursor}
    (h : skipSeparators c = skipSeparators d) :
    programAt limit c = programAt limit d := by
  rw [programAt_eq, nextStatement_of_skipSeparators h, ← programAt_eq]

theorem programAt_cases {limit : Nat} {c : Cursor} {nodes : List Node}
    (h : programAt limit c = .ok nodes) :
    nodes = [] ∧ (∃ c', nextStatement limit c = .done none c') ∨
      ∃ node others c', nodes = node :: others ∧
        nextStatement limit c = .done (some node) c' ∧
        programAt limit c' = .ok others := by
  rw [programAt_eq] at h
  cases hnext : nextStatement limit c with
  | failed e c' =>
      rw [hnext] at h
      cases h
  | done node? c' =>
      rw [hnext] at h
      cases node? with
      | none =>
          cases h
          exact .inl ⟨rfl, c', rfl⟩
      | some node =>
          dsimp only at h
          cases hothers : programAt limit c' with
          | error e =>
              rw [hothers] at h
              cases h
          | ok others =>
              rw [hothers] at h
              cases h
              exact .inr ⟨node, others, c', rfl, rfl, hothers⟩

end Parse

/-! ## A semicolon in place of the end -/

/-- The second stream has the tokens of the first one, and in place of the
end the token `t` and what follows in `s`. -/
inductive Stream.Continued (t : Token) (s : Stream) : Stream → Stream → Prop
  | token {head : Token} {rest rest' : Stream} :
      head.kind ≠ .endOfInput → Continued t s rest rest' →
      Continued t s (.token head rest) (.token head rest')
  | finish {position : Int} : Continued t s (.finish position) (.token t s)

/-- The cursors are at the same place in front of such streams. -/
inductive Cursor.Continued (t : Token) (s : Stream) : Cursor → Cursor → Prop
  | token {current : Token} {pending pending' : Stream} :
      current.kind ≠ .endOfInput → Stream.Continued t s pending pending' →
      Continued t s ⟨current, pending⟩ ⟨current, pending'⟩
  | finish {position : Int} :
      Continued t s ⟨Token.atEnd position, .finish position⟩ ⟨t, s⟩

/-- Where the text has its first token, so has the longer one. -/
theorem Cursor.Continued.of_next {t : Token} {s stream stream' : Stream}
    {c : Cursor} (h : Stream.Continued t s stream stream')
    (hc : Cursor.ofStream stream = .ok c) :
    ∃ c', Cursor.ofStream stream' = .ok c' ∧ c.Continued t s c' := by
  cases h with
  | token hkind h =>
      cases hc
      exact ⟨_, rfl, .token hkind h⟩
  | finish =>
      cases hc
      exact ⟨_, rfl, .finish⟩

section

variable {t : Token} {s : Stream} {c c' d : Cursor} {a : α}

/-- What is given at the end is given at the semicolon. -/
theorem Strategy.run_semicolon {σ : Strategy α} {position : Int}
    (hσ : ∀ a, σ .inputEnd = .give a → σ .semicolon = .give a)
    (ht : t.form = Form.semicolon)
    (hrun : (σ .inputEnd).run ⟨Token.atEnd position, .finish position⟩ =
      .done a c') :
    ∃ d', (σ t.form).run ⟨t, s⟩ = .done a d' ∧ c'.Continued t s d' := by
  obtain ⟨hgive, rfl⟩ := Plan.eq_give_of_inputEnd hrun
  refine ⟨⟨t, s⟩, ?_, .finish⟩
  rw [ht, hσ a hgive]
  rfl

theorem Plan.run_continued {form : Form} {plan : Plan α form}
    (hplan : plan.EndsAlike) (ht : t.form = Form.semicolon)
    (hc : c.Continued t s d) (hend : c.current.kind ≠ .endOfInput)
    (hrun : plan.run c = .done a c') :
    ∃ d', plan.run d = .done a d' ∧ c'.Continued t s d' := by
  induction plan generalizing c d with
  | give b =>
      cases hrun
      exact ⟨d, rfl, hc⟩
  | object objection => cases hrun
  | giveUp => cases hrun
  | consume proper σ ih =>
      cases hc with
      | finish => exact absurd rfl hend
      | token hkind hpending =>
          cases hpending with
          | token hhead hrest =>
              exact ih _ (hplan.2 _) (.token hhead hrest) hhead hrun
          | finish => exact Strategy.run_semicolon hplan.1 ht hrun

/-- A strategy that comes to a value in front of the end comes to it in front
of the semicolon as well. -/
theorem Parse.Planned.continued {p : Parse α} (hp : Planned p)
    (ht : t.form = Form.semicolon) (hc : c.Continued t s d)
    (hrun : p c = .done a c') :
    ∃ d', p d = .done a d' ∧ c'.Continued t s d' := by
  obtain ⟨σ, hσ, hstrategy⟩ := hp
  have hfollows : ∀ c : Cursor, p c = (σ c.current.form).run c := hstrategy
  rw [hfollows] at hrun
  rw [hfollows]
  cases hc with
  | token hkind hpending =>
      exact Plan.run_continued (hσ.2 _) ht (.token hkind hpending) hkind hrun
  | finish => exact Strategy.run_semicolon hσ.1 ht hrun

/-- A statement is read alike, each time with the fuel of its cursor. -/
theorem Parse.statement_continued {limit : Nat} {node : Node}
    (ht : t.form = Form.semicolon) (hc : c.Continued t s d)
    (hrun : withFuel (statement · limit) c = .done node c') :
    ∃ d', withFuel (statement · limit) d = .done node d' ∧
      c'.Continued t s d' := by
  -- fuel that is enough for both
  have henough : ∀ c : Cursor, 4 * c.remaining + 3 ≤ c.fuel := by
    intro c
    have hfuel := c.remaining_le_fuel
    omega
  have hfuel_c := henough c
  have hfuel_d := henough d
  have hread : statement (c.fuel + d.fuel) limit c = .done node c' := by
    rw [← hrun]
    exact (statement_of_fuel (by omega)).1
  obtain ⟨d', hd', hc'⟩ :=
    ((planned (c.fuel + d.fuel)).statement limit).continued ht hc hread
  refine ⟨d', ?_, hc'⟩
  rw [← hd']
  exact (statement_of_fuel (by omega)).1.symm

theorem Parse.skipSeparators_continued (hc : c.Continued t s d)
    (hrun : skipSeparators c = .done () c') :
    ∃ d', c'.Continued t s d' ∧ skipSeparators d = skipSeparators d' := by
  obtain ⟨current, pending⟩ := c
  change skipSeparatorsFrom current pending = .done () c' at hrun
  fun_induction skipSeparatorsFrom current pending generalizing d with
  | case1 current hsep head rest ih =>
      cases hc with
      | token hkind hpending =>
          cases hpending with
          | token hhead hrest =>
              obtain ⟨d', hd', hskip⟩ := ih (.token hhead hrest) hrun
              refine ⟨d', hd', Eq.trans ?_ hskip⟩
              exact if_pos hsep
  | case2 current hsep position =>
      cases hrun
      cases hc with
      | finish => cases hsep
      | token hkind hpending =>
          cases hpending
          exact ⟨⟨t, s⟩, .finish, if_pos hsep⟩
  | case3 => cases hrun
  | case4 pending current hsep =>
      cases hrun
      exact ⟨d, hc, rfl⟩

/-- Where the first text has another statement, so has the longer one; where
it ends, the longer one goes on from the semicolon. -/
theorem Parse.nextStatement_continued {limit : Nat} {node? : Option Node}
    (ht : t.form = Form.semicolon) (hc : c.Continued t s d)
    (hrun : nextStatement limit c = .done node? c') :
    node? = none ∧ nextStatement limit d = nextStatement limit ⟨t, s⟩ ∨
      ∃ node d', node? = some node ∧
        nextStatement limit d = .done (some node) d' ∧
        c'.Continued t s d' := by
  obtain ⟨_, c₁, hskip, hrun⟩ := Step.bind_eq_done_iff.mp hrun
  obtain ⟨_, _, hget, hrun⟩ := Step.bind_eq_done_iff.mp hrun
  cases hget
  obtain ⟨d₁, hd₁, hskip'⟩ := skipSeparators_continued hc hskip
  have hnext : nextStatement limit d = nextStatement limit d₁ :=
    nextStatement_of_skipSeparators hskip'
  cases hd₁ with
  | finish =>
      cases hrun
      exact .inl ⟨rfl, hnext⟩
  | @token current pending pending' hkind hpending =>
      have hend : ¬ Cursor.atEnd ⟨current, pending⟩ = true :=
        fun h => hkind (eq_of_beq h)
      rw [if_neg hend] at hrun
      obtain ⟨node, c₂, hstatement, hrun⟩ := Step.bind_eq_done_iff.mp hrun
      cases hrun
      obtain ⟨d', hd', hc'⟩ := statement_continued ht
        (.token hkind hpending) hstatement
      refine .inr ⟨node, d', rfl, ?_, hc'⟩
      have hsep := not_separator_of_skipSeparators hskip
      rw [hnext]
      refine Step.bind_eq_done_iff.mpr
        ⟨(), _, skipSeparators_of_ne hsep pending', ?_⟩
      refine Step.bind_eq_done_iff.mpr ⟨_, _, rfl, ?_⟩
      rw [if_neg (show ¬ Cursor.atEnd ⟨current, pending'⟩ = true from hend)]
      exact Step.bind_eq_done_iff.mpr ⟨node, d', hd', rfl⟩

/-- The program of the first text comes first. -/
theorem Parse.programAt_continued {limit : Nat} {nodes : List Node}
    (ht : t.form = Form.semicolon) (hc : c.Continued t s d)
    (h : programAt limit c = .ok nodes) :
    programAt limit d = (programAt limit ⟨t, s⟩).map (nodes ++ ·) := by
  induction nodes generalizing c d with
  | nil =>
      obtain ⟨-, c', hnext⟩ | ⟨node, others, c', hnodes, -⟩ :=
        programAt_cases h
      · obtain ⟨-, hsame⟩ | ⟨node, d', hnode, -⟩ :=
          nextStatement_continued ht hc hnext
        · rw [programAt_eq, hsame, ← programAt_eq]
          cases programAt limit ⟨t, s⟩ <;> rfl
        · cases hnode
      · cases hnodes
  | cons node nodes ih =>
      obtain ⟨hnodes, -⟩ | ⟨first, others, c', hnodes, hnext, hrest⟩ :=
        programAt_cases h
      · cases hnodes
      · cases hnodes
        obtain ⟨hnone, -⟩ | ⟨_, d', hnode, hd', hc'⟩ :=
          nextStatement_continued ht hc hnext
        · cases hnone
        · cases hnode
          rw [programAt_eq limit d, hd']
          dsimp only
          rw [ih hc' hrest]
          cases programAt limit ⟨t, s⟩ <;> rfl

end

/-! ## Texts -/

/-- A semicolon ends every token. -/
theorem Token.endsBefore_semicolon (t : Token) :
    t.EndsBefore (some ';') := by
  obtain ⟨-, hdigit, hpart⟩ := not_part_of_mem_symbols ';' (by decide)
  unfold EndsBefore
  split
  · rintro c ⟨rfl⟩
    exact hdigit
  · rintro c ⟨rfl⟩
    exact hpart
  · rintro c ⟨rfl⟩
    exact hpart
  · trivial

/-- Up to the semicolon the tokens are those of the text in front of it. -/
theorem Lexes.continued {finish position : Int} {cs : List Char}
    {ts : List Token} (h : Lexes finish position cs ts) {place : Int}
    (hplace : place = position + cs.length) (finish' : Int)
    (rest : List Char) :
    Stream.Continued ⟨.operator, ";", place⟩
      (Stream.scan finish' (place + 1) rest)
      (Stream.scan finish position cs)
      (Stream.scan finish' position (cs ++ ';' :: rest)) := by
  induction h with
  | @finish position =>
      have hsame : place = position := by
        rw [hplace, List.length_nil]
        exact Int.add_zero position
      subst hsame
      have hsymbol : symbolKind? ';' = some .operator := rfl
      rw [List.nil_append, Stream.scan_symbol finish' place rest hsymbol,
        Stream.scan]
      exact .finish
  | @blank position c cs ts hblank _ ih =>
      rw [List.cons_append, Stream.scan_blank _ _ _ hblank,
        Stream.scan_blank _ _ _ hblank]
      refine ih ?_
      rw [hplace, List.length_cons]
      push_cast
      omega
  | @token t cs ts hkind hspelled hends _ ih =>
      have hends' : t.EndsBefore (cs ++ ';' :: rest).head? := by
        cases cs with
        | cons d cs => exact hends
        | nil => exact t.endsBefore_semicolon
      rw [List.append_assoc, Stream.scan_token _ hkind hspelled hends,
        Stream.scan_token _ hkind hspelled hends']
      refine .token hkind (ih ?_)
      rw [hplace, List.length_append, String.length_toList, Token.finish]
      push_cast
      omega

/-- The stream of two texts with a semicolon between them. -/
theorem Stream.ofText_continued {a : String} {ts : List Token}
    (h : (Stream.ofText a).tokens = (ts, none)) (b : String) :
    Stream.Continued ⟨.operator, ";", a.length⟩
      ((Stream.ofText b).shift (a.length + 1)) (Stream.ofText a)
      (Stream.ofText (a ++ ";" ++ b)) := by
  have hlexes := tokens_eq_iff_lexes.mp h
  have hplace : (a.length : Int) = 0 + (a.toList.length : Int) := by
    rw [String.length_toList, Int.zero_add]
  have hcs : (a ++ ";" ++ b).toList = a.toList ++ ';' :: b.toList := by
    rw [String.toList_append, String.toList_append, List.append_assoc]
    rfl
  have hlength : ((a ++ ";" ++ b).toList.length : Int) =
      (b.toList.length : Int) + (a.length + 1) := by
    rw [hcs, List.length_append, List.length_cons, String.length_toList]
    push_cast
    omega
  have hcontinued := hlexes.continued hplace (a ++ ";" ++ b).toList.length
    b.toList
  rw [← hcs, ← Stream.ofText_eq, ← Stream.ofText_eq, hlength] at hcontinued
  have hshift := Stream.scan_shift (a.length + 1) b.toList.length 0 b.toList
  rw [Int.zero_add, ← Stream.ofText_eq] at hshift
  rw [hshift] at hcontinued
  exact hcontinued

theorem parseProgram_of_next {limit : Nat} {source : String} {t : Token}
    {rest : Stream} (h : (Stream.ofText source).next = .ok (t, rest)) :
    parseProgram limit source = Parse.programAt limit ⟨t, rest⟩ := by
  rw [parseProgram, Cursor.ofText, Cursor.ofStream, h]
  rfl

/-- From the semicolon on there is the second text. -/
theorem Parse.programAt_semicolon (limit : Nat) (place distance : Int)
    (b : String) :
    programAt limit ⟨⟨.operator, ";", place⟩,
        (Stream.ofText b).shift distance⟩ =
      (parseProgram limit b).mapError (·.shift distance) := by
  cases hb : Stream.ofText b with
  | token head rest =>
      have hprogram : parseProgram limit b = programAt limit ⟨head, rest⟩ :=
        parseProgram_of_next (by rw [hb]; rfl)
      rw [hprogram, ← programAt_shift]
      exact programAt_of_skipSeparators rfl
  | finish position =>
      have hprogram : parseProgram limit b =
          programAt limit ⟨Token.atEnd position, .finish position⟩ :=
        parseProgram_of_next (by rw [hb]; rfl)
      rw [hprogram, ← programAt_shift]
      exact programAt_of_skipSeparators rfl
  | broken e =>
      have hprogram : parseProgram limit b =
          .error (.error (.unrecognized e)) := by
        rw [parseProgram, Cursor.ofText, Cursor.ofStream, hb]
        rfl
      rw [hprogram, programAt_eq]
      rfl

theorem parseProgram_semicolon {limit : Nat} {a : String} {nodes : List Node}
    (h : parseProgram limit a = .ok nodes) (b : String) :
    parseProgram limit (a ++ ";" ++ b) =
      ((parseProgram limit b).mapError (·.shift (a.length + 1))).map
        (nodes ++ ·) := by
  obtain ⟨ts, htokens, -⟩ := run_of_accepted ⟨limit, nodes, h⟩
  have hcontinued := Stream.ofText_continued htokens b
  cases hcursor : Cursor.ofText a with
  | error e =>
      rw [parseProgram_of_error hcursor] at h
      cases h
  | ok c =>
      obtain ⟨d, hd, hc⟩ := Cursor.Continued.of_next hcontinued hcursor
      have hprogram : Parse.programAt limit c = .ok nodes := by
        rw [← h, parseProgram_of_cursor hcursor]
        rfl
      have hd' : Cursor.ofText (a ++ ";" ++ b) = .ok d := hd
      rw [parseProgram_of_cursor hd', ← Parse.programAt_semicolon limit
        a.length, ← Parse.programAt_continued rfl hc hprogram]
      rfl

/-! ## Messages -/

namespace ParseError

theorem shift_zero (e : ParseError) : e.shift 0 = e := by
  have htoken : ∀ t : Token, t.shift 0 = t :=
    fun t => congrArg t.moved (Int.add_zero t.position)
  have hlex : ∀ error : LexError, error.shift 0 = error :=
    fun error => congrArg (LexError.mk error.char) (Int.add_zero _)
  cases e with
  | unrecognized error => exact congrArg _ (hlex error)
  | unexpected wanted found => exact congrArg _ (htoken found)
  | closingParen found => exact congrArg _ (htoken found)
  | functionName found => exact congrArg _ (htoken found)

/-- In its message an error tells its offset, and further on only the offset
is another one. -/
theorem message_shift (e : ParseError) :
    ∃ front back, ∀ distance, (e.shift distance).message =
      front ++ toString (e.offset + distance) ++ back := by
  cases e with
  | unrecognized error =>
      refine ⟨"UnexpectedToken" ++ ": " ++ ("unrecognized character " ++
        Text.quoted error.char.toString ++ " at offset "), "",
        fun distance => ?_⟩
      rw [String.append_empty, String.append_assoc]
      rfl
  | unexpected wanted found =>
      refine ⟨"UnexpectedToken" ++ ": " ++ ("expected " ++ wanted.message ++
        " at offset "), ", got " ++ foundText found, fun distance => ?_⟩
      have hmessage : ((unexpected wanted found).shift distance).message =
          "UnexpectedToken" ++ ": " ++ ("expected " ++ wanted.message ++
            " at offset " ++ toString (found.position + distance) ++
            ", got " ++ foundText found) := rfl
      rw [hmessage]
      simp only [String.append_assoc]
      rfl
  | closingParen found =>
      refine ⟨"ExpectedClosingParen" ++ ": " ++ "expected ')' at offset ", "",
        fun distance => ?_⟩
      rw [String.append_empty, String.append_assoc]
      rfl
  | functionName found =>
      refine ⟨"ExpectedFunctionName" ++ ": " ++
        "expected function name after 'def' at offset ", "",
        fun distance => ?_⟩
      rw [String.append_empty, String.append_assoc]
      rfl

end ParseError

/-- **Programs concatenate at a semicolon.** Let a text be a program. With a
semicolon and another text behind it, it is a program exactly if the other
text is one, and then its statements are those of the one and of the other.
If the other text has an error, so has the whole, with the same kind and the
same message up to the offset, which counts the text in front and the
semicolon as well; and if the other text nests too deeply, so does the
whole. -/
theorem programs_concatenate (limit : Nat) (a b : String)
    (nodes : List Node) (h : parseProgram limit a = .ok nodes) :
    (∀ all, parseProgram limit (a ++ ";" ++ b) = .ok all ↔
      ∃ others, parseProgram limit b = .ok others ∧
        all = nodes ++ others) ∧
    (∀ e, parseProgram limit b = .error (.error e) →
      ∃ e', parseProgram limit (a ++ ";" ++ b) = .error (.error e') ∧
        e'.kind = e.kind ∧ e'.offset = e.offset + (a.length + 1) ∧
        ∃ front back, e.message = front ++ toString e.offset ++ back ∧
          e'.message = front ++ toString e'.offset ++ back) ∧
    (parseProgram limit b = .error .tooDeep →
      parseProgram limit (a ++ ";" ++ b) = .error .tooDeep) := by
  have hwhole := parseProgram_semicolon h b
  refine ⟨fun all => ?_, fun e he => ?_, fun hdeep => ?_⟩
  · rw [hwhole]
    cases parseProgram limit b with
    | error e =>
        constructor
        · intro hall
          cases hall
        · rintro ⟨others, hothers, -⟩
          cases hothers
    | ok others =>
        constructor
        · intro hall
          cases hall
          exact ⟨others, rfl, rfl⟩
        · rintro ⟨others', hothers, rfl⟩
          cases hothers
          rfl
  · rw [he] at hwhole
    refine ⟨e.shift (a.length + 1), hwhole, e.kind_shift _, e.offset_shift _,
      ?_⟩
    obtain ⟨front, back, hmessage⟩ := e.message_shift
    have hhere := hmessage 0
    rw [e.shift_zero, Int.add_zero] at hhere
    refine ⟨front, back, hhere, ?_⟩
    rw [e.offset_shift]
    exact hmessage _
  · rw [hwhole, hdeep]
    rfl

/-- The second text lacks a term at its end. In the whole it is lacking at
the end as well, which is nine characters further on. -/
theorem program_before_broken_program :
    let e : ParseError := .unexpected .operand (Token.atEnd 3)
    parseProgram 2 "x = f(1)" =
        .ok [.assign (.text "x") (.call (.identifier (.text "f"))
          [.number (.text "1")])] ∧
      parseProgram 2 "2 +" = .error (.error e) ∧
      ∃ e', parseProgram 2 ("x = f(1)" ++ ";" ++ "2 +") =
          .error (.error e') ∧
        e'.kind = "UnexpectedToken" ∧ e'.offset = 12 := by
  intro e
  have ha : parseProgram 2 "x = f(1)" =
      .ok [.assign (.text "x") (.call (.identifier (.text "f"))
        [.number (.text "1")])] := by cbv
  have hb : parseProgram 2 "2 +" = .error (.error e) := by cbv
  obtain ⟨e', hwhole, hkind, hoffset, -⟩ :=
    (programs_concatenate 2 "x = f(1)" "2 +" _ ha).2.1 e hb
  exact ⟨ha, hb, e', hwhole, hkind, hoffset⟩

end Scriptlet
