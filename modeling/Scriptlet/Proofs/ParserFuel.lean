import Scriptlet.Proofs.ParserProgress
import Scriptlet.Shell

/-!
# Parsing at once and statement by statement

A program is parsed with the fuel of its first cursor, and the shell parses
each statement with the fuel of the cursor in front of it. That makes no
difference: from a cursor on, any two amounts of fuel that are enough for
its remaining tokens give the same outcome, be it a tree, a syntax error or
nesting that is too deep (`statement_of_fuel`). So the statements that the
shell comes upon one after the other (`Reading`) are those of the program,
up to the same failure (`parseProgram_eq_reading`).
-/

namespace Scriptlet

namespace Parse

variable {α β : Type}

/-! ## Two amounts of fuel -/

/-- Two runs have the same outcome, and if it is a value then fewer than
`bound` tokens remain. -/
def Agrees (o o' : Outcome ParseFailure Cursor α) (bound : Nat) : Prop :=
  o = o' ∧ o.Ensures (fun _ c' => c'.remaining < bound) fun _ _ => True

theorem Settles.agrees {o : Outcome ParseFailure Cursor α} {n : Nat}
    (h : Settles o n) : Agrees o o n :=
  ⟨rfl, h.imp (fun _ _ h' => h') fun _ _ _ => trivial⟩

theorem Agrees.mono {o o' : Outcome ParseFailure Cursor α} {m n : Nat}
    (h : Agrees o o' m) (hmn : m ≤ n) : Agrees o o' n :=
  ⟨h.1, h.2.imp (fun _ _ h' => Nat.lt_of_lt_of_le h' hmn) fun _ _ h' => h'⟩

theorem agrees_done {a : α} {c : Cursor} {n : Nat} (h : c.remaining < n) :
    Agrees (.done a c) (.done a c) n := ⟨rfl, h⟩

theorem agrees_failed (e : ParseFailure) (c : Cursor) (n : Nat) :
    Agrees (.failed e c : Outcome ParseFailure Cursor α) (.failed e c) n :=
  ⟨rfl, trivial⟩

theorem agrees_bind {p p' : Parse α} {next next' : α → Parse β} {c : Cursor}
    {m n : Nat} (h : Agrees (p c) (p' c) m)
    (hnext : ∀ a c', c'.remaining < m →
      Agrees (next a c') (next' a c') n) :
    Agrees ((p >>= next) c) ((p' >>= next') c) n := by
  obtain ⟨heq, hm⟩ := h
  rw [Step.bind_apply, Step.bind_apply, ← heq]
  cases hp : p c with
  | done a c' =>
      rw [hp] at hm
      exact hnext a c' hm
  | failed e c' => exact agrees_failed e c' n

theorem agrees_ite {b : Prop} [Decidable b] {p p' q q' : Parse α}
    {c : Cursor} {n : Nat} (hthen : b → Agrees (p c) (p' c) n)
    (helse : ¬ b → Agrees (q c) (q' c) n) :
    Agrees ((if b then p else q) c) ((if b then p' else q') c) n := by
  by_cases h : b
  · rw [if_pos h, if_pos h]
    exact hthen h
  · rw [if_neg h, if_neg h]
    exact helse h

theorem agrees_advance {next next' : Token → Parse β} {c : Cursor}
    {kind : TokenKind} {n : Nat} (hc : c.current.kind = kind)
    (hkind : kind ≠ .endOfInput)
    (hnext : ∀ a c', c'.remaining < c.remaining →
      Agrees (next a c') (next' a c') n) :
    Agrees ((advance >>= next) c) ((advance >>= next') c) n :=
  agrees_bind (settles_advance hc hkind).agrees hnext

/-- `fuel` is enough for the tokens that remain, and more of it, `k`, makes
no difference. -/
structure Stable (fuel k : Nat) : Prop where
  statement : ∀ {depth : Nat} {c : Cursor}, 4 * c.remaining + 3 ≤ fuel →
    Agrees (statement fuel depth c) (statement k depth c) c.remaining
  function : ∀ {depth : Nat} {c : Cursor}, 4 * c.remaining + 1 ≤ fuel →
    Agrees (function fuel depth c) (function k depth c) c.remaining
  body : ∀ {depth : Nat} {c : Cursor}, 4 * c.remaining + 4 ≤ fuel →
    Agrees (body fuel depth c) (body k depth c) c.remaining
  expression : ∀ {depth : Nat} {c : Cursor}, 4 * c.remaining + 2 ≤ fuel →
    Agrees (expression fuel depth c) (expression k depth c) c.remaining
  tail : ∀ {depth : Nat} {left : Node} {c : Cursor},
    4 * c.remaining + 1 ≤ fuel →
    Agrees (tail fuel depth left c) (tail k depth left c) (c.remaining + 1)
  term : ∀ {depth : Nat} {c : Cursor}, 4 * c.remaining + 1 ≤ fuel →
    Agrees (term fuel depth c) (term k depth c) c.remaining
  operand : ∀ {depth : Nat} {name : Token} {c : Cursor},
    4 * c.remaining + 1 ≤ fuel →
    Agrees (operand fuel depth name c) (operand k depth name c)
      (c.remaining + 1)
  arguments : ∀ {depth : Nat} {c : Cursor}, 4 * c.remaining + 3 ≤ fuel →
    Agrees (arguments fuel depth c) (arguments k depth c) c.remaining

section

variable {fuel k depth : Nat} {c : Cursor}

theorem expression_agrees (ih : Stable fuel k)
    (hfuel : 4 * c.remaining + 2 ≤ fuel + 1) :
    Agrees (expression (fuel + 1) depth c) (expression (k + 1) depth c)
      c.remaining := by
  rw [expression, expression]
  refine agrees_bind (ih.term (by omega)) fun left c₁ h₁ => ?_
  exact (ih.tail (by omega)).mono (by omega)

theorem tail_agrees (ih : Stable fuel k) {left : Node}
    (hfuel : 4 * c.remaining + 1 ≤ fuel + 1) :
    Agrees (tail (fuel + 1) depth left c) (tail (k + 1) depth left c)
      (c.remaining + 1) := by
  rw [tail, tail, current_bind, current_bind]
  refine agrees_ite (fun hop => ?_) fun _ => agrees_done (Nat.lt_succ_self _)
  refine agrees_advance (Token.kind_of_isArithmetic hop) (by decide)
    fun op c₁ h₁ => ?_
  refine agrees_bind (ih.term (by omega)) fun right c₂ h₂ => ?_
  exact (ih.tail (by omega)).mono (by omega)

theorem term_agrees (ih : Stable fuel k)
    (hfuel : 4 * c.remaining + 1 ≤ fuel + 1) :
    Agrees (term (fuel + 1) depth c) (term (k + 1) depth c)
      c.remaining := by
  rw [term.eq_def, term.eq_def (k + 1)]
  dsimp only
  rw [current_bind, current_bind]
  refine agrees_ite (fun hk => ?_) fun _ => ?_
  · exact agrees_advance (eq_of_beq hk) (by decide)
      fun _ c₁ h₁ => agrees_done h₁
  refine agrees_ite (fun hk => ?_) fun _ => ?_
  · refine agrees_advance (eq_of_beq hk) (by decide) fun name c₁ h₁ => ?_
    exact (ih.operand (by omega)).mono (by omega)
  refine agrees_ite (fun hk => ?_) fun _ => agrees_failed _ _ _
  refine agrees_advance (eq_of_beq hk) (by decide) fun opening c₁ h₁ => ?_
  cases depth with
  | zero => exact agrees_failed _ _ _
  | succ depth =>
      refine agrees_bind (ih.expression (by omega)) fun inner c₂ h₂ => ?_
      refine agrees_bind (settles_closingParen c₂).agrees fun _ c₃ h₃ => ?_
      exact agrees_done (by omega)

theorem operand_agrees (ih : Stable fuel k) {name : Token}
    (hfuel : 4 * c.remaining + 1 ≤ fuel + 1) :
    Agrees (operand (fuel + 1) depth name c) (operand (k + 1) depth name c)
      (c.remaining + 1) := by
  rw [operand.eq_def, operand.eq_def (k + 1)]
  dsimp only
  rw [current_bind, current_bind]
  refine agrees_ite (fun hk => ?_) fun _ => agrees_done (Nat.lt_succ_self _)
  refine agrees_advance (eq_of_beq hk) (by decide) fun opening c₁ h₁ => ?_
  rw [current_bind, current_bind]
  refine agrees_ite (fun _ => ?_) fun _ => ?_
  · refine agrees_bind (settles_closingParen c₁).agrees fun _ c₂ h₂ => ?_
    exact agrees_done (by omega)
  · cases depth with
    | zero => exact agrees_failed _ _ _
    | succ depth =>
        refine agrees_bind (ih.arguments (by omega)) fun args c₂ h₂ => ?_
        refine agrees_bind (settles_closingParen c₂).agrees
          fun _ c₃ h₃ => ?_
        exact agrees_done (by omega)

theorem arguments_agrees (ih : Stable fuel k)
    (hfuel : 4 * c.remaining + 3 ≤ fuel + 1) :
    Agrees (arguments (fuel + 1) depth c) (arguments (k + 1) depth c)
      c.remaining := by
  rw [arguments, arguments]
  refine agrees_bind (ih.expression (by omega)) fun first c₁ h₁ => ?_
  rw [current_bind, current_bind]
  refine agrees_ite (fun hcomma => ?_) fun _ => agrees_done h₁
  refine agrees_advance (Token.kind_of_isOperator hcomma) (by decide)
    fun comma c₂ h₂ => ?_
  refine agrees_bind (ih.arguments (by omega)) fun others c₃ h₃ => ?_
  exact agrees_done (by omega)

theorem parameters_agrees (fuel k : Nat) {c : Cursor} (hle : fuel ≤ k)
    (hfuel : c.remaining + 1 ≤ fuel) :
    Agrees (parameters fuel c) (parameters k c) (c.remaining + 1) := by
  induction fuel generalizing k c with
  | zero => omega
  | succ fuel ih =>
      obtain ⟨k, rfl⟩ : ∃ n, k = n + 1 := ⟨k - 1, by omega⟩
      rw [parameters, parameters, current_bind, current_bind]
      refine agrees_ite (fun hk => ?_)
        fun _ => agrees_done (Nat.lt_succ_self _)
      refine agrees_advance (eq_of_beq hk) (by decide) fun name c₁ h₁ => ?_
      rw [current_bind, current_bind]
      refine agrees_ite (fun hcomma => ?_) fun _ => agrees_done (by omega)
      refine agrees_advance (Token.kind_of_isOperator hcomma) (by decide)
        fun comma c₂ h₂ => ?_
      refine agrees_bind (ih k (by omega) (by omega)) fun others c₃ h₃ => ?_
      exact agrees_done (by omega)

theorem statement_agrees (ih : Stable fuel k)
    (hfuel : 4 * c.remaining + 3 ≤ fuel + 1) :
    Agrees (statement (fuel + 1) depth c) (statement (k + 1) depth c)
      c.remaining := by
  rw [statement, statement, current_bind, current_bind]
  refine agrees_ite (fun hdef => ?_) fun _ => ?_
  · refine agrees_advance (Token.kind_of_isKeyword hdef) (by decide)
      fun word c₁ h₁ => ?_
    exact (ih.function (by omega)).mono (by omega)
  refine agrees_ite (fun hk => ?_) fun _ => ih.expression (by omega)
  refine agrees_advance (eq_of_beq hk) (by decide) fun name c₁ h₁ => ?_
  rw [current_bind, current_bind]
  refine agrees_ite (fun hk₁ => ?_) fun _ => ?_
  · refine agrees_advance (eq_of_beq hk₁) (by decide) fun equals c₂ h₂ => ?_
    refine agrees_bind (ih.expression (by omega)) fun value c₃ h₃ => ?_
    exact agrees_done (by omega)
  · refine agrees_bind (ih.operand (by omega)) fun left c₂ h₂ => ?_
    exact (ih.tail (by omega)).mono (by omega)

/-- The parameters of a function, if it has any, and what comes behind. -/
theorem parameterList_agrees {next next' : List Json → Parse Node} {n : Nat}
    (hle : fuel ≤ k) (hfuel : 4 * c.remaining ≤ fuel)
    (hnext : ∀ params c', c'.remaining ≤ c.remaining →
      Agrees (next params c') (next' params c') n) :
    Agrees
      ((if c.current.kind == .leftParen then do
          let _ ← advance
          let params ← parameters fuel
          closingParen
          next params
        else next []) c)
      ((if c.current.kind == .leftParen then do
          let _ ← advance
          let params ← parameters k
          closingParen
          next' params
        else next' []) c) n := by
  refine agrees_ite (fun hk => ?_) fun _ => hnext [] c (Nat.le_refl _)
  refine agrees_advance (eq_of_beq hk) (by decide) fun opening c₁ h₁ => ?_
  refine agrees_bind (parameters_agrees fuel k hle (by omega))
    fun params c₂ h₂ => ?_
  refine agrees_bind (settles_closingParen c₂).agrees fun _ c₃ h₃ => ?_
  exact hnext params c₃ (by omega)

theorem function_agrees (ih : Stable fuel k) (hle : fuel ≤ k)
    (hfuel : 4 * c.remaining + 1 ≤ fuel + 1) :
    Agrees (function (fuel + 1) depth c) (function (k + 1) depth c)
      c.remaining := by
  rw [function, function, current_bind, current_bind]
  refine agrees_ite (fun hk => ?_) fun _ => agrees_failed _ _ _
  refine agrees_advance (eq_of_beq hk) (by decide) fun name c₁ h₁ => ?_
  rw [current_bind, current_bind]
  refine parameterList_agrees hle (by omega) fun params c₂ h₂ => ?_
  rw [Step.pure_bind, Step.pure_bind]
  cases depth with
  | zero => exact agrees_failed _ _ _
  | succ depth =>
      refine agrees_bind (ih.body (by omega)) fun statements c₃ h₃ => ?_
      exact agrees_done (by omega)

theorem body_agrees (ih : Stable fuel k)
    (hfuel : 4 * c.remaining + 4 ≤ fuel + 1) :
    Agrees (body (fuel + 1) depth c) (body (k + 1) depth c)
      c.remaining := by
  rw [body, body, current_bind, current_bind]
  refine agrees_ite (fun hend => ?_) fun _ => ?_
  · exact agrees_advance (Token.kind_of_isKeyword hend) (by decide)
      fun _ c₁ h₁ => agrees_done h₁
  refine agrees_ite (fun _ => agrees_failed _ _ _) fun _ => ?_
  refine agrees_bind (ih.statement (by omega)) fun first c₁ h₁ => ?_
  rw [current_bind, current_bind]
  refine agrees_ite (fun hsep => ?_) fun _ => ?_
  · refine agrees_advance (Token.kind_of_isOperator hsep) (by decide)
      fun separator c₂ h₂ => ?_
    refine agrees_bind (ih.body (by omega)) fun others c₃ h₃ => ?_
    exact agrees_done (by omega)
  · refine agrees_bind (ih.body (by omega)) fun others c₂ h₂ => ?_
    exact agrees_done (by omega)

end

theorem stable {fuel k : Nat} (hle : fuel ≤ k) : Stable fuel k := by
  induction fuel generalizing k with
  | zero => constructor <;> intros <;> omega
  | succ fuel ih =>
      obtain ⟨k, rfl⟩ : ∃ n, k = n + 1 := ⟨k - 1, by omega⟩
      have hle' : fuel ≤ k := by omega
      exact {
        statement := statement_agrees (ih hle')
        function := function_agrees (ih hle') hle'
        body := body_agrees (ih hle')
        expression := expression_agrees (ih hle')
        tail := tail_agrees (ih hle')
        term := term_agrees (ih hle')
        operand := operand_agrees (ih hle')
        arguments := arguments_agrees (ih hle') }

/-- A statement is parsed alike with any fuel that is enough. -/
theorem statement_of_fuel {fuel depth : Nat} {c : Cursor}
    (hfuel : 4 * c.remaining + 3 ≤ fuel) :
    Agrees (statement fuel depth c) (withFuel (statement · depth) c)
      c.remaining := by
  have henough := c.remaining_le_fuel
  change Agrees _ (statement c.fuel depth c) _
  rcases Nat.le_total fuel c.fuel with hle | hle
  · exact (stable hle).statement hfuel
  · obtain ⟨heq, hremaining⟩ : Agrees (statement c.fuel depth c)
        (statement fuel depth c) c.remaining :=
      (stable hle).statement (by omega)
    rw [heq] at hremaining
    exact ⟨heq.symm, hremaining⟩

end Parse

/-! ## Statement by statement -/

/-- Statements that were read one after the other, and the failure that put
an end to it, if there was one. -/
structure Reading where
  statements : List Node
  failure? : Option ParseFailure

namespace Reading

def cons (node : Node) (reading : Reading) : Reading :=
  ⟨node :: reading.statements, reading.failure?⟩

@[simp] theorem statements_cons (node : Node) (reading : Reading) :
    (reading.cons node).statements = node :: reading.statements := rfl

@[simp] theorem failure?_cons (node : Node) (reading : Reading) :
    (reading.cons node).failure? = reading.failure? := rfl

/-- The statements, if all of them could be read. -/
def result (reading : Reading) : Except ParseFailure (List Node) :=
  match reading.failure? with
  | none => .ok reading.statements
  | some e => .error e

theorem result_cons (node : Node) (reading : Reading) :
    (reading.cons node).result = reading.result.map (node :: ·) := by
  obtain ⟨statements, failure | failure⟩ := reading <;> rfl

/-- The statements from a cursor on, as the shell comes upon them. The
number bounds how many there are. -/
def fromCursor (limit : Nat) : Nat → Cursor → Reading
  | 0, _ => ⟨[], none⟩
  | count + 1, cursor =>
    match Parse.nextStatement limit cursor with
    | .failed e _ => ⟨[], some e⟩
    | .done none _ => ⟨[], none⟩
    | .done (some node) cursor => (fromCursor limit count cursor).cons node

def ofText (limit : Nat) (source : String) : Reading :=
  match Cursor.ofText source with
  | .error e => ⟨[], some (.error e)⟩
  | .ok cursor => fromCursor limit cursor.fuel cursor

end Reading

theorem Parse.result_bind_cons (parser : Parse (List Node)) (node : Node)
    (c : Cursor) :
    ((do
        let others ← parser
        return node :: others : Parse (List Node)) c).result =
      (parser c).result.map (node :: ·) := by
  rw [Step.bind_apply]
  cases parser c <;> rfl

/-- From a cursor on, parsing at once and statement by statement comes to
the same. -/
theorem Reading.result_fromCursor {limit fuel count : Nat} {c : Cursor}
    (hfuel : 4 * c.remaining + 4 ≤ fuel) (hcount : c.remaining + 1 ≤ count) :
    (Parse.statements fuel limit c).result =
      (fromCursor limit count c).result := by
  induction fuel generalizing count c with
  | zero => omega
  | succ fuel ih =>
      obtain ⟨count, rfl⟩ : ∃ n, count = n + 1 := ⟨count - 1, by omega⟩
      have hskip := Parse.settles_skipSeparators c
      unfold fromCursor Parse.nextStatement
      rw [Parse.statements, Step.bind_apply, Step.bind_apply]
      cases hc : Parse.skipSeparators c with
      | failed e c₁ => rfl
      | done _ c₁ =>
          rw [hc] at hskip
          have hremaining : c₁.remaining < c.remaining + 1 := hskip
          dsimp only
          rw [Step.bind_apply, Step.bind_apply, Step.get_apply]
          dsimp only
          by_cases hend : c₁.atEnd = true
          · rw [if_pos hend, if_pos hend]
            rfl
          · rw [if_neg hend, if_neg hend, Step.bind_apply, Step.bind_apply]
            obtain ⟨heq, hbound⟩ : Parse.Agrees
                (Parse.statement fuel limit c₁)
                (Parse.withFuel (Parse.statement · limit) c₁) c₁.remaining :=
              Parse.statement_of_fuel (by omega)
            rw [← heq]
            cases hfirst : Parse.statement fuel limit c₁ with
            | failed e c₂ => rfl
            | done node c₂ =>
                rw [hfirst] at hbound
                have hless : c₂.remaining < c₁.remaining := hbound
                have hcount₂ : c₂.remaining + 1 ≤ count := by omega
                dsimp only
                rw [Parse.result_bind_cons, ih (by omega) hcount₂]
                exact (result_cons node _).symm

/-- A text is parsed as it is read statement by statement. -/
theorem parseProgram_eq_reading (limit : Nat) (source : String) :
    parseProgram limit source = (Reading.ofText limit source).result := by
  unfold parseProgram Reading.ofText
  cases Cursor.ofText source with
  | error e => rfl
  | ok c =>
      have hfuel := c.remaining_le_fuel
      exact Reading.result_fromCursor hfuel (by omega)

end Scriptlet
