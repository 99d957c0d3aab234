import Scriptlet.Proofs.Contract
import Scriptlet.Proofs.Reading

/-!
# The parser's bounds suffice

A parsing function gives up only when it runs out of fuel or out of depth.
Both are bounded by the tokens that are left (`Cursor.remaining`): each
function needs four units of fuel per token and a few more, because on
every way around through the functions that call each other a token is
consumed, and a level of nesting costs at least the token that opens it.
So parsing a text with the fuel of its first cursor, and with a depth of at
least its number of tokens, never gives up (`statements_settles`).

The induction is on the fuel and carries both facts at once: that a
function does not give up, and that it leaves fewer tokens than it found.
-/

namespace Scriptlet

/-- The number of tokens in front of the end, from the current one on. -/
def Cursor.remaining (c : Cursor) : Nat :=
  if c.atEnd then 0 else c.pending.length + 1

theorem Cursor.remaining_of_ne {c : Cursor}
    (h : c.current.kind ≠ .endOfInput) :
    c.remaining = c.pending.length + 1 := by
  have hatEnd : ¬ c.atEnd = true := fun hend => h (eq_of_beq hend)
  rw [remaining, if_neg hatEnd]

/-- The fuel of a cursor is what its remaining tokens need. -/
theorem Cursor.remaining_le_fuel (c : Cursor) :
    4 * c.remaining + 4 ≤ c.fuel := by
  unfold remaining fuel
  split <;> omega

namespace Parse

variable {α β : Type}

/-- The parser did not give up, and if it returned something then fewer
than `bound` tokens remain. -/
def Settles (o : Outcome ParseFailure Cursor α) (bound : Nat) : Prop :=
  o.Ensures (fun _ c' => c'.remaining < bound) fun e _ => e ≠ .tooDeep

theorem Settles.mono {o : Outcome ParseFailure Cursor α} {m n : Nat}
    (h : Settles o m) (hmn : m ≤ n) : Settles o n :=
  h.imp (fun _ _ h' => Nat.lt_of_lt_of_le h' hmn) fun _ _ h' => h'

theorem settles_bind {p : Parse α} {next : α → Parse β} {c : Cursor}
    {m n : Nat} (h : Settles (p c) m)
    (hnext : ∀ a c', c'.remaining < m → Settles (next a c') n) :
    Settles ((p >>= next) c) n :=
  Step.ensures_bind h hnext

theorem settles_failWith (e : ParseError) (c : Cursor) (n : Nat) :
    Settles ((failWith e : Parse α) c) n := by
  intro h
  cases h

theorem settles_advance {c : Cursor} {kind : TokenKind}
    (hc : c.current.kind = kind) (hkind : kind ≠ .endOfInput) :
    Settles (advance c) c.remaining := by
  have hremaining := Cursor.remaining_of_ne (hc ▸ hkind)
  obtain ⟨t, pending⟩ := c
  unfold advance
  cases pending with
  | token head rest =>
      change Cursor.remaining ⟨head, rest⟩ < _
      rw [hremaining]
      unfold Cursor.remaining
      simp only [Stream.length]
      split <;> omega
  | finish position =>
      change Cursor.remaining ⟨Token.atEnd position, .finish position⟩ < _
      rw [hremaining]
      exact Nat.succ_pos _
  | broken e =>
      intro h
      cases h

theorem settles_closingParen (c : Cursor) :
    Settles (closingParen c) c.remaining := by
  rw [closingParen, current_bind]
  split
  · rename_i hk
    exact settles_bind (settles_advance (eq_of_beq hk) (by decide))
      fun _ _ h => h
  · exact settles_failWith _ _ _

/-! ## One unit of fuel -/

/-- What `fuel` is enough for. -/
structure Progress (fuel : Nat) : Prop where
  statement : ∀ {depth : Nat} {c : Cursor}, 4 * c.remaining + 3 ≤ fuel →
    c.remaining ≤ depth → Settles (statement fuel depth c) c.remaining
  function : ∀ {depth : Nat} {c : Cursor}, 4 * c.remaining + 1 ≤ fuel →
    c.remaining ≤ depth → Settles (function fuel depth c) c.remaining
  body : ∀ {depth : Nat} {c : Cursor}, 4 * c.remaining + 4 ≤ fuel →
    c.remaining ≤ depth → Settles (body fuel depth c) c.remaining
  expression : ∀ {depth : Nat} {c : Cursor}, 4 * c.remaining + 2 ≤ fuel →
    c.remaining ≤ depth → Settles (expression fuel depth c) c.remaining
  tail : ∀ {depth : Nat} {left : Node} {c : Cursor},
    4 * c.remaining + 1 ≤ fuel → c.remaining ≤ depth →
    Settles (tail fuel depth left c) (c.remaining + 1)
  term : ∀ {depth : Nat} {c : Cursor}, 4 * c.remaining + 1 ≤ fuel →
    c.remaining ≤ depth → Settles (term fuel depth c) c.remaining
  operand : ∀ {depth : Nat} {name : Token} {c : Cursor},
    4 * c.remaining + 1 ≤ fuel → c.remaining ≤ depth →
    Settles (operand fuel depth name c) (c.remaining + 1)
  arguments : ∀ {depth : Nat} {c : Cursor}, 4 * c.remaining + 3 ≤ fuel →
    c.remaining ≤ depth → Settles (arguments fuel depth c) c.remaining

theorem expression_settles {fuel : Nat} (ih : Progress fuel) {depth : Nat}
    {c : Cursor} (hfuel : 4 * c.remaining + 2 ≤ fuel + 1)
    (hdepth : c.remaining ≤ depth) :
    Settles (expression (fuel + 1) depth c) c.remaining := by
  rw [expression]
  refine settles_bind (ih.term (by omega) hdepth) fun left c₁ h₁ => ?_
  exact (ih.tail (by omega) (by omega)).mono (by omega)

theorem tail_settles {fuel : Nat} (ih : Progress fuel) {depth : Nat}
    {left : Node} {c : Cursor} (hfuel : 4 * c.remaining + 1 ≤ fuel + 1)
    (hdepth : c.remaining ≤ depth) :
    Settles (tail (fuel + 1) depth left c) (c.remaining + 1) := by
  rw [tail, current_bind]
  split
  · rename_i hop
    refine settles_bind
      (settles_advance (Token.kind_of_isArithmetic hop) (by decide))
      fun op c₁ h₁ => ?_
    refine settles_bind (ih.term (by omega) (by omega)) fun right c₂ h₂ => ?_
    exact (ih.tail (by omega) (by omega)).mono (by omega)
  · exact Nat.lt_succ_self _

theorem term_settles {fuel : Nat} (ih : Progress fuel) {depth : Nat}
    {c : Cursor} (hfuel : 4 * c.remaining + 1 ≤ fuel + 1)
    (hdepth : c.remaining ≤ depth) :
    Settles (term (fuel + 1) depth c) c.remaining := by
  rw [term.eq_def]
  dsimp only
  rw [current_bind]
  split
  · rename_i hk
    exact settles_bind (settles_advance (eq_of_beq hk) (by decide))
      fun _ _ h₁ => h₁
  · split
    · rename_i hk
      refine settles_bind (settles_advance (eq_of_beq hk) (by decide))
        fun name c₁ h₁ => ?_
      exact (ih.operand (by omega) (by omega)).mono (by omega)
    · split
      · rename_i hk
        refine settles_bind (settles_advance (eq_of_beq hk) (by decide))
          fun opening c₁ h₁ => ?_
        cases depth with
        | zero => omega
        | succ depth =>
            refine settles_bind (ih.expression (by omega) (by omega))
              fun inner c₂ h₂ => ?_
            refine settles_bind (settles_closingParen c₂) fun _ c₃ h₃ => ?_
            exact Nat.lt_trans h₃ (by omega)
      · exact settles_failWith _ _ _

theorem operand_settles {fuel : Nat} (ih : Progress fuel) {depth : Nat}
    {name : Token} {c : Cursor} (hfuel : 4 * c.remaining + 1 ≤ fuel + 1)
    (hdepth : c.remaining ≤ depth) :
    Settles (operand (fuel + 1) depth name c) (c.remaining + 1) := by
  rw [operand.eq_def]
  dsimp only
  rw [current_bind]
  split
  · rename_i hk
    refine settles_bind (settles_advance (eq_of_beq hk) (by decide))
      fun opening c₁ h₁ => ?_
    rw [current_bind]
    split
    · refine settles_bind (settles_closingParen c₁) fun _ c₂ h₂ => ?_
      exact Nat.lt_trans h₂ (by omega)
    · cases depth with
      | zero => omega
      | succ depth =>
          refine settles_bind (ih.arguments (by omega) (by omega))
            fun args c₂ h₂ => ?_
          refine settles_bind (settles_closingParen c₂) fun _ c₃ h₃ => ?_
          exact Nat.lt_trans h₃ (by omega)
  · exact Nat.lt_succ_self _

theorem arguments_settles {fuel : Nat} (ih : Progress fuel) {depth : Nat}
    {c : Cursor} (hfuel : 4 * c.remaining + 3 ≤ fuel + 1)
    (hdepth : c.remaining ≤ depth) :
    Settles (arguments (fuel + 1) depth c) c.remaining := by
  rw [arguments]
  refine settles_bind (ih.expression (by omega) hdepth) fun first c₁ h₁ => ?_
  rw [current_bind]
  split
  · rename_i hcomma
    refine settles_bind
      (settles_advance (Token.kind_of_isOperator hcomma) (by decide))
      fun comma c₂ h₂ => ?_
    refine settles_bind (ih.arguments (by omega) (by omega))
      fun others c₃ h₃ => ?_
    exact Nat.lt_trans h₃ (by omega)
  · exact h₁

/-- The parameters take nothing but fuel, a unit for every two tokens. -/
theorem parameters_settles (fuel : Nat) {c : Cursor}
    (hfuel : c.remaining + 1 ≤ fuel) :
    Settles (parameters fuel c) (c.remaining + 1) := by
  induction fuel generalizing c with
  | zero => omega
  | succ fuel ih =>
      rw [parameters, current_bind]
      split
      · rename_i hk
        refine settles_bind (settles_advance (eq_of_beq hk) (by decide))
          fun name c₁ h₁ => ?_
        rw [current_bind]
        split
        · rename_i hcomma
          refine settles_bind
            (settles_advance (Token.kind_of_isOperator hcomma) (by decide))
            fun comma c₂ h₂ => ?_
          refine settles_bind (ih (by omega)) fun others c₃ h₃ => ?_
          exact Nat.lt_trans h₃ (by omega)
        · exact Nat.lt_succ_of_lt h₁
      · exact Nat.lt_succ_self _

theorem statement_settles {fuel : Nat} (ih : Progress fuel) {depth : Nat}
    {c : Cursor} (hfuel : 4 * c.remaining + 3 ≤ fuel + 1)
    (hdepth : c.remaining ≤ depth) :
    Settles (statement (fuel + 1) depth c) c.remaining := by
  rw [statement, current_bind]
  split
  · rename_i hdef
    refine settles_bind
      (settles_advance (Token.kind_of_isKeyword hdef) (by decide))
      fun word c₁ h₁ => ?_
    exact (ih.function (by omega) (by omega)).mono (by omega)
  · split
    · rename_i hk
      refine settles_bind (settles_advance (eq_of_beq hk) (by decide))
        fun name c₁ h₁ => ?_
      rw [current_bind]
      split
      · rename_i hk₁
        refine settles_bind (settles_advance (eq_of_beq hk₁) (by decide))
          fun equals c₂ h₂ => ?_
        refine settles_bind (ih.expression (by omega) (by omega))
          fun value c₃ h₃ => ?_
        exact Nat.lt_trans h₃ (by omega)
      · refine settles_bind (ih.operand (by omega) (by omega))
          fun left c₂ h₂ => ?_
        exact (ih.tail (by omega) (by omega)).mono (by omega)
    · exact ih.expression (by omega) hdepth

theorem function_settles {fuel : Nat} (ih : Progress fuel) {depth : Nat}
    {c : Cursor} (hfuel : 4 * c.remaining + 1 ≤ fuel + 1)
    (hdepth : c.remaining ≤ depth) :
    Settles (function (fuel + 1) depth c) c.remaining := by
  rw [function, current_bind]
  split
  · rename_i hk
    refine settles_bind (settles_advance (eq_of_beq hk) (by decide))
      fun name c₁ h₁ => ?_
    -- the name was a token, so there is a level of nesting left
    obtain ⟨depth, rfl⟩ : ∃ d, depth = d + 1 := ⟨depth - 1, by omega⟩
    have hbody : ∀ (params : List Json) (c₂ : Cursor),
        c₂.remaining ≤ c₁.remaining →
        Settles ((do
          let statements ← body fuel depth
          return .define (.text c.current.lexeme) params statements :
            Parse Node) c₂) c.remaining := by
      intro params c₂ h₂
      refine settles_bind (ih.body (by omega) (by omega))
        fun statements c₃ h₃ => ?_
      exact Nat.lt_trans h₃ (by omega)
    rw [current_bind]
    dsimp only
    split
    · rename_i hk₁
      refine settles_bind (settles_advance (eq_of_beq hk₁) (by decide))
        fun opening c₂ h₂ => ?_
      refine settles_bind (parameters_settles fuel (by omega))
        fun params c₃ h₃ => ?_
      refine settles_bind (settles_closingParen c₃) fun _ c₄ h₄ => ?_
      exact hbody params c₄ (by omega)
    · exact hbody [] c₁ (Nat.le_refl _)
  · exact settles_failWith _ _ _

theorem body_settles {fuel : Nat} (ih : Progress fuel) {depth : Nat}
    {c : Cursor} (hfuel : 4 * c.remaining + 4 ≤ fuel + 1)
    (hdepth : c.remaining ≤ depth) :
    Settles (body (fuel + 1) depth c) c.remaining := by
  rw [body, current_bind]
  split
  · rename_i hend
    exact settles_bind
      (settles_advance (Token.kind_of_isKeyword hend) (by decide))
      fun _ _ h₁ => h₁
  · split
    · exact settles_failWith _ _ _
    · refine settles_bind (ih.statement (by omega) hdepth)
        fun first c₁ h₁ => ?_
      have hothers : ∀ c₂ : Cursor, c₂.remaining ≤ c₁.remaining →
          Settles ((do
            let others ← body fuel depth
            return first :: others : Parse (List Node)) c₂) c.remaining := by
        intro c₂ h₂
        refine settles_bind (ih.body (by omega) (by omega))
          fun others c₃ h₃ => ?_
        exact Nat.lt_trans h₃ (by omega)
      rw [current_bind]
      dsimp only
      split
      · rename_i hsep
        refine settles_bind
          (settles_advance (Token.kind_of_isOperator hsep) (by decide))
          fun separator c₂ h₂ => ?_
        exact hothers c₂ (by omega)
      · exact hothers c₁ (Nat.le_refl _)

theorem progress (fuel : Nat) : Progress fuel := by
  induction fuel with
  | zero => constructor <;> intros <;> omega
  | succ fuel ih =>
      exact {
        statement := statement_settles ih
        function := function_settles ih
        body := body_settles ih
        expression := expression_settles ih
        tail := tail_settles ih
        term := term_settles ih
        operand := operand_settles ih
        arguments := arguments_settles ih }

/-! ## Programs -/

theorem settles_skipSeparators (c : Cursor) :
    Settles (skipSeparators c) (c.remaining + 1) := by
  obtain ⟨current, pending⟩ := c
  change Settles (skipSeparatorsFrom current pending) _
  fun_induction skipSeparatorsFrom current pending with
  | case1 current hsep head rest ih =>
      refine ih.mono ?_
      have hkind := Token.kind_of_isOperator hsep
      rw [Cursor.remaining_of_ne (c := ⟨current, .token head rest⟩)
        (by rw [hkind]; decide)]
      unfold Cursor.remaining
      simp only [Stream.length]
      split <;> omega
  | case2 current hsep position => exact Nat.succ_pos _
  | case3 current hsep e =>
      intro h
      cases h
  | case4 current pending hsep => exact Nat.lt_succ_self _

/-- A program is parsed to its end or to a syntax error. -/
theorem statements_settles (fuel : Nat) {depth : Nat} {c : Cursor}
    (hfuel : 4 * c.remaining + 4 ≤ fuel) (hdepth : c.remaining ≤ depth) :
    Settles (statements fuel depth c) (c.remaining + 1) := by
  induction fuel generalizing c with
  | zero => omega
  | succ fuel ih =>
      rw [statements]
      refine settles_bind (settles_skipSeparators c) fun _ c₁ h₁ => ?_
      change Settles ((if c₁.atEnd then _ else _ : Parse (List Node)) c₁) _
      split
      · exact h₁
      · refine settles_bind
          ((progress fuel).statement (by omega) (by omega))
          fun first c₂ h₂ => ?_
        refine settles_bind (ih (by omega) (by omega)) fun others c₃ h₃ => ?_
        exact Nat.lt_trans h₃ (by omega)

end Parse

end Scriptlet
