import Scriptlet.Parser.Statement

/-!
# The grammar as a derivation relation

What a row of tokens derives, without cursor, fuel or nesting bound:

    program    := {";"} {statement {";"}} EOF
    statement  := "def" definition | identifier "=" expression | expression
    definition := identifier [parameters] {statement [";"]} "end"
    parameters := "(" {identifier ","} [identifier] ")"
    expression := term {("+" | "-" | "*" | "/") term}
    term       := number | identifier [arguments] | "(" expression ")"
    arguments  := "(" [expression {"," expression}] ")"

Each relation `R ts a rest` says that `ts` starts with tokens that derive
the tree `a`, behind which `rest` follows. Optional and repeated parts are
greedy: leaving one out is allowed only if the next token does not start
it (`NextIs`), so a relation may look at one token of `rest` but never
takes it. Operators fold to the left and parentheses leave no trace.

The first-token lemmas at the end are what the parser's single token of
lookahead relies on.
-/

namespace Scriptlet.Grammar

/-- There is a next token, and it is of class `p`. -/
def NextIs (p : Token → Prop) : List Token → Prop
  | [] => False
  | t :: _ => p t

theorem NextIs.ne_nil {p : Token → Prop} {ts : List Token}
    (h : NextIs p ts) : ts ≠ [] := by
  rintro rfl
  exact h

/-! ## Expressions -/

mutual

inductive Expression : List Token → Node → List Token → Prop
  | intro {ts mid rest : List Token} {left e : Node} :
      Term ts left mid → Tail left mid e rest → Expression ts e rest

/-- `Tail left ts e rest`: operators and terms follow the expression
`left` and make it `e`. -/
inductive Tail : Node → List Token → Node → List Token → Prop
  | stop {left : Node} {ts : List Token} :
      NextIs (fun t => isArithmetic t = false) ts → Tail left ts left ts
  | operator {left right e : Node} {op : Token} {ts mid rest : List Token} :
      isArithmetic op = true → Term ts right mid →
      Tail (.binary (.text op.lexeme) left right) mid e rest →
      Tail left (op :: ts) e rest

inductive Term : List Token → Node → List Token → Prop
  | number {t : Token} {rest : List Token} :
      t.kind = .number → Term (t :: rest) (.number (.text t.lexeme)) rest
  | name {t : Token} {rest : List Token} :
      t.kind = .identifier → NextIs (fun next => next.kind ≠ .leftParen) rest →
      Term (t :: rest) (.identifier (.text t.lexeme)) rest
  | call {t opening : Token} {ts rest : List Token} {args : List Node} :
      t.kind = .identifier → opening.kind = .leftParen →
      Arguments ts args rest →
      Term (t :: opening :: ts)
        (.call (.identifier (.text t.lexeme)) args) rest
  | parens {opening closing : Token} {ts rest : List Token} {e : Node} :
      opening.kind = .leftParen → Expression ts e (closing :: rest) →
      closing.kind = .rightParen → Term (opening :: ts) e rest

/-- The arguments of a call behind the opening parenthesis, with the
closing one. -/
inductive Arguments : List Token → List Node → List Token → Prop
  | none {closing : Token} {rest : List Token} :
      closing.kind = .rightParen → Arguments (closing :: rest) [] rest
  | some {closing : Token} {ts rest : List Token} {args : List Node} :
      ArgumentRow ts args (closing :: rest) → closing.kind = .rightParen →
      Arguments ts args rest

/-- One or more expressions with commas between them. -/
inductive ArgumentRow : List Token → List Node → List Token → Prop
  | last {ts rest : List Token} {e : Node} :
      Expression ts e rest → NextIs (fun t => t.isOperator "," = false) rest →
      ArgumentRow ts [e] rest
  | comma {comma : Token} {ts mid rest : List Token} {first : Node}
      {others : List Node} :
      Expression ts first (comma :: mid) → comma.isOperator "," = true →
      ArgumentRow mid others rest → ArgumentRow ts (first :: others) rest

end

/-! ## Statements -/

/-- The parameters between the parentheses. A comma may follow the last
one. -/
inductive ParameterRow : List Token → List Json → List Token → Prop
  | none {ts : List Token} :
      NextIs (fun t => t.kind ≠ .identifier) ts → ParameterRow ts [] ts
  | last {t : Token} {rest : List Token} :
      t.kind = .identifier →
      NextIs (fun next => next.isOperator "," = false) rest →
      ParameterRow (t :: rest) [.text t.lexeme] rest
  | comma {t comma : Token} {ts rest : List Token} {others : List Json} :
      t.kind = .identifier → comma.isOperator "," = true →
      ParameterRow ts others rest →
      ParameterRow (t :: comma :: ts) (.text t.lexeme :: others) rest

inductive ParameterList : List Token → List Json → List Token → Prop
  | absent {ts : List Token} :
      NextIs (fun t => t.kind ≠ .leftParen) ts → ParameterList ts [] ts
  | present {opening closing : Token} {ts rest : List Token}
      {params : List Json} :
      opening.kind = .leftParen → ParameterRow ts params (closing :: rest) →
      closing.kind = .rightParen → ParameterList (opening :: ts) params rest

inductive OptionalSeparator : List Token → List Token → Prop
  | absent {ts : List Token} :
      NextIs (fun t => t.isOperator ";" = false) ts → OptionalSeparator ts ts
  | present {t : Token} {rest : List Token} :
      t.isOperator ";" = true → OptionalSeparator (t :: rest) rest

mutual

inductive Statement : List Token → Node → List Token → Prop
  | define {t : Token} {ts rest : List Token} {node : Node} :
      t.isKeyword "def" = true → Definition ts node rest →
      Statement (t :: ts) node rest
  | assign {t equals : Token} {ts rest : List Token} {value : Node} :
      t.kind = .identifier → equals.kind = .assign →
      Expression ts value rest →
      Statement (t :: equals :: ts) (.assign (.text t.lexeme) value) rest
  | expression {ts rest : List Token} {e : Node} :
      Expression ts e rest → Statement ts e rest

/-- A function from its name on. -/
inductive Definition : List Token → Node → List Token → Prop
  | intro {t : Token} {ts mid rest : List Token} {params : List Json}
      {statements : List Node} :
      t.kind = .identifier → ParameterList ts params mid →
      Body mid statements rest →
      Definition (t :: ts) (.define (.text t.lexeme) params statements) rest

/-- The statements of a function and the word `end`. -/
inductive Body : List Token → List Node → List Token → Prop
  | close {t : Token} {rest : List Token} :
      t.isKeyword "end" = true → Body (t :: rest) [] rest
  | statement {ts mid next rest : List Token} {first : Node}
      {others : List Node} :
      Statement ts first mid → OptionalSeparator mid next →
      Body next others rest → Body ts (first :: others) rest

end

/-! ## Programs -/

inductive Separators : List Token → List Token → Prop
  | stop {ts : List Token} :
      NextIs (fun t => t.isOperator ";" = false) ts → Separators ts ts
  | semicolon {t : Token} {ts rest : List Token} :
      t.isOperator ";" = true → Separators ts rest → Separators (t :: ts) rest

/-- Statements, each with its separators, up to the end of the input. -/
inductive Statements : List Token → List Node → Prop
  | done {t : Token} : t.kind = .endOfInput → Statements [t] []
  | statement {ts mid next : List Token} {first : Node}
      {others : List Node} :
      Statement ts first mid → Separators mid next → Statements next others →
      Statements ts (first :: others)

/-- A whole program: its tokens, the end of the input included, and its
statements. -/
inductive Program : List Token → List Node → Prop
  | intro {ts next : List Token} {statements : List Node} :
      Separators ts next → Statements next statements → Program ts statements

/-! ## First tokens -/

def StartsTerm (t : Token) : Prop :=
  t.kind = .number ∨ t.kind = .identifier ∨ t.kind = .leftParen

def StartsStatement (t : Token) : Prop :=
  t.isKeyword "def" = true ∨ StartsTerm t

theorem Term.first {ts rest : List Token} {e : Node} :
    Term ts e rest → NextIs StartsTerm ts
  | .number h => Or.inl h
  | .name h _ => Or.inr (Or.inl h)
  | .call h _ _ => Or.inr (Or.inl h)
  | .parens h _ _ => Or.inr (Or.inr h)

theorem Expression.first {ts rest : List Token} {e : Node} :
    Expression ts e rest → NextIs StartsTerm ts
  | .intro h _ => h.first

theorem NextIs.imp {p q : Token → Prop} (hpq : ∀ t, p t → q t) :
    ∀ {ts : List Token}, NextIs p ts → NextIs q ts
  | [], h => h
  | t :: _, h => hpq t h

theorem Statement.first {ts rest : List Token} {node : Node} :
    Statement ts node rest → NextIs StartsStatement ts
  | .define h _ => Or.inl h
  | .assign h _ _ => Or.inr (Or.inr (Or.inl h))
  | .expression h => h.first.imp fun _ => Or.inr

theorem Tail.ne_nil {left e : Node} {ts rest : List Token} :
    Tail left ts e rest → ts ≠ []
  | .stop h => h.ne_nil
  | .operator .. => List.cons_ne_nil _ _

theorem ArgumentRow.first {ts rest : List Token} {args : List Node} :
    ArgumentRow ts args rest → NextIs StartsTerm ts
  | .last h _ => h.first
  | .comma h _ _ => h.first

theorem ParameterRow.ne_nil {ts rest : List Token} {params : List Json} :
    ParameterRow ts params rest → ts ≠ []
  | .none h => h.ne_nil
  | .last .. => List.cons_ne_nil _ _
  | .comma .. => List.cons_ne_nil _ _

theorem Definition.ne_nil {ts rest : List Token} {node : Node} :
    Definition ts node rest → ts ≠ []
  | .intro .. => List.cons_ne_nil _ _

theorem Body.ne_nil {ts rest : List Token} {statements : List Node} :
    Body ts statements rest → ts ≠ []
  | .close _ => List.cons_ne_nil _ _
  | .statement h _ _ => h.first.ne_nil

theorem Separators.ne_nil {ts rest : List Token} :
    Separators ts rest → ts ≠ []
  | .stop h => h.ne_nil
  | .semicolon .. => List.cons_ne_nil _ _

theorem StartsStatement.not_end {t : Token} (h : StartsStatement t) :
    ¬ t.isKeyword "end" = true := by
  intro hend
  simp only [Token.isKeyword, Bool.and_eq_true, beq_iff_eq] at hend
  simp [StartsStatement, StartsTerm, Token.isKeyword, hend] at h

theorem StartsStatement.not_endOfInput {t : Token} (h : StartsStatement t) :
    ¬ (t.kind == .endOfInput) = true := by
  intro hend
  simp [StartsStatement, StartsTerm, Token.isKeyword, eq_of_beq hend] at h

/-- No statement starts with an equals sign. -/
theorem StartsStatement.kind_ne_assign {t : Token} (h : StartsStatement t) :
    t.kind ≠ .assign := by
  intro ht
  simp [StartsStatement, StartsTerm, Token.isKeyword, ht] at h

theorem Statement.next_ne_assign {ts rest : List Token} {node : Node}
    (h : Statement ts node rest) : NextIs (fun t => t.kind ≠ .assign) ts :=
  h.first.imp fun _ => StartsStatement.kind_ne_assign

/-- What follows a statement of a body does not start with an equals
sign, so a statement that starts with an identifier and an equals sign can
only be an assignment. -/
theorem Body.next_ne_assign {mid next rest : List Token}
    {others : List Node} (hs : OptionalSeparator mid next)
    (hb : Body next others rest) : NextIs (fun t => t.kind ≠ .assign) mid := by
  cases hs with
  | present h =>
      intro ht
      simp [Token.isOperator, ht] at h
  | absent _ =>
      cases hb with
      | close h =>
          intro ht
          simp [Token.isKeyword, ht] at h
      | statement hs _ _ => exact hs.next_ne_assign

/-- The same for the statements of a program. -/
theorem Statements.next_ne_assign {mid next : List Token}
    {others : List Node} (hs : Separators mid next)
    (hn : Statements next others) : NextIs (fun t => t.kind ≠ .assign) mid := by
  cases hs with
  | semicolon h _ =>
      intro ht
      simp [Token.isOperator, ht] at h
  | stop _ =>
      cases hn with
      | done h =>
          intro ht
          rw [h] at ht
          cases ht
      | statement hs _ _ => exact hs.next_ne_assign

end Scriptlet.Grammar
