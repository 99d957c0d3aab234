import Scriptlet.Proofs.Spelling

/-!
# Which trees are parsed from a text

`WellFormed` says that the parser builds well-formed statements only. Here
is the converse: every list of well-formed statements is what some text is
parsed to, so that these are exactly the trees that texts have
(`parsed_iff_isStatement`).

The text is written from the trees (`Node.written`). Two things keep the
greedy grammar from reading more than was written. A right operand that has
an operator of its own stands in parentheses, whereas a left one does not,
because operators fold to the left anyway. And a semicolon follows every
statement, so that no parenthesis of the next one can be taken for an
argument list.
-/

namespace Scriptlet

open Grammar

/-! ## Tokens of a tree -/

/-- The spelling of a name, a numeral or an operator. -/
def Json.spelled : Json → String
  | .text s => s
  | _ => ""

def Json.nameToken (name : Json) : Token := ⟨.identifier, name.spelled, 0⟩

/-- The tokens of an expression as an operand, in parentheses if it has an
operator. -/
def Node.wrapped (tokens : List Token) : Node → List Token
  | .binary .. => openingSign :: (tokens ++ [closingSign])
  | _ => tokens

def writtenParams : List Json → List Token
  | [] => []
  | [param] => [param.nameToken]
  | param :: others => param.nameToken :: commaSign :: writtenParams others

namespace Node

mutual

/-- The tokens that a tree is written with. -/
def written : Node → List Token
  | .number text => [⟨.number, text.spelled, 0⟩]
  | .identifier name => [name.nameToken]
  | .binary operator left right =>
    left.written ++ ⟨.operator, operator.spelled, 0⟩ ::
      right.wrapped right.written
  | .call callee args =>
    callee.written ++ openingSign :: (writtenArgs args ++ [closingSign])
  | .assign name value => name.nameToken :: equalsSign :: value.written
  | .define name params body =>
    defWord :: name.nameToken :: openingSign ::
      (writtenParams params ++ closingSign ::
        (writtenStatements body ++ [endWord]))
  | .sequence items => writtenStatements items

def writtenArgs : List Node → List Token
  | [] => []
  | [arg] => arg.written
  | arg :: others => arg.written ++ commaSign :: writtenArgs others

/-- Statements, each with a semicolon behind it. -/
def writtenStatements : List Node → List Token
  | [] => []
  | statement :: others =>
    statement.written ++ semicolonSign :: writtenStatements others

end

end Node

/-! ## Expressions -/

/-- No argument list follows. -/
abbrev NoOpening (ts : List Token) : Prop :=
  NextIs (fun t => t.kind ≠ .leftParen) ts

/-- How the tokens of an expression can be read: on their own or with more
operators behind them, and as an operand. -/
structure Readable (e : Node) : Prop where
  expression : ∀ {rest rest' : List Token} {e' : Node}, NoOpening rest →
    Tail e rest e' rest' → Expression (e.written ++ rest) e' rest'
  operand : ∀ {rest : List Token}, NoOpening rest →
    Term (e.wrapped e.written ++ rest) e rest

theorem isArithmetic_of_mem {operator : String}
    (h : operator ∈ arithmeticOperators) :
    isArithmetic ⟨.operator, operator, 0⟩ = true := by
  simpa [isArithmetic, arithmeticOperators] using h

/-- An expression in front of a token that ends it. -/
theorem Readable.closed {e : Node} (h : Readable e) {t : Token}
    {rest : List Token} (hopen : t.kind ≠ .leftParen)
    (hop : isArithmetic t = false) :
    Expression (e.written ++ t :: rest) e (t :: rest) :=
  h.expression hopen (.stop hop)

/-- A tree that needs no parentheses is read as it is. -/
theorem Readable.of_term {e : Node} (hwrapped : e.wrapped e.written = e.written)
    (h : ∀ {rest : List Token}, NoOpening rest →
      Term (e.written ++ rest) e rest) : Readable e where
  expression := fun hrest htail => .intro (h hrest) htail
  operand := fun hrest => by
    rw [hwrapped]
    exact h hrest

theorem Readable.binary {operator : String} {left right : Node}
    (hop : operator ∈ arithmeticOperators) (hleft : Readable left)
    (hright : Readable right) :
    Readable (.binary (.text operator) left right) := by
  have hexpression : ∀ {rest rest' : List Token} {e' : Node},
      NoOpening rest →
      Tail (.binary (.text operator) left right) rest e' rest' →
      Expression ((Node.binary (.text operator) left right).written ++ rest)
        e' rest' := by
    intro rest rest' e' hrest htail
    have hnext : NoOpening (⟨.operator, operator, 0⟩ ::
        (right.wrapped right.written ++ rest)) := fun h => by cases h
    rw [Node.written, List.append_assoc]
    exact hleft.expression hnext
      (.operator (isArithmetic_of_mem hop) (hright.operand hrest) htail)
  refine ⟨hexpression, fun {rest} _ => ?_⟩
  simp only [Node.wrapped, List.cons_append, List.append_assoc]
  exact .parens rfl (hexpression (fun h => by cases h) (.stop rfl)) rfl

/-- Arguments are read up to the closing parenthesis. -/
theorem argumentRow_written {arg : Node} {others : List Node}
    (h : ∀ e ∈ arg :: others, Readable e) (rest : List Token) :
    ArgumentRow (Node.writtenArgs (arg :: others) ++ closingSign :: rest)
      (arg :: others) (closingSign :: rest) := by
  induction others generalizing arg with
  | nil =>
      have harg := h arg List.mem_cons_self
      rw [Node.writtenArgs]
      exact .last (harg.closed (fun h => by cases h) rfl) rfl
  | cons next others ih =>
      obtain ⟨harg, hothers⟩ := List.forall_mem_cons.mp h
      rw [Node.writtenArgs, List.append_assoc]
      · exact .comma (harg.closed (fun h => by cases h) rfl) rfl (ih hothers)
      · exact List.cons_ne_nil _ _

theorem Readable.call {name : String} {args : List Node}
    (h : ∀ arg ∈ args, Readable arg) :
    Readable (.call (.identifier (.text name)) args) := by
  refine .of_term rfl fun {rest} _ => ?_
  rw [Node.written, Node.written, List.append_assoc, List.singleton_append,
    List.cons_append, List.append_assoc]
  cases args with
  | nil =>
      rw [Node.writtenArgs]
      exact .call rfl rfl (.none rfl)
  | cons arg others =>
      exact .call rfl rfl (.some (argumentRow_written h rest) rfl)

theorem IsExpression.readable {e : Node} (h : IsExpression e) :
    Readable e := by
  induction h with
  | number _ =>
      refine .of_term rfl fun {rest} _ => ?_
      rw [Node.written]
      exact .number rfl
  | identifier _ =>
      refine .of_term rfl fun {rest} hrest => ?_
      rw [Node.written]
      exact .name rfl hrest
  | binary hop _ _ ihleft ihright => exact .binary hop ihleft ihright
  | call _ _ ih => exact .call ih

/-! ## Statements -/

theorem parameterRow_written (names : List String) (rest : List Token) :
    ParameterRow (writtenParams (names.map .text) ++ closingSign :: rest)
      (names.map .text) (closingSign :: rest) := by
  induction names with
  | nil => exact .none (fun h => by cases h)
  | cons name names ih =>
      cases names with
      | nil => exact .last rfl rfl
      | cons next names => exact .comma rfl rfl ih

/-- A statement is read up to the semicolon behind it. -/
def Stated (statement : Node) : Prop :=
  ∀ rest, Statement (statement.written ++ semicolonSign :: rest) statement
    (semicolonSign :: rest)

theorem body_written {statements : List Node}
    (h : ∀ statement ∈ statements, Stated statement) (rest : List Token) :
    Body (Node.writtenStatements statements ++ endWord :: rest) statements
      rest := by
  induction statements with
  | nil => exact .close rfl
  | cons statement others ih =>
      obtain ⟨hfirst, hothers⟩ := List.forall_mem_cons.mp h
      rw [Node.writtenStatements, List.append_assoc]
      exact .statement (hfirst _) (.present rfl) (ih hothers)

theorem IsStatement.stated {statement : Node} (h : IsStatement statement) :
    Stated statement := by
  intro rest
  induction h generalizing rest with
  | expression he =>
      exact .expression (he.readable.closed (fun h => by cases h) rfl)
  | assign _ hvalue =>
      rw [Node.written]
      exact .assign rfl rfl
        (hvalue.readable.closed (fun h => by cases h) rfl)
  | @define name params body _ _ _ ih =>
      rw [Node.written]
      simp only [List.cons_append, List.append_assoc]
      exact .define rfl (.intro rfl
        (.present rfl (parameterRow_written params _) rfl)
        (body_written ih _))

/-! ## Programs -/

/-- The statements of a program do not start with a semicolon. -/
theorem separators_written {nodes : List Node}
    (h : ∀ node ∈ nodes, IsStatement node) (position : Int) :
    Separators (Node.writtenStatements nodes ++ [Token.atEnd position])
      (Node.writtenStatements nodes ++ [Token.atEnd position]) := by
  cases nodes with
  | nil => exact .stop rfl
  | cons node others =>
      have hfirst := ((List.forall_mem_cons.mp h).1.stated
        (Node.writtenStatements others ++ [Token.atEnd position])).first
      rw [Node.writtenStatements, List.append_assoc]
      refine .stop (hfirst.imp fun t ht => eq_false_of_ne_true fun hsep => ?_)
      have hkind := Token.kind_of_isOperator hsep
      simp [StartsStatement, StartsTerm, Token.isKeyword, hkind] at ht

theorem statements_written {nodes : List Node}
    (h : ∀ node ∈ nodes, IsStatement node) (position : Int) :
    Statements (Node.writtenStatements nodes ++ [Token.atEnd position])
      nodes := by
  induction nodes with
  | nil => exact .done rfl
  | cons node others ih =>
      obtain ⟨hnode, hothers⟩ := List.forall_mem_cons.mp h
      rw [Node.writtenStatements, List.append_assoc]
      exact .statement (hnode.stated _)
        (.semicolon rfl (separators_written hothers position)) (ih hothers)

/-! ## Spelling -/

theorem writable_name {name : String} (h : IsName name) :
    (Json.text name).nameToken.Writable :=
  ⟨TokenKind.noConfusion, h⟩

theorem writable_operator {operator : String}
    (h : operator ∈ arithmeticOperators) :
    Token.Writable ⟨.operator, operator, 0⟩ := by
  refine ⟨TokenKind.noConfusion, ?_⟩
  simp only [arithmeticOperators, List.mem_cons, List.not_mem_nil,
    or_false] at h
  rcases h with rfl | rfl | rfl | rfl <;> simp [Token.Spelled]

theorem WritableRow.wrapped {ts : List Token} (h : WritableRow ts)
    (e : Node) : WritableRow (e.wrapped ts) := by
  unfold Node.wrapped
  split
  · exact .cons writable_openingSign
      (.append h (.cons writable_closingSign .nil))
  · exact h

theorem writableRow_args {args : List Node}
    (h : ∀ arg ∈ args, WritableRow arg.written) :
    WritableRow (Node.writtenArgs args) := by
  induction args with
  | nil => exact .nil
  | cons arg others ih =>
      obtain ⟨harg, hothers⟩ := List.forall_mem_cons.mp h
      cases others with
      | nil => exact harg
      | cons next others =>
          exact .append harg (.cons writable_commaSign (ih hothers))

theorem writableRow_params {names : List String}
    (h : ∀ name ∈ names, IsName name) :
    WritableRow (writtenParams (names.map .text)) := by
  induction names with
  | nil => exact .nil
  | cons name names ih =>
      obtain ⟨hname, hnames⟩ := List.forall_mem_cons.mp h
      cases names with
      | nil => exact .cons (writable_name hname) .nil
      | cons next names =>
          exact .cons (writable_name hname)
            (.cons writable_commaSign (ih hnames))

theorem writableRow_statements {statements : List Node}
    (h : ∀ statement ∈ statements, WritableRow statement.written) :
    WritableRow (Node.writtenStatements statements) := by
  induction statements with
  | nil => exact .nil
  | cons statement others ih =>
      obtain ⟨hfirst, hothers⟩ := List.forall_mem_cons.mp h
      exact .append hfirst (.cons writable_semicolonSign (ih hothers))

theorem IsExpression.writableRow {e : Node} (h : IsExpression e) :
    WritableRow e.written := by
  induction h with
  | number hnumeral =>
      exact .cons ⟨TokenKind.noConfusion, hnumeral⟩ .nil
  | identifier hname => exact .cons (writable_name hname) .nil
  | binary hop _ _ ihleft ihright =>
      exact .append ihleft (.cons (writable_operator hop) (ihright.wrapped _))
  | call hname _ ih =>
      exact .append (.cons (writable_name hname) .nil)
        (.cons writable_openingSign
          (.append (writableRow_args ih) (.cons writable_closingSign .nil)))

theorem IsStatement.writableRow {statement : Node}
    (h : IsStatement statement) : WritableRow statement.written := by
  induction h with
  | expression he => exact he.writableRow
  | assign hname hvalue =>
      exact .cons (writable_name hname)
        (.cons writable_equalsSign hvalue.writableRow)
  | define hname hparams _ ih =>
      exact .cons writable_defWord (.cons (writable_name hname)
        (.cons writable_openingSign (.append (writableRow_params hparams)
          (.cons writable_closingSign (.append (writableRow_statements ih)
            (.cons writable_endWord .nil))))))

/-! ## Texts -/

def writtenText (nodes : List Node) : String :=
  String.ofList (spelling (Node.writtenStatements nodes))

/-- Well-formed statements are read back from their text. -/
theorem program_writtenText {nodes : List Node}
    (h : ∀ node ∈ nodes, IsStatement node) :
    Program (Stream.ofText (writtenText nodes)).tokens.1 nodes := by
  have hwritable := writableRow_statements fun node hnode =>
    (h node hnode).writableRow
  obtain ⟨us, finish, hus, htokens⟩ := tokens_spelling hwritable
  have hprogram : Program
      (Node.writtenStatements nodes ++ [Token.atEnd finish]) nodes :=
    .intro (separators_written h finish) (statements_written h finish)
  rw [writtenText, htokens]
  exact hprogram.relocate (hus.append (.refl _))

/-- **The image of the parser.** A list of trees is what some text is parsed
to if and only if every one of them is a well-formed statement. Then the text
written from them is such a text: unless the limit on nesting is reached it
is parsed to these trees, and a limit of one level per token is not
reached. -/
theorem parsed_iff_isStatement (nodes : List Node) :
    ((∃ limit source, parseProgram limit source = .ok nodes) ↔
      ∀ node ∈ nodes, IsStatement node) ∧
    ((∀ node ∈ nodes, IsStatement node) →
      (∀ limit, parseProgram limit (writtenText nodes) ≠ .error .tooDeep →
        parseProgram limit (writtenText nodes) = .ok nodes) ∧
      ∀ limit, (Stream.ofText (writtenText nodes)).tokens.1.length ≤ limit →
        parseProgram limit (writtenText nodes) = .ok nodes) := by
  have hread : (∀ node ∈ nodes, IsStatement node) → ∀ limit,
      parseProgram limit (writtenText nodes) ≠ .error .tooDeep →
      parseProgram limit (writtenText nodes) = .ok nodes :=
    fun h limit hdeep =>
      (parseProgram_of_program (program_writtenText h) limit).resolve_right
        hdeep
  refine ⟨⟨?_, fun h => ?_⟩, fun h => ⟨hread h, fun limit hlimit => ?_⟩⟩
  · rintro ⟨limit, source, hparse⟩
    exact isStatement_of_parseProgram hparse
  · exact ⟨_, _, hread h _ (parseProgram_ne_tooDeep le_rfl)⟩
  · exact hread h limit (parseProgram_ne_tooDeep hlimit)

end Scriptlet
