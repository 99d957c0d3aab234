import Scriptlet.Parser.Cursor
import Scriptlet.Tree.Basic

/-!
# Statements and expressions

The grammar, by recursive descent with one token of lookahead:

    program    := {";"} {statement {";"}}
    statement  := "def" function | identifier "=" expression | expression
    function   := identifier ["(" {identifier ","} [identifier] ")"]
                  {statement [";"]} "end"
    expression := term {("+" | "-" | "*" | "/") term}
    term       := number | identifier ["(" [expression {"," expression}] ")"]
                | "(" expression ")"

The four operators have one level of precedence and associate to the left.
Optional and repeated parts are taken whenever the next token allows it.

Each function takes a fuel, which bounds the calls it may nest and which a
cursor provides in sufficient amount, and a depth, by which parentheses,
arguments and function bodies may nest inside each other.
-/

namespace Scriptlet

def isArithmetic (t : Token) : Bool :=
  t.kind == .operator && ["+", "-", "*", "/"].contains t.lexeme

namespace Parse

/-- The parameters of a function up to the closing parenthesis, which
stays. A comma may follow the last one. -/
def parameters : Nat → Parse (List Json)
  | 0 => Step.fail .tooDeep
  | fuel + 1 => do
    if (← current).kind == .identifier then
      let name ← advance
      if (← current).isOperator "," then
        let _ ← advance
        let others ← parameters fuel
        return .text name.lexeme :: others
      else return [.text name.lexeme]
    else return []

mutual

def statement : Nat → Nat → Parse Node
  | 0, _ => Step.fail .tooDeep
  | fuel + 1, depth => do
    let token ← current
    if token.isKeyword "def" then
      let _ ← advance
      function fuel depth
    else if token.kind == .identifier then
      let _ ← advance
      if (← current).kind == .assign then
        let _ ← advance
        let value ← expression fuel depth
        return .assign (.text token.lexeme) value
      else
        let left ← operand fuel depth token
        tail fuel depth left
    else expression fuel depth

/-- A function from its name on, the word `def` being consumed. -/
def function : Nat → Nat → Parse Node
  | 0, _ => Step.fail .tooDeep
  | fuel + 1, depth => do
    let name ← current
    if name.kind == .identifier then
      let _ ← advance
      let params ←
        if (← current).kind == .leftParen then do
          let _ ← advance
          let params ← parameters fuel
          closingParen
          pure params
        else pure []
      match depth with
      | 0 => Step.fail .tooDeep
      | depth + 1 =>
        let statements ← body fuel depth
        return .define (.text name.lexeme) params statements
    else failWith (.functionName name)

/-- The statements of a function and the word `end`. -/
def body : Nat → Nat → Parse (List Node)
  | 0, _ => Step.fail .tooDeep
  | fuel + 1, depth => do
    let token ← current
    if token.isKeyword "end" then
      let _ ← advance
      return []
    else if token.kind == .endOfInput then unexpected .blockEnd
    else
      let first ← statement fuel depth
      if (← current).isOperator ";" then
        let _ ← advance
      let others ← body fuel depth
      return first :: others

def expression : Nat → Nat → Parse Node
  | 0, _ => Step.fail .tooDeep
  | fuel + 1, depth => do
    let left ← term fuel depth
    tail fuel depth left

/-- The operators and terms behind a term. -/
def tail : Nat → Nat → Node → Parse Node
  | 0, _, _ => Step.fail .tooDeep
  | fuel + 1, depth, left => do
    if isArithmetic (← current) then
      let operator ← advance
      let right ← term fuel depth
      tail fuel depth (.binary (.text operator.lexeme) left right)
    else return left

def term : Nat → Nat → Parse Node
  | 0, _ => Step.fail .tooDeep
  | fuel + 1, depth => do
    let token ← current
    if token.kind == .number then
      let _ ← advance
      return .number (.text token.lexeme)
    else if token.kind == .identifier then
      let _ ← advance
      operand fuel depth token
    else if token.kind == .leftParen then
      let _ ← advance
      match depth with
      | 0 => Step.fail .tooDeep
      | depth + 1 =>
        let inner ← expression fuel depth
        closingParen
        return inner
    else unexpected .operand

/-- The rest of a term that starts with an identifier: a call if an
opening parenthesis follows. -/
def operand : Nat → Nat → Token → Parse Node
  | 0, _, _ => Step.fail .tooDeep
  | fuel + 1, depth, name => do
    let callee := Node.identifier (.text name.lexeme)
    if (← current).kind == .leftParen then
      let _ ← advance
      if (← current).kind == .rightParen then
        closingParen
        return .call callee []
      else
        match depth with
        | 0 => Step.fail .tooDeep
        | depth + 1 =>
          let args ← arguments fuel depth
          closingParen
          return .call callee args
    else return callee

/-- One or more expressions with commas between them. -/
def arguments : Nat → Nat → Parse (List Node)
  | 0, _ => Step.fail .tooDeep
  | fuel + 1, depth => do
    let first ← expression fuel depth
    if (← current).isOperator "," then
      let _ ← advance
      let others ← arguments fuel depth
      return first :: others
    else return [first]

end

/-- Statements and separators up to the end of the input. -/
def statements : Nat → Nat → Parse (List Node)
  | 0, _ => Step.fail .tooDeep
  | fuel + 1, depth => do
    skipSeparators
    if (← Step.get).atEnd then return []
    else
      let first ← statement fuel depth
      let others ← statements fuel depth
      return first :: others

end Parse

/-! ## Parsing from a cursor and from a text -/

/-- Runs a parser with the fuel that its cursor calls for. -/
def Parse.withFuel {α : Type} (parser : Nat → Parse α) : Parse α := do
  parser (← Step.get).fuel

/-- The statements of a text, none nested deeper than `limit`. -/
def parseProgram (limit : Nat) (source : String) :
    Except ParseFailure (List Node) :=
  match Cursor.ofText source with
  | .error e => .error (.error e)
  | .ok cursor =>
    ((Parse.withFuel (Parse.statements · limit)).run cursor).result

def parseStatement (limit : Nat) (source : String) :
    Except ParseFailure Node :=
  match Cursor.ofText source with
  | .error e => .error (.error e)
  | .ok cursor =>
    ((Parse.withFuel (Parse.statement · limit)).run cursor).result

end Scriptlet
