import Scriptlet.Token.Basic

/-!
# Syntax errors

Every syntax error names the token at which the text stopped being the
beginning of a program, or passes on an unrecognised character.
-/

namespace Scriptlet

/-- What the grammar asks for at a place where anything else is an
error. -/
inductive Wanted where
  | operand
  | blockEnd
  deriving Repr, DecidableEq

def Wanted.message : Wanted → String
  | .operand => "a number, identifier or \"(\""
  | .blockEnd => "'end'"

inductive ParseError where
  | unrecognized (error : LexError)
  | unexpected (wanted : Wanted) (found : Token)
  | closingParen (found : Token)
  | functionName (found : Token)
  deriving Repr, DecidableEq

namespace ParseError

/-- The name of the kind of error, with which its message begins. -/
def kind : ParseError → String
  | .unrecognized _ => "UnexpectedToken"
  | .unexpected .. => "UnexpectedToken"
  | .closingParen _ => "ExpectedClosingParen"
  | .functionName _ => "ExpectedFunctionName"

def foundText (t : Token) : String :=
  if t.kind == .endOfInput then "end of input"
  else t.kind.name ++ " " ++ Text.quoted t.lexeme

/-- The message without the kind. -/
def detail : ParseError → String
  | .unrecognized error => error.message
  | .unexpected wanted t =>
    s!"expected {wanted.message} at offset {t.position}, got {foundText t}"
  | .closingParen t => s!"expected ')' at offset {t.position}"
  | .functionName t =>
    s!"expected function name after 'def' at offset {t.position}"

def message (e : ParseError) : String := e.kind ++ ": " ++ e.detail

end ParseError

/-- Why parsing gave no tree: the text is wrong, or it nests deeper than
the parser may follow. -/
inductive ParseFailure where
  | error (error : ParseError)
  | tooDeep
  deriving Repr, DecidableEq

end Scriptlet
