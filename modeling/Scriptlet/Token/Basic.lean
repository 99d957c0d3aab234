import Scriptlet.Text.Quoted

/-!
# Tokens

A program text is a row of numbers, words, operator symbols, equals signs
and parentheses, with blanks between them. Words are identifiers unless
they are reserved.
-/

namespace Scriptlet

inductive TokenKind where
  | number
  | identifier
  | operator
  | assign
  | leftParen
  | rightParen
  | keyword
  | endOfInput
  deriving Repr, DecidableEq, Inhabited

def TokenKind.name : TokenKind → String
  | .number => "Number"
  | .identifier => "Identifier"
  | .operator => "Operator"
  | .assign => "Assign"
  | .leftParen => "LParen"
  | .rightParen => "RParen"
  | .keyword => "Keyword"
  | .endOfInput => "EOF"

/-- A token with its spelling and the offset of its first character. The
offset is negative when scanning started from the end of the text. -/
structure Token where
  kind : TokenKind
  lexeme : String
  position : Int
  deriving Repr, DecidableEq, Inhabited

namespace Token

def atEnd (position : Int) : Token := ⟨.endOfInput, "", position⟩

def finish (t : Token) : Int := t.position + t.lexeme.length

def isKeyword (t : Token) (word : String) : Bool :=
  t.kind == .keyword && t.lexeme == word

def isOperator (t : Token) (symbol : String) : Bool :=
  t.kind == .operator && t.lexeme == symbol

end Token

def reservedWords : List String := ["def", "end", "if", "while"]

/-- A character that no token starts with. -/
structure LexError where
  char : Char
  position : Int
  deriving Repr, DecidableEq

def LexError.message (e : LexError) : String :=
  let shown := Text.quoted e.char.toString
  s!"unrecognized character {shown} at offset {e.position}"

end Scriptlet
