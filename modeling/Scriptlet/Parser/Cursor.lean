import Scriptlet.Parser.Error
import Scriptlet.Step
import Scriptlet.Token.Stream

/-!
# The parser's place in the text

A cursor holds one token of lookahead and the stream behind it. Moving on
draws the next token first and gives up the current one only if that
succeeds, so a cursor in front of an unrecognised character never moves
again.
-/

namespace Scriptlet

structure Cursor where
  current : Token
  pending : Stream
  deriving Repr, DecidableEq

/-- A parser: it moves a cursor, and leaves it where it stopped when it
fails. -/
abbrev Parse (α : Type) : Type := Step ParseFailure Cursor α

namespace Cursor

def ofStream (stream : Stream) : Except ParseError Cursor :=
  match stream.next with
  | .ok (current, pending) => .ok ⟨current, pending⟩
  | .error e => .error (.unrecognized e)

def ofText (source : String) : Except ParseError Cursor :=
  ofStream (Stream.ofText source)

def atEnd (c : Cursor) : Bool := c.current.kind == .endOfInput

/-- A bound on the calls that parsing from here can nest: at most four for
each token, and some to notice the end. -/
def fuel (c : Cursor) : Nat := 4 * c.pending.length + 8

end Cursor

namespace Parse

def failWith {α : Type} (e : ParseError) : Parse α := Step.fail (.error e)

def current : Parse Token := do
  let c ← Step.get
  return c.current

/-- Consumes the current token and gives it back. -/
def advance : Parse Token := fun c =>
  match c.pending.next with
  | .ok (token, pending) => .done c.current ⟨token, pending⟩
  | .error e => .failed (.error (.unrecognized e)) c

def unexpected {α : Type} (wanted : Wanted) : Parse α := do
  failWith (.unexpected wanted (← current))

def closingParen : Parse Unit := do
  let token ← current
  if token.kind == .rightParen then
    let _ ← advance
  else failWith (.closingParen token)

/-- Consumes semicolons from `token` on, behind which `pending` follows. -/
def skipSeparatorsFrom (token : Token) (pending : Stream) :
    Outcome ParseFailure Cursor Unit :=
  if token.isOperator ";" then
    match pending with
    | .token head rest => skipSeparatorsFrom head rest
    | .finish position => .done () ⟨Token.atEnd position, .finish position⟩
    | .broken e => .failed (.error (.unrecognized e)) ⟨token, pending⟩
  else .done () ⟨token, pending⟩

def skipSeparators : Parse Unit := fun c =>
  skipSeparatorsFrom c.current c.pending

end Parse

end Scriptlet
