import Scriptlet.Token.Basic

/-!
# Token streams

Scanning a text gives the tokens in front of the first unrecognised
character, and then either the end of the input or that character. Both
ends are final: asking for more gives the same answer again.

The scan is that of a basic lexer, which knows nothing of the parser: at each
point it takes the longest match among the terminals of the token grammar, it
drops blanks, and it raises an error for a character only when it gets there,
behind all tokens in front of it. That the terminals are matched in this way is
an assumption of this module; the table of terminals is what it starts from.
-/

namespace Scriptlet

/-! ## Character classes -/

/-- The characters between tokens. -/
def isSpace (c : Char) : Bool := c == ' ' || c == '\t' || c == '\n'

def isWordStart (c : Char) : Bool := c.isAlpha || c == '_'

def isWordPart (c : Char) : Bool := isWordStart c || c.isDigit

/-- The kind of the tokens that are one fixed character. -/
def symbolKind? (c : Char) : Option TokenKind :=
  if ['+', '-', '*', '/', ',', ';'].contains c then some .operator
  else if c == '=' then some .assign
  else if c == '(' then some .leftParen
  else if c == ')' then some .rightParen
  else none

def wordKind (word : String) : TokenKind :=
  if reservedWords.contains word then .keyword else .identifier

/-! ## Streams -/

inductive Stream where
  | token (head : Token) (rest : Stream)
  /-- The input ends, at the given offset. -/
  | finish (position : Int)
  /-- The scan stops at an unrecognised character. -/
  | broken (error : LexError)
  deriving Repr, DecidableEq, Inhabited

namespace Stream

/-- The tokens of a text whose first character has offset `position`. The
end of the input is reported at `finish`. -/
def scan (finish : Int) (position : Int) (cs : List Char) : Stream :=
  match cs with
  | [] => .finish finish
  | c :: rest =>
    if isSpace c then scan finish (position + 1) rest
    else if c.isDigit then
      let digits := c :: rest.takeWhile Char.isDigit
      .token ⟨.number, String.ofList digits, position⟩
        (scan finish (position + digits.length) (rest.dropWhile Char.isDigit))
    else if isWordStart c then
      let letters := c :: rest.takeWhile isWordPart
      let word := String.ofList letters
      .token ⟨wordKind word, word, position⟩
        (scan finish (position + letters.length) (rest.dropWhile isWordPart))
    else
      match symbolKind? c with
      | some kind =>
        .token ⟨kind, c.toString, position⟩ (scan finish (position + 1) rest)
      | none => .broken ⟨c, position⟩
termination_by cs.length
decreasing_by
  · simp
  · exact Nat.lt_succ_of_le (List.dropWhile_suffix Char.isDigit).length_le
  · exact Nat.lt_succ_of_le (List.dropWhile_suffix isWordPart).length_le
  · simp

/-- The tokens of the part of a text that starts at an offset; a negative
offset counts from the end, and positions count on from the offset as
given. -/
def ofTextAt (source : String) (start : Int) : Stream :=
  let cs := source.toList
  let skipped := if 0 ≤ start then start.toNat else (cs.length + start).toNat
  scan cs.length start (cs.drop skipped)

def ofText (source : String) : Stream := ofTextAt source 0

def next : Stream → Except LexError (Token × Stream)
  | .token head rest => .ok (head, rest)
  | .finish position => .ok (Token.atEnd position, .finish position)
  | .broken error => .error error

/-- The tokens that can be drawn, the end of input included, and the error
that stops them if there is one. -/
def tokens : Stream → List Token × Option LexError
  | .token head rest =>
    let (more, error) := tokens rest
    (head :: more, error)
  | .finish position => ([Token.atEnd position], none)
  | .broken error => ([], some error)

def length : Stream → Nat
  | .token _ rest => rest.length + 1
  | .finish _ => 0
  | .broken _ => 0

/-- The answers to a number of successive requests for a token. A refused
request leaves the stream as it is. -/
def draw : Nat → Stream → List (Except LexError Token)
  | 0, _ => []
  | count + 1, s =>
    match s.next with
    | .ok (head, rest) => .ok head :: draw count rest
    | .error e => .error e :: draw count s

/-- How many more blocks a text opens than it closes, or nothing if it has
an unrecognised character. -/
def openBlocks? : Stream → Option Int
  | .token head rest =>
    (openBlocks? rest).map fun n =>
      if head.isKeyword "def" then n + 1
      else if head.isKeyword "end" then n - 1
      else n
  | .finish _ => some 0
  | .broken _ => none

end Stream

/-- Whether a text has a block that is still open. A text that cannot be
scanned counts as complete, so that the error is reported. -/
def needsMoreInput (source : String) : Bool :=
  match (Stream.ofText source).openBlocks? with
  | some n => decide (0 < n)
  | none => false

end Scriptlet
