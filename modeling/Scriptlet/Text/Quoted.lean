import Scriptlet.Text.Printable

/-!
# Quoted text

Characters and strings inside messages are shown between quotes. Single
quotes are used unless the text has a single quote and no double quote.
The quote in use and the backslash are escaped by a backslash, the usual
controls by their letters, and every other character without a visible
shape by its code point in the shortest of three fixed widths.
-/

namespace Scriptlet.Text

/-- The lower-case hexadecimal digits of `n`, padded to `width`. -/
def hex (width n : Nat) : List Char :=
  let digits := Nat.toDigits 16 n
  List.replicate (width - digits.length) '0' ++ digits

/-- How one character is written between quotes of the kind `quote`. -/
def escapeChar (quote c : Char) : List Char :=
  if c == quote || c == '\\' then ['\\', c]
  else if c == '\t' then ['\\', 't']
  else if c == '\n' then ['\\', 'n']
  else if c == '\r' then ['\\', 'r']
  else if isPrintable c then [c]
  else if c.toNat ≤ 0xFF then ['\\', 'x'] ++ hex 2 c.toNat
  else if c.toNat ≤ 0xFFFF then ['\\', 'u'] ++ hex 4 c.toNat
  else ['\\', 'U'] ++ hex 8 c.toNat

/-- The quote around a text: single, unless that would need an escape and
a double one would not. -/
def quoteFor (cs : List Char) : Char :=
  if cs.contains '\x27' && !cs.contains '\x22' then '\x22' else '\x27'

def quoted (s : String) : String :=
  let cs := s.toList
  let q := quoteFor cs
  String.ofList (q :: cs.flatMap (escapeChar q) ++ [q])

end Scriptlet.Text
