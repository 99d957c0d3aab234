/-!
# Lines of text

Text that comes from a file or from standard input has its line ends
unified first; a line is then read up to the next newline, which is
consumed but does not belong to the line.
-/

namespace Scriptlet.Text

/-- Carriage returns, alone or before a newline, become newlines. -/
def unifyNewlines : List Char → List Char
  | [] => []
  | '\r' :: '\n' :: rest => '\n' :: unifyNewlines rest
  | '\r' :: rest => '\n' :: unifyNewlines rest
  | c :: rest => c :: unifyNewlines rest

/-- The next line and the text behind it, or nothing at the end. -/
def readLine? (cs : List Char) : Option (List Char × List Char) :=
  if cs.isEmpty then none
  else some (cs.takeWhile (· != '\n'), (cs.dropWhile (· != '\n')).drop 1)

@[simp] theorem readLine?_nil : readLine? [] = none := rfl

end Scriptlet.Text
