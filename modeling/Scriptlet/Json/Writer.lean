import Scriptlet.Json.Basic
import Scriptlet.Decimal.Notation
import Scriptlet.Text.Quoted

/-!
# Writing JSON

Values are written either on one line or, for saved trees, with one item
per line and two blanks per level. Only the quote, the backslash and the
control characters are escaped.
-/

namespace Scriptlet.Json

/-- How the parts of a list or an object are laid out. -/
inductive Layout where
  | line
  | indented
  deriving Repr, DecidableEq

/-- What stands in front of an item at a level. -/
def Layout.start : Layout → Nat → String
  | .line, _ => ""
  | .indented, level => "\n" ++ "".pushn ' ' (2 * level)

/-- What stands between two items at a level. -/
def Layout.between (layout : Layout) (level : Nat) : String :=
  match layout with
  | .line => ", "
  | .indented => "," ++ layout.start level

/-- How one character is written inside a string. -/
def escapeChar (c : Char) : List Char :=
  if c == '\x22' || c == '\\' then ['\\', c]
  else if c == '\n' then ['\\', 'n']
  else if c == '\r' then ['\\', 'r']
  else if c == '\t' then ['\\', 't']
  else if c == '\x0c' then ['\\', 'f']
  else if c == '\x08' then ['\\', 'b']
  else if c.toNat < 0x20 then ['\\', 'u'] ++ Text.hex 4 c.toNat
  else [c]

def writeText (s : String) : String :=
  "\"" ++ String.ofList (s.toList.flatMap escapeChar) ++ "\""

/-- Doubles in general notation; the ones without digits by their names. -/
def writeReal (x : Float) : String :=
  match Binary64.ofFloat x with
  | .nan => "NaN"
  | .infinite negative => if negative then "-Infinity" else "Infinity"
  | .finite .. => Binary64.general x

/-- Items between brackets, or just the brackets when there are none. -/
def bracket (layout : Layout) (level : Nat) (left right : String)
    (items : List String) : String :=
  if items.isEmpty then left ++ right
  else
    left ++ layout.start (level + 1) ++
      (layout.between (level + 1)).intercalate items ++
      layout.start level ++ right

mutual

def writeAt (layout : Layout) (level : Nat) : Json → String
  | .null => "null"
  | .boolean b => if b then "true" else "false"
  | .integer n => toString n
  | .real x => writeReal x
  | .text s => writeText s
  | .list items =>
    bracket layout level "[" "]" (writeItems layout (level + 1) items)
  | .object fields =>
    bracket layout level "\x7b" "\x7d" (writeFields layout (level + 1) fields)

def writeItems (layout : Layout) (level : Nat) : List Json → List String
  | [] => []
  | item :: rest =>
    writeAt layout level item :: writeItems layout level rest

def writeFields (layout : Layout) (level : Nat) :
    List (String × Json) → List String
  | [] => []
  | (key, value) :: rest =>
    (writeText key ++ ": " ++ writeAt layout level value) ::
      writeFields layout level rest

end

def write (layout : Layout) (value : Json) : String :=
  writeAt layout 0 value

end Scriptlet.Json
