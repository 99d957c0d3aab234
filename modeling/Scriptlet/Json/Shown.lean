import Scriptlet.Json.Basic
import Scriptlet.Decimal.Notation
import Scriptlet.Text.Quoted

/-!
# JSON values inside messages

A message that mentions the name or operator of a loaded tree shows a text
as it is and any other value in a bracketed notation, in which texts are
quoted, the empty value is `None` and truth values are capitalised.
-/

namespace Scriptlet.Json

mutual

/-- The bracketed notation of a value, with texts quoted. -/
def inspect : Json → String
  | .null => "None"
  | .boolean b => if b then "True" else "False"
  | .integer n => toString n
  | .real x => Binary64.general x
  | .text s => Text.quoted s
  | .list items => "[" ++ ", ".intercalate (inspectItems items) ++ "]"
  | .object fields =>
    "\x7b" ++ ", ".intercalate (inspectFields fields) ++ "\x7d"

def inspectItems : List Json → List String
  | [] => []
  | item :: rest => inspect item :: inspectItems rest

def inspectFields : List (String × Json) → List String
  | [] => []
  | (key, value) :: rest =>
    (Text.quoted key ++ ": " ++ inspect value) :: inspectFields rest

end

/-- A text as it is; any other value in the bracketed notation. -/
def display : Json → String
  | .text s => s
  | value => value.inspect

end Scriptlet.Json
