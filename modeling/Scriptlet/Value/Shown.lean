import Scriptlet.Value.Basic
import Scriptlet.Decimal.Notation
import Scriptlet.Decimal.Rounding
import Scriptlet.Json.Shown

/-!
# Values as text

Programs print numbers in plain notation and strings as they are; messages
about calls show values in the general notation, with strings quoted. A
whole number is printed through the nearest double, so one that is too
large for a double cannot be printed.
-/

namespace Scriptlet.Value

/-- The double that a number is or rounds to. Nothing for a whole number
that is too large, and for values that are no numbers. -/
def toFloat? : Value → Option Float
  | .number x => some x
  | .integer n => Binary64.ofInt? n
  | _ => none

/-- The text that programs print for a value. -/
def display? : Value → Option String
  | .nil => some "nil"
  | .boolean b => some (if b then "true" else "false")
  | .number x => some (Binary64.plain x)
  | .integer n => (Binary64.ofInt? n).map Binary64.plain
  | .string s => some s
  | .function _ => some "<function>"
  | .builtin _ => some "<builtin-function>"
  | .foreign object => some object.text

/-- The text by which a called value is named. -/
def inspect : Value → String
  | .nil => "None"
  | .boolean b => if b then "True" else "False"
  | .number x => Binary64.general x
  | .integer n => toString n
  | .string s => Text.quoted s
  | .function f => "<function " ++ f.name.display ++ ">"
  | .builtin b => "<builtin " ++ b.name ++ ">"
  | .foreign object => object.text

end Scriptlet.Value
