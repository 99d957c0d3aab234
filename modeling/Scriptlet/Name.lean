import Scriptlet.Json.Basic
import Scriptlet.Decimal.Binary64

/-!
# Names

Scopes are keyed by names. The names in a parsed program are texts; a
loaded tree may also have a number, a truth value or nothing as a name.
Numbers that are equal are one name, whether whole, double or truth value;
lists and objects are no names.
-/

namespace Scriptlet

/-- What a binding is found by. -/
inductive Name where
  | text (value : String)
  | null
  | whole (value : Int)
  /-- A double that is not a whole number. -/
  | real (bits : UInt64)
  deriving Repr, DecidableEq, Inhabited

namespace Name

def ofJson? : Json → Option Name
  | .text s => some (.text s)
  | .null => some .null
  | .boolean b => some (.whole (if b then 1 else 0))
  | .integer n => some (.whole n)
  | .real x =>
    match (Binary64.ofFloat x).toInt? with
    | some n => some (.whole n)
    | none => some (.real x.toBits)
  | .list _ => none
  | .object _ => none

@[simp] theorem ofJson?_text (s : String) :
    ofJson? (.text s) = some (.text s) := rfl

end Name

end Scriptlet
