/-!
# JSON values

Saved trees are JSON, and the texts, names and operators of a loaded tree
may be any JSON value. Whole numbers and doubles are kept apart, and the
fields of an object stay in the order of their first appearance.
-/

namespace Scriptlet

inductive Json where
  | null
  | boolean (value : Bool)
  | integer (value : Int)
  | real (value : Float)
  | text (value : String)
  | list (items : List Json)
  | object (fields : List (String × Json))
  deriving Repr, BEq, Inhabited

namespace Json

/-- The name under which messages speak of a value's type. -/
def typeName : Json → String
  | .null => "NoneType"
  | .boolean _ => "bool"
  | .integer _ => "int"
  | .real _ => "float"
  | .text _ => "str"
  | .list _ => "list"
  | .object _ => "dict"

def field? (fields : List (String × Json)) (key : String) : Option Json :=
  fields.lookup key

/-- Sets a field; a key that is there already keeps its place. -/
def setField (fields : List (String × Json)) (key : String) (value : Json) :
    List (String × Json) :=
  match fields with
  | [] => [(key, value)]
  | (k, v) :: rest =>
    if k == key then (k, value) :: rest
    else (k, v) :: setField rest key value

theorem sizeOf_lt_of_field? {fields : List (String × Json)} {key : String}
    {value : Json} (h : field? fields key = some value) :
    sizeOf value < sizeOf fields := by
  induction fields with
  | nil => simp [field?] at h
  | cons entry rest ih =>
      obtain ⟨k, v⟩ := entry
      simp only [field?, List.lookup_cons] at h
      split at h
      · obtain rfl := Option.some.inj h
        simp only [List.cons.sizeOf_spec, Prod.mk.sizeOf_spec]
        omega
      · have := ih h
        simp only [List.cons.sizeOf_spec]
        omega

end Json

end Scriptlet
