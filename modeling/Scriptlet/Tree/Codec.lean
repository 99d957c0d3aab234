import Scriptlet.Tree.Basic
import Scriptlet.Json.Shown

/-!
# Saved trees

A node is saved as an object that has the name of its form under `type`
and the parts of the node under fixed keys; a list of nodes is saved as a
list. Loading looks only at the fields that it needs: a function may lack
parameters and body and a call its arguments, and where a list is expected
a text stands for its characters and an object for its keys.
-/

namespace Scriptlet

/-! ## Saving -/

namespace Node

mutual

def toJson : Node → Json
  | .number text => .object [("type", .text "NumberLiteral"), ("text", text)]
  | .identifier name => .object [("type", .text "Identifier"), ("name", name)]
  | .binary operator left right =>
    .object [("type", .text "BinaryExpression"), ("operator", operator),
      ("left", left.toJson), ("right", right.toJson)]
  | .assign name value =>
    .object [("type", .text "Assignment"), ("name", name),
      ("value", value.toJson)]
  | .define name params body =>
    .object [("type", .text "FunctionDefinition"), ("name", name),
      ("params", .list params), ("body", .list (toJsonAll body))]
  | .call callee args =>
    .object [("type", .text "CallExpression"), ("callee", callee.toJson),
      ("args", .list (toJsonAll args))]
  | .sequence items => .list (toJsonAll items)

def toJsonAll : List Node → List Json
  | [] => []
  | node :: rest => node.toJson :: toJsonAll rest

end

/-- Saves a tree that is no deeper than `limit`. -/
def toJson? (limit : Nat) (node : Node) : Option Json :=
  if node.depth ≤ limit then some node.toJson else none

end Node

/-! ## Loading -/

/-- Why a JSON value is no saved tree. -/
inductive DecodeError where
  | notAnObject (found : String)
  | notIterable (found : String)
  | missing (key : String)
  | unknownForm (form : Json)
  deriving Repr, BEq

namespace DecodeError

def kind : DecodeError → String
  | .notAnObject _ => "TypeError"
  | .notIterable _ => "TypeError"
  | .missing _ => "KeyError"
  | .unknownForm _ => "ValueError"

def message : DecodeError → String
  | .notAnObject found => s!"expected an AST object, got {found}"
  | .notIterable found => s!"'{found}' object is not iterable"
  | .missing key => Text.quoted key
  | .unknownForm form => s!"Unknown AST node type: {form.display}"

end DecodeError

namespace Json

/-- The value of a field that has to be there. It is smaller than the
object, which is what loading recurses on. -/
def required (fields : List (String × Json)) (key : String) :
    Except DecodeError { value : Json // sizeOf value < sizeOf fields } :=
  match h : field? fields key with
  | some value => .ok ⟨value, sizeOf_lt_of_field? h⟩
  | none => .error (.missing key)

def optional (fields : List (String × Json)) (key : String) :
    Option { value : Json // sizeOf value < sizeOf fields } :=
  match h : field? fields key with
  | some value => some ⟨value, sizeOf_lt_of_field? h⟩
  | none => none

/-- What going through a value meets, one after the other. -/
def elements : Json → Except DecodeError (List Json)
  | .list items => .ok items
  | .text s => .ok (s.toList.map fun c => .text c.toString)
  | .object fields => .ok (fields.map fun field => .text field.1)
  | other => .error (.notIterable other.typeName)

end Json

namespace Node

mutual

def ofJson (json : Json) : Except DecodeError Node :=
  match json with
  | .list items => do
    let nodes ← ofJsonAll items
    return .sequence nodes
  | .object fields =>
    match Json.field? fields "type" with
    | some (.text "NumberLiteral") => do
      let ⟨text, _⟩ ← Json.required fields "text"
      return .number text
    | some (.text "Identifier") => do
      let ⟨name, _⟩ ← Json.required fields "name"
      return .identifier name
    | some (.text "BinaryExpression") => do
      let ⟨operator, _⟩ ← Json.required fields "operator"
      let ⟨left, _⟩ ← Json.required fields "left"
      let l ← ofJson left
      let ⟨right, _⟩ ← Json.required fields "right"
      let r ← ofJson right
      return .binary operator l r
    | some (.text "Assignment") => do
      let ⟨name, _⟩ ← Json.required fields "name"
      let ⟨value, _⟩ ← Json.required fields "value"
      let v ← ofJson value
      return .assign name v
    | some (.text "FunctionDefinition") => do
      let params ←
        match Json.optional fields "params" with
        | some ⟨params, _⟩ => params.elements
        | none => .ok []
      let statements ←
        match Json.optional fields "body" with
        | some ⟨body, _⟩ => ofElements body
        | none => .ok []
      let ⟨name, _⟩ ← Json.required fields "name"
      return .define name params statements
    | some (.text "CallExpression") => do
      let arguments ←
        match Json.optional fields "args" with
        | some ⟨args, _⟩ => ofElements args
        | none => .ok []
      let ⟨callee, _⟩ ← Json.required fields "callee"
      let c ← ofJson callee
      return .call c arguments
    | form => .error (.unknownForm (form.getD .null))
  | other => .error (.notAnObject other.typeName)
termination_by sizeOf json

/-- Loads each of a row of values, up to the first that fails. -/
def ofJsonAll (items : List Json) : Except DecodeError (List Node) :=
  match items with
  | [] => .ok []
  | item :: rest => do
    let node ← ofJson item
    let nodes ← ofJsonAll rest
    return node :: nodes
termination_by sizeOf items

/-- Loads what going through a value meets. A character or a key is no
saved node, so only lists and empty values succeed. -/
def ofElements (json : Json) : Except DecodeError (List Node) :=
  match json with
  | .list items => ofJsonAll items
  | other => do
    match ← other.elements with
    | [] => return []
    | element :: _ => .error (.notAnObject element.typeName)
termination_by sizeOf json

end

end Node

end Scriptlet
