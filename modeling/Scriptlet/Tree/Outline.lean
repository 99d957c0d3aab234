import Scriptlet.Fault

/-!
# Outlines

A tree is shown as an indented outline with one construct per line and two
blanks per level. Only nodes have an outline; a list has none.
-/

namespace Scriptlet.Node

/-- A line at a level; levels below zero are not indented. -/
def outlineLine (level : Int) (text : String) : String :=
  "".pushn ' ' (2 * level.toNat) ++ text

/-- A line behind the indentation of another one. -/
def outlineLabel (level : Int) (text : String) : String :=
  outlineLine level "  " ++ text

mutual

def outlineLines (level : Int) : Node → Except Refusal (List String)
  | .number text => .ok [outlineLine level ("Number: " ++ text.display)]
  | .identifier name => .ok [outlineLine level ("Identifier: " ++ name.display)]
  | .binary operator left right => do
    let l ← outlineLines (level + 1) left
    let r ← outlineLines (level + 1) right
    return outlineLine level ("BinaryExpression: " ++ operator.display) ::
      (l ++ r)
  | .assign name value => do
    let v ← outlineLines (level + 1) value
    return outlineLine level ("Assign: " ++ name.display) :: v
  | .define name params body => do
    let b ← outlineAll (level + 2) body
    return outlineLine level ("Function: " ++ name.display) ::
      outlineLabel level "Parameters:" ::
      params.map (fun p =>
        outlineLine (level + 2) ("Identifier: " ++ p.display)) ++
      outlineLabel level "Body:" :: b
  | .call callee args => do
    let c ← outlineLines (level + 1) callee
    let a ← outlineAll (level + 2) args
    return outlineLine level "Call:" :: c ++
      outlineLabel level "Arguments:" :: a
  | .sequence items => .error (.outline (Node.sequence items).form)

def outlineAll (level : Int) : List Node → Except Refusal (List String)
  | [] => .ok []
  | node :: rest => do
    let first ← outlineLines level node
    let others ← outlineAll level rest
    return first ++ others

end

/-- The outline of a tree from a level on. -/
def outline (level : Int) (node : Node) : Except Refusal String := do
  let lines ← outlineLines level node
  return "\n".intercalate lines

/-- The outline of a tree that is no deeper than `limit`. -/
def outlineWithin (limit : Nat) (level : Int) (node : Node) :
    Except Fault String :=
  if node.depth ≤ limit then (node.outline level).mapError Fault.refused
  else .error .tooDeep

end Scriptlet.Node
