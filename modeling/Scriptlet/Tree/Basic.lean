import Scriptlet.Json.Basic

/-!
# Trees

The abstract syntax of programs. The parser only builds trees whose texts,
names and operators are texts; a tree that was loaded from a file may have
any JSON value there, and a list wherever a node is expected. Operations on
trees accept all of these and fail where they first need something else.
-/

namespace Scriptlet

inductive Node where
  | number (text : Json)
  | identifier (name : Json)
  | binary (operator : Json) (left right : Node)
  | assign (name : Json) (value : Node)
  | define (name : Json) (params : List Json) (body : List Node)
  | call (callee : Node) (args : List Node)
  | sequence (items : List Node)
  deriving Repr, BEq, Inhabited

namespace Node

/-- The name of a node's form in messages and saved trees. -/
def form : Node → String
  | .number _ => "NumberLiteral"
  | .identifier _ => "Identifier"
  | .binary .. => "BinaryExpression"
  | .assign .. => "Assignment"
  | .define .. => "FunctionDefinition"
  | .call .. => "CallExpression"
  | .sequence _ => "list"

mutual

/-- The number of nodes on the longest way down. -/
def depth : Node → Nat
  | .number _ => 1
  | .identifier _ => 1
  | .binary _ left right => max left.depth right.depth + 1
  | .assign _ value => value.depth + 1
  | .define _ _ body => depthAll body + 1
  | .call callee args => max callee.depth (depthAll args) + 1
  | .sequence items => depthAll items + 1

def depthAll : List Node → Nat
  | [] => 0
  | node :: rest => max node.depth (depthAll rest)

end

end Node

/-- How deep trees, texts and calls may nest. Whatever goes deeper is given
up as endless. The limit counts what is nested and not the stack frames that
it takes, so a run that comes close to the end of a stack may end there
although the limit is not reached. Nothing here is about such runs. -/
def nestingLimit : Nat := 1000

/-- What an operation answers to something that is not one of the forms it
works on; the argument says what was found. -/
inductive Refusal where
  | evaluation (found : String)
  | encoding (found : String)
  | outline (found : String)
  deriving Repr, DecidableEq

namespace Refusal

def formless : String := "minirb.ast.Node"

def message : Refusal → String
  | .evaluation found => s!"evaluate: unexpected node type <class '{found}'>"
  | .encoding found =>
    s!"Unsupported AST node for serialization: <class '{found}'>"
  | .outline found => s!"Unsupported AST node: <class '{found}'>"

end Refusal

end Scriptlet
