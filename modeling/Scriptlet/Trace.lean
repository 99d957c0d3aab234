import Scriptlet.Fault
import Scriptlet.Value.Shown

/-!
# Traces

A run can be followed at three levels: the statements of a program, then
also assignments and definitions, then also calls and returns. An event is
written as one line when the level in force reaches the event's own.
-/

namespace Scriptlet

inductive Event where
  | statement (form value : String)
  | assign (name value : String) (depth : Nat)
  | define (name : String) (params : List String)
  | call (callee : String) (args : List String)
  | leave (callee value : String)
  deriving Repr, DecidableEq

namespace Event

/-- The level from which on an event is written. -/
def level : Event → Nat
  | .statement .. => 1
  | .assign .. => 2
  | .define .. => 2
  | .call .. => 3
  | .leave .. => 3

def line : Event → String
  | .statement form value => s!"statement {form} => {value}"
  | .assign name value depth => s!"assign {name} = {value} (depth {depth})"
  | .define name params =>
    "define function " ++ name ++ "(" ++ ", ".intercalate params ++ ")"
  | .call callee args =>
    "call " ++ callee ++ " with (" ++ ", ".intercalate args ++ ")"
  | .leave callee value => s!"return from {callee} => {value}"

end Event

def traceText (events : List Event) : String :=
  String.join (events.map (·.line ++ "\n"))

def traceValue (v : Value) : Except Fault String :=
  match v.display? with
  | some text => .ok text
  | none => .error .integerTooLarge

/-- The texts of a row of values, up to the first that has none. -/
def traceValues : List Value → Except Fault (List String)
  | [] => .ok []
  | v :: rest => do
    let text ← traceValue v
    let texts ← traceValues rest
    return text :: texts

/-- The names of parameters, from the one at `index` on. -/
def traceParams (index : Nat) : List Json → Except Fault (List String)
  | [] => .ok []
  | .text s :: rest => do
    let names ← traceParams (index + 1) rest
    return s :: names
  | other :: _ => .error (.parameterName index other.typeName)

end Scriptlet
