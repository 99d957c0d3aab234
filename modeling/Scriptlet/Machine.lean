import Scriptlet.Scope
import Scriptlet.Step
import Scriptlet.Text.Lines
import Scriptlet.Trace

/-!
# The state of a run

An evaluation reads and changes the scopes, reads lines of input, prints
lines of output, and adds events to the trace. What stays fixed during it
is the setting: the rule of scoping, the level of tracing, and the
functions that the host provides.
-/

namespace Scriptlet

inductive HostAnswer where
  | value (value : Value)
  | raised (kind text : String)
  /-- It raised an error without a text: putting one together failed in turn,
  with an error of this kind and text. -/
  | textFailed (kind text : String)
  | outOfMemory (text : String)
  deriving Repr, Inhabited

/-- A function of the host. Besides the arguments it is given the number of
host calls that came before, so that its answers may vary. -/
abbrev HostFunction := Nat → List Value → HostAnswer

structure Setting where
  /-- Whether a function's free names are looked up where it was defined
  rather than where it is called. -/
  lexical : Bool
  /-- The level of tracing. -/
  level : Int
  /-- How many evaluations may be open, one inside the other. It is no count of
  stack frames, of which an evaluation may take several. -/
  limit : Nat
  host : List HostFunction

structure Machine where
  store : Store
  /-- The input that is not read yet. -/
  input : List Char
  output : String
  trace : Array Event
  /-- Whether the trace is still being written. -/
  tracing : Bool
  hostCalls : Nat
  deriving Repr, Inhabited

namespace Machine

/-- The state before anything has run: the global scope alone, and the
whole input still to be read. -/
def initial (tracing : Bool) (input : List Char) : Machine where
  store := Store.initial
  input := input
  output := ""
  trace := #[]
  tracing := tracing
  hostCalls := 0

def globalScope : ScopeId := 0

end Machine

abbrev Eval (α : Type) : Type := Step Fault Machine α

namespace Eval

def failWith {α : Type} (e : EvalError) : Eval α := Step.fail (.eval e)

def nameOf (json : Json) : Eval Name :=
  match Name.ofJson? json with
  | some name => pure name
  | none => Step.fail (.unhashable json.typeName)

def lookup (scope : ScopeId) (name : Name) : Eval Value := do
  return (← Step.get).store.get scope name

def bind (scope : ScopeId) (name : Name) (value : Value) : Eval Unit :=
  Step.modify fun m => { m with store := m.store.set scope name value }

def newScope (parent : ScopeId) : Eval ScopeId := fun m =>
  let (id, store) := m.store.add (some parent)
  .done id { m with store }

def writeLine (text : String) : Eval Unit :=
  Step.modify fun m => { m with output := m.output ++ text ++ "\n" }

/-- Reads a line; at the end of the input there is none. -/
def readLine : Eval (Option String) := fun m =>
  match Text.readLine? m.input with
  | none => .done none m
  | some (line, rest) => .done (some (String.ofList line)) { m with input := rest }

/-- Adds an event if the level in force reaches `required`. The event is
put together in that case even when nothing is written any more. -/
def record (setting : Setting) (required : Int)
    (event : Unit → Except Fault Event) : Eval Unit :=
  if required ≤ setting.level then do
    let e ← Step.lift (event ())
    Step.modify fun m =>
      if m.tracing then { m with trace := m.trace.push e } else m
  else pure ()

end Eval

end Scriptlet
