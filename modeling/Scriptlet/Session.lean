import Scriptlet.Evaluator
import Scriptlet.Parser.Statement

/-!
# Sessions

A session runs one text or tree after the other on one machine, so that
what an earlier one defined is there for the later ones. A text is parsed
as a whole before any of it runs. Nothing that fails ends the session.

What is parsed or decoded gets its site then, once and for all. It can be
run or evaluated as often as one likes, and its nodes keep their sites.
-/

namespace Scriptlet

/-- Why a text or a tree was not run to its end. -/
inductive Failure where
  | parse (error : ParseError)
  | fault (fault : Fault)
  deriving Repr, BEq

namespace Failure

def ofParse : ParseFailure → Failure
  | .error e => .parse e
  | .tooDeep => .fault .tooDeep

def message : Failure → String
  | .parse e => e.message
  | .fault f => f.message

/-- Whether a failure is one that programs are expected to have: an error
of the language, or nesting without end. -/
def isProgramError : Failure → Bool
  | .parse _ => true
  | .fault (.eval _) => true
  | .fault .tooDeep => true
  | .fault _ => false

end Failure

/-- Statements that have been loaded, as the children of a site. -/
structure Program where
  site : Site
  statements : List Node

structure Session where
  setting : Setting
  machine : Machine
  /-- How many texts and trees have been loaded. -/
  units : Nat

abbrev Act (α : Type) : Type := Step Failure Session α

namespace Session

/-- A new session, which traces from level one on. -/
def start (lexical : Bool) (level : Int) (input : List Char) : Session where
  setting := ⟨lexical, level, nestingLimit, []⟩
  machine := Machine.initial (0 < level) input
  units := 0

/-- The site of a text or a tree that is loaded now. -/
def load : Act Site := fun s =>
  .done ⟨s.units, []⟩ { s with units := s.units + 1 }

/-- Runs an evaluation on the session's machine. -/
def perform {α : Type} (action : Setting → Eval α) : Act α := fun s =>
  match action s.setting s.machine with
  | .done value machine => .done value { s with machine }
  | .failed fault machine => .failed (.fault fault) { s with machine }

def parsed {α : Type} (result : Except ParseFailure α) : Act α :=
  Step.lift (result.mapError Failure.ofParse)

def loadProgram (source : String) : Act Program := do
  let limit := (← Step.get).setting.limit
  let statements ← parsed (parseProgram limit source)
  return ⟨← load, statements⟩

/-- Loads the first statement of a text. -/
def loadStatement (source : String) : Act Tree := do
  let limit := (← Step.get).setting.limit
  let node ← parsed (parseStatement limit source)
  return ⟨← load, node⟩

def loadNode (node : Node) : Act Tree := do
  return ⟨← load, node⟩

/-- Runs nodes that were loaded, in the order given. -/
def runTrees (trees : List Tree) (scope : ScopeId) : Act Value :=
  perform fun setting => Scriptlet.runTrees setting scope .nil trees

def runProgram (program : Program) (scope : ScopeId) : Act Value :=
  perform fun setting =>
    runStatements setting program.site scope program.statements

def evaluateTree (tree : Tree) (scope : ScopeId) : Act Value :=
  perform fun setting =>
    evaluate setting setting.limit tree.node tree.site scope

def runSource (source : String) (scope : ScopeId) : Act Value := do
  runProgram (← loadProgram source) scope

def evaluateSource (source : String) (scope : ScopeId) : Act Value := do
  evaluateTree (← loadStatement source) scope

/-- Loads statements as a program of their own, and runs it. -/
def runNodes (statements : List Node) (scope : ScopeId) : Act Value := do
  runProgram ⟨← load, statements⟩ scope

def evaluateNode (node : Node) (scope : ScopeId) : Act Value := do
  evaluateTree (← loadNode node) scope

/-- Binds a function of the host in the global scope. -/
def register (name : String) (arity : Option Int) (function : HostFunction) :
    Act Value := fun s =>
  let value := Value.builtin ⟨name, .host s.setting.host.length, arity⟩
  let setting := { s.setting with host := s.setting.host ++ [function] }
  let store :=
    s.machine.store.set Machine.globalScope (.text name) value
  .done value { s with setting, machine := { s.machine with store } }

def newScope (parent : ScopeId) : Act ScopeId :=
  perform fun _ => Eval.newScope parent

/-- Ends the trace. -/
def close (s : Session) : Session :=
  { s with machine := { s.machine with tracing := false } }

/-- Forgets what was printed and traced so far. -/
def clear (s : Session) : Session :=
  { s with machine := { s.machine with output := "", trace := #[] } }

end Session

end Scriptlet
