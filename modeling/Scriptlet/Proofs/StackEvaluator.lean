import Scriptlet.Evaluator

/-!
# Evaluation on a stack

Under dynamic scoping the places where a name can be found are those of the
calls that are under way. This module evaluates programs with nothing else:
the environment is a row of dictionaries, the innermost first, and a call
of a function puts one on top, which is taken off when the call ends, with
a value or not. There are no scopes that outlive a call and nothing refers
to a dictionary, so a function is its definition alone.

`DynamicScoping` compares `evaluate` with this. Shared between the two is
what has nothing to do with scopes: literals, operators, how values are
shown, and the events of a trace.
-/

namespace Scriptlet

/-! ## Values and dictionaries -/

/-- A definition of a program, at its site. -/
structure Definition where
  name : Json
  params : List Json
  body : List Node
  site : Site

inductive StackValue where
  | nil
  | boolean (value : Bool)
  | number (value : Float)
  | integer (value : Int)
  | string (value : String)
  | function (definition : Definition)
  | builtin (builtin : Builtin)
  | foreign (object : Foreign)

namespace StackValue

/-- A value without the scope that it may carry. -/
def ofValue : Value → StackValue
  | .nil => .nil
  | .boolean b => .boolean b
  | .number x => .number x
  | .integer n => .integer n
  | .string s => .string s
  | .function c => .function ⟨c.name, c.params, c.body, c.site⟩
  | .builtin b => .builtin b
  | .foreign object => .foreign object

/-- The value as operators, traces and the host see it. A function is given
the global scope. -/
def toValue : StackValue → Value
  | .nil => .nil
  | .boolean b => .boolean b
  | .number x => .number x
  | .integer n => .integer n
  | .string s => .string s
  | .function d =>
    .function ⟨d.name, d.params, d.body, Machine.globalScope, d.site⟩
  | .builtin b => .builtin b
  | .foreign object => .foreign object

end StackValue

/-- The bindings of one call, or the global ones. -/
abbrev Dictionary := List (Name × StackValue)

/-- Sets a name's value; a name that is bound already keeps its place. -/
def Dictionary.set : Dictionary → Name → StackValue → Dictionary
  | [], name, value => [(name, value)]
  | (n, v) :: rest, name, value =>
    if n == name then (n, value) :: rest
    else (n, v) :: Dictionary.set rest name value

structure StackMachine where
  /-- The dictionaries of the calls that are under way, the innermost
  first, and the global one at the end. -/
  stack : List Dictionary
  input : List Char
  output : String
  trace : Array Event
  tracing : Bool
  hostCalls : Nat

abbrev StackEval (α : Type) : Type := Step Fault StackMachine α

namespace Stack

/-! ## Steps -/

def nameOf (json : Json) : StackEval Name :=
  match Name.ofJson? json with
  | some name => pure name
  | none => Step.fail (.unhashable json.typeName)

/-- The value of a name in the innermost dictionary that has it. -/
def find? (stack : List Dictionary) (name : Name) : Option StackValue :=
  stack.findSome? (·.lookup name)

def bind (name : Name) (value : StackValue) : StackEval Unit :=
  Step.modify fun m =>
    match m.stack with
    | [] => m
    | top :: rest => { m with stack := Dictionary.set top name value :: rest }

/-- Does something with a new dictionary on top, and takes it off
afterwards, also when a fault ends it. -/
def inFrame {α : Type} (action : StackEval α) : StackEval α := fun m =>
  match action { m with stack := [] :: m.stack } with
  | .done value m' => .done value { m' with stack := m'.stack.tail }
  | .failed fault m' => .failed fault { m' with stack := m'.stack.tail }

def writeLine (text : String) : StackEval Unit :=
  Step.modify fun m => { m with output := m.output ++ text ++ "\n" }

def readLine : StackEval (Option String) := fun m =>
  match Text.readLine? m.input with
  | none => .done none m
  | some (line, rest) =>
    .done (some (String.ofList line)) { m with input := rest }

def record (setting : Setting) (required : Int)
    (event : Unit → Except Fault Event) : StackEval Unit :=
  if required ≤ setting.level then do
    let e ← Step.lift (event ())
    Step.modify fun m =>
      if m.tracing then { m with trace := m.trace.push e } else m
  else pure ()

/-! ## Functions from outside the language -/

def putLines : List StackValue → StackEval (Option HostError)
  | [] => pure none
  | v :: rest =>
    match v.toValue.display? with
    | none => pure (some .integerTooLarge)
    | some text => do
      writeLine text
      putLines rest

def callHost (setting : Setting) (builtin : Builtin) (index : Nat)
    (args : List StackValue) : StackEval StackValue := do
  let calls := (← Step.get).hostCalls
  Step.modify fun m => { m with hostCalls := m.hostCalls + 1 }
  match setting.host[index]? with
  | none => return .nil
  | some function =>
    match function calls (args.map (·.toValue)) with
    | .value v => return .ofValue v
    | .raised kind text =>
      Step.fail (.eval (.builtinFailed builtin.name (.raised kind text)))
    | .textFailed kind text => Step.fail (.textFailed kind text)
    | .outOfMemory text => Step.fail (.outOfMemory text)

def perform (setting : Setting) (builtin : Builtin) (args : List StackValue) :
    StackEval StackValue :=
  match builtin.action with
  | .puts => do
    match ← putLines args with
    | none => return .nil
    | some error => Step.fail (.eval (.builtinFailed builtin.name error))
  | .gets => do
    match ← readLine with
    | some line => return .string line
    | none => return .nil
  | .host index => callHost setting builtin index args

def callBuiltin (setting : Setting) (builtin : Builtin)
    (args : List StackValue) : StackEval StackValue :=
  match builtin.arity with
  | some arity =>
    if arity = args.length then perform setting builtin args
    else
      Step.fail (.eval (.builtinFailed builtin.name
        (.arity builtin.name arity args.length)))
  | none => perform setting builtin args

/-! ## Calls -/

def resolveCallee : Node → StackEval StackValue
  | .identifier json => do
    let name ← nameOf json
    match find? (← Step.get).stack name with
    | some f => return f
    | none => Step.fail (.eval (.undefinedFunction json))
  | other => Step.fail (.eval (.formNotCallable other.form))

def bindParams : List Json → List StackValue → StackEval Unit
  | param :: params, arg :: args => do
    let name ← nameOf param
    bind name arg
    bindParams params args
  | _, _ => pure ()

def evalEach (eval : Nat → Node → StackEval StackValue) (index : Nat) :
    List Node → StackEval (List StackValue)
  | [] => pure []
  | node :: rest => do
    let v ← eval index node
    let vs ← evalEach eval (index + 1) rest
    return v :: vs

def evalLast (eval : Nat → Node → StackEval StackValue) (index : Nat)
    (last : StackValue) : List Node → StackEval StackValue
  | [] => pure last
  | node :: rest => do
    let v ← eval index node
    evalLast eval (index + 1) v rest

/-- Calls a value with arguments; `eval` evaluates the statements of a
function. -/
def callValue (setting : Setting) (eval : Node → Site → StackEval StackValue)
    (f : StackValue) (vs : List StackValue) : StackEval StackValue :=
  match f with
  | .function d => inFrame do
    bindParams d.params vs
    evalLast (fun i s => eval s (d.site.child i)) 0 .nil d.body
  | .builtin b => callBuiltin setting b vs
  | other => Step.fail (.eval (.valueNotCallable other.toValue.typeName))

/-! ## Nodes -/

/-- Evaluates a node with the stack at hand. The first number bounds the
nesting. -/
def evaluate (setting : Setting) : Nat → Node → Site → StackEval StackValue
  | 0, _, _ => Step.fail .tooDeep
  | limit + 1, node, site =>
    match node with
    | .number text => Step.lift ((evalLiteral text).map .ofValue)
    | .identifier json => do
      let name ← nameOf json
      return (find? (← Step.get).stack name).getD .nil
    | .binary operator left right => do
      let a ← evaluate setting limit left (site.child 0)
      let b ← evaluate setting limit right (site.child 1)
      Step.lift ((applyOperator operator a.toValue b.toValue).map .ofValue)
    | .assign json value => do
      let v ← evaluate setting limit value (site.child 0)
      let name ← nameOf json
      bind name v
      let depth := (← Step.get).stack.length - 1
      record setting 2 fun _ => do
        return .assign json.display (← traceValue v.toValue) depth
      return v
    | .define json params body => do
      let f := StackValue.function ⟨json, params, body, site⟩
      let name ← nameOf json
      bind name f
      record setting 2 fun _ => do
        return .define json.display (← traceParams 0 params)
      return f
    | .call callee args => do
      let vs ← evalEach
        (fun i arg => evaluate setting limit arg (site.child i)) 0 args
      let f ← resolveCallee callee
      record setting 3 fun _ => do
        return .call f.toValue.inspect (← traceValues (vs.map (·.toValue)))
      let v ← callValue setting
        (fun node site => evaluate setting limit node site) f vs
      record setting 3 fun _ => do
        return .leave f.toValue.inspect (← traceValue v.toValue)
      return v
    | .sequence items =>
      Step.fail (.refused (.evaluation (Node.sequence items).form))

def runStatements (setting : Setting) (site : Site)
    (statements : List Node) : StackEval StackValue :=
  evalLast
    (fun i statement => do
      let v ← evaluate setting setting.limit statement (site.child i)
      record setting 1 fun _ => do
        return .statement statement.form (← traceValue v.toValue)
      return v)
    0 .nil statements

end Stack

end Scriptlet
