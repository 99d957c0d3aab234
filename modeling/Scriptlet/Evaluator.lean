import Scriptlet.Arithmetic
import Scriptlet.Machine

/-!
# Evaluation

Expressions are evaluated from left to right, the arguments of a call
before its callee is looked up. A call of a function runs its body in a new
scope, which is chained to the caller's scope or, under lexical scoping,
to the scope of the definition; extra arguments are dropped, and a missing
one leaves its parameter unbound.

Evaluation takes a bound on how deep nodes and calls may nest.
-/

namespace Scriptlet

/-! ## Functions from outside the language -/

def putLines : List Value → Eval (Option HostError)
  | [] => pure none
  | v :: rest =>
    match v.display? with
    | none => pure (some .integerTooLarge)
    | some text => do
      Eval.writeLine text
      putLines rest

/-- Calls a host function and counts the call. -/
def callHost (setting : Setting) (builtin : Builtin) (index : Nat)
    (args : List Value) : Eval Value := do
  let calls := (← Step.get).hostCalls
  Step.modify fun m => { m with hostCalls := m.hostCalls + 1 }
  match setting.host[index]? with
  | none => return .nil
  | some function =>
    match function calls args with
    | .value v => return v
    | .raised kind text =>
      Eval.failWith (.builtinFailed builtin.name (.raised kind text))
    | .textFailed kind text => Step.fail (.textFailed kind text)
    | .outOfMemory text => Step.fail (.outOfMemory text)

def callBuiltin (setting : Setting) (builtin : Builtin) (args : List Value) :
    Eval Value :=
  match builtin.arity with
  | some arity =>
    if arity = args.length then perform
    else
      Eval.failWith (.builtinFailed builtin.name
        (.arity builtin.name arity args.length))
  | none => perform
where
  perform : Eval Value :=
    match builtin.action with
    | .puts => do
      match ← putLines args with
      | none => return .nil
      | some error => Eval.failWith (.builtinFailed builtin.name error)
    | .gets => do
      match ← Eval.readLine with
      | some line => return .string line
      | none => return .nil
    | .host index => callHost setting builtin index args

/-! ## Calls -/

def resolveCallee (callee : Node) (scope : ScopeId) : Eval Value :=
  match callee with
  | .identifier json => do
    let name ← Eval.nameOf json
    if (← Step.get).store.contains scope name then Eval.lookup scope name
    else Eval.failWith (.undefinedFunction json)
  | other => Eval.failWith (.formNotCallable other.form)

/-- Binds parameters to arguments, as far as both go. -/
def bindParams (scope : ScopeId) : List Json → List Value → Eval Unit
  | param :: params, arg :: args => do
    let name ← Eval.nameOf param
    Eval.bind scope name arg
    bindParams scope params args
  | _, _ => pure ()

/-! ## Nodes -/

/-- Evaluates a row of nodes, numbered from `index` on, to their values. -/
def evalEach (eval : Nat → Node → Eval Value) (index : Nat) :
    List Node → Eval (List Value)
  | [] => pure []
  | node :: rest => do
    let v ← eval index node
    let vs ← evalEach eval (index + 1) rest
    return v :: vs

/-- Evaluates a row of nodes, numbered from `index` on, to the value of the
last one; `last` is the value so far. -/
def evalLast (eval : Nat → Node → Eval Value) (index : Nat) (last : Value) :
    List Node → Eval Value
  | [] => pure last
  | node :: rest => do
    let v ← eval index node
    evalLast eval (index + 1) v rest

/-- Evaluates a node, which stands at `site`, in a scope. The first number
bounds the nesting. -/
def evaluate (setting : Setting) : Nat → Node → Site → ScopeId → Eval Value
  | 0, _, _, _ => Step.fail .tooDeep
  | limit + 1, node, site, scope =>
    match node with
    | .number text => Step.lift (evalLiteral text)
    | .identifier json => do
      let name ← Eval.nameOf json
      Eval.lookup scope name
    | .binary operator left right => do
      let a ← evaluate setting limit left (site.child 0) scope
      let b ← evaluate setting limit right (site.child 1) scope
      Step.lift (applyOperator operator a b)
    | .assign json value => do
      let v ← evaluate setting limit value (site.child 0) scope
      let name ← Eval.nameOf json
      Eval.bind scope name v
      let depth := (← Step.get).store.depth scope
      Eval.record setting 2 fun _ => do
        return .assign json.display (← traceValue v) depth
      return v
    | .define json params body => do
      let f := Value.function ⟨json, params, body, scope, site⟩
      let name ← Eval.nameOf json
      Eval.bind scope name f
      Eval.record setting 2 fun _ => do
        return .define json.display (← traceParams 0 params)
      return f
    | .call callee args => do
      let vs ← evalEach
        (fun i arg => evaluate setting limit arg (site.child i) scope) 0 args
      let f ← resolveCallee callee scope
      Eval.record setting 3 fun _ => do
        return .call f.inspect (← traceValues vs)
      let v ←
        match f with
        | .function c => do
          let frame ← Eval.newScope (if setting.lexical then c.scope else scope)
          bindParams frame c.params vs
          evalLast
            (fun i s => evaluate setting limit s (c.site.child i) frame)
            0 .nil c.body
        | .builtin b => callBuiltin setting b vs
        | other => Eval.failWith (.valueNotCallable other.typeName)
      Eval.record setting 3 fun _ => do
        return .leave f.inspect (← traceValue v)
      return v
    | .sequence items =>
      Step.fail (.refused (.evaluation (Node.sequence items).form))

/-- A node that has been loaded, by itself or as a part of something, with the
site where it stands. -/
structure Tree where
  site : Site
  node : Node

/-- The nodes of a row below a site. -/
def Tree.row (site : Site) (nodes : List Node) : List Tree :=
  nodes.zipIdx.map fun entry => ⟨site.child entry.2, entry.1⟩

/-- Evaluates a node as a statement, and traces it. -/
def runStatement (setting : Setting) (scope : ScopeId) (tree : Tree) :
    Eval Value := do
  let v ← evaluate setting setting.limit tree.node tree.site scope
  Eval.record setting 1 fun _ => do
    return .statement tree.node.form (← traceValue v)
  return v

/-- Runs nodes as statements, wherever they stand; the value is that of the
last one. -/
def runTrees (setting : Setting) (scope : ScopeId) (last : Value) :
    List Tree → Eval Value
  | [] => pure last
  | tree :: rest => do
    let v ← runStatement setting scope tree
    runTrees setting scope v rest

/-- Runs the statements of a program, which are the children of `site`. -/
def runStatements (setting : Setting) (site : Site) (scope : ScopeId)
    (statements : List Node) : Eval Value :=
  runTrees setting scope .nil (Tree.row site statements)

end Scriptlet
