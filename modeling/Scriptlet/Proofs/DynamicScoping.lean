import Mathlib
import Scriptlet.Proofs.Chains
import Scriptlet.Proofs.StackEvaluator

/-!
# Dynamic scoping is a stack

Under dynamic scoping the chain of scopes that starts at the scope at hand
is the stack of the calls that are under way. `Machine.onStack` reads a
machine in this way, and evaluation on a stack is what evaluation on the
store looks like through it (`mirrorLaw`), step by step and whether it
returns or fails: a call makes a scope in front of the caller's chain,
which is a dictionary on top of the stack, and when the call ends the
caller's chain is what lies below.

The scopes of calls that have ended stay in the store, and functions that
were made in them refer to them, but the chain of a call that is under way
never leads there.
-/

namespace Scriptlet

/-! ## Values without scopes -/

/-- The value with the global scope in place of the scope that it may
carry. -/
def Value.unscoped (v : Value) : Value := (StackValue.ofValue v).toValue

theorem StackValue.toValue_ofValue (v : Value) :
    (StackValue.ofValue v).toValue = v.unscoped := rfl

theorem StackValue.map_toValue (vs : List Value) :
    (vs.map StackValue.ofValue).map (·.toValue) = vs.map Value.unscoped :=
  List.map_map

namespace Value

theorem ofValue_unscoped (v : Value) :
    StackValue.ofValue v.unscoped = StackValue.ofValue v := by
  cases v <;> rfl

@[simp] theorem display?_unscoped (v : Value) :
    v.unscoped.display? = v.display? := by
  cases v <;> rfl

@[simp] theorem inspect_unscoped (v : Value) :
    v.unscoped.inspect = v.inspect := by
  cases v <;> rfl

@[simp] theorem typeName_unscoped (v : Value) :
    v.unscoped.typeName = v.typeName := by
  cases v <;> rfl

@[simp] theorem isNumber_unscoped (v : Value) :
    v.unscoped.isNumber = v.isNumber := by
  cases v <;> rfl

@[simp] theorem toFloat?_unscoped (v : Value) :
    v.unscoped.toFloat? = v.toFloat? := by
  cases v <;> rfl

end Value

@[simp] theorem traceValue_unscoped (v : Value) :
    traceValue v.unscoped = traceValue v := by
  simp [traceValue]

@[simp] theorem traceValues_unscoped (vs : List Value) :
    traceValues (vs.map Value.unscoped) = traceValues vs := by
  induction vs with
  | nil => rfl
  | cons v rest ih => simp [traceValues, ih]

/-- Operators do not look at scopes. -/
@[simp] theorem applyOperator_unscoped (operator : Json) (a b : Value) :
    applyOperator operator a.unscoped b.unscoped =
      applyOperator operator a b := by
  simp [applyOperator, operand]

/-- Two answers of the host are the same but for the scope of a function
that they may bring. -/
inductive HostAnswer.Alike : HostAnswer → HostAnswer → Prop
  | value {v w : Value} : StackValue.ofValue v = .ofValue w →
      Alike (.value v) (.value w)
  | raised (kind text : String) : Alike (.raised kind text) (.raised kind text)
  | textFailed (kind text : String) :
      Alike (.textFailed kind text) (.textFailed kind text)
  | outOfMemory (text : String) : Alike (.outOfMemory text) (.outOfMemory text)

/-- The functions of the host do not look at the scopes of their
arguments. -/
def Setting.HostIgnoresScopes (setting : Setting) : Prop :=
  ∀ function ∈ setting.host, ∀ calls args,
    (function calls args).Alike (function calls (args.map Value.unscoped))

/-! ## Machines as stacks -/

def Scope.dictionary (scope : Scope) : Dictionary :=
  scope.bindings.map fun b => (b.1, .ofValue b.2)

theorem Scope.lookup_dictionary (scope : Scope) (name : Name) :
    scope.dictionary.lookup name = (scope.get? name).map .ofValue := by
  unfold dictionary get?
  induction scope.bindings with
  | nil => rfl
  | cons b rest ih =>
      obtain ⟨n, v⟩ := b
      by_cases h : name = n
      · simp [h]
      · simp [List.lookup_cons, ih, beq_false_of_ne h]

theorem Scope.dictionary_set (scope : Scope) (name : Name) (value : Value) :
    (scope.set name value).dictionary =
      Dictionary.set scope.dictionary name (.ofValue value) := by
  unfold dictionary set
  dsimp only
  induction scope.bindings with
  | nil => rfl
  | cons b rest ih =>
      obtain ⟨n, v⟩ := b
      by_cases h : n = name
      · simp [setIn, Dictionary.set, h]
      · simp [setIn, Dictionary.set, h, ih]

namespace Store

def dictionary (store : Store) (id : ScopeId) : Dictionary :=
  ((store.scope? id).map Scope.dictionary).getD []

/-- The scopes from one outward, as dictionaries. -/
def stack (store : Store) (scope : ScopeId) : List Dictionary :=
  (store.chain scope).map store.dictionary

theorem find?_stack (store : Store) (scope : ScopeId) (name : Name) :
    Stack.find? (store.stack scope) name =
      ((store.chain scope).findSome? (store.bound? name)).map .ofValue := by
  unfold Stack.find? stack
  induction store.chain scope with
  | nil => rfl
  | cons id rest ih =>
      have hlookup : (store.dictionary id).lookup name =
          (store.bound? name id).map .ofValue := by
        unfold dictionary bound?
        cases store.scope? id with
        | none => rfl
        | some s => exact s.lookup_dictionary name
      rw [List.map_cons, List.findSome?_cons, List.findSome?_cons, hlookup]
      cases store.bound? name id with
      | none => exact ih
      | some v => rfl

theorem dictionary_congr {a b : Store} {id : ScopeId}
    (h : b.scope? id = a.scope? id) : b.dictionary id = a.dictionary id := by
  unfold dictionary
  rw [h]

/-- Binding a name in the scope at hand binds it in the dictionary on
top. -/
theorem stack_set (store : Store) {scope : ScopeId}
    (h : scope < store.size) (name : Name) (value : Value) :
    ∃ top rest, store.stack scope = top :: rest ∧
      (store.set scope name value).stack scope =
        Dictionary.set top name (.ofValue value) :: rest := by
  obtain ⟨older, hchain, holder⟩ := store.chain_eq_cons scope
  have hframe : Frame scope (fun _ => True) store
      (store.set scope name value) := frame_set store scope value trivial
  have hkept := hframe.chain_eq h
  obtain ⟨s, hs⟩ : ∃ s, store.scope? scope = some s :=
    ⟨_, Array.getElem?_eq_getElem h⟩
  refine ⟨store.dictionary scope, older.map store.dictionary, ?_, ?_⟩
  · rw [stack, hchain, List.map_cons]
  · rw [stack, hkept, hchain, List.map_cons]
    congr 1
    · simp only [dictionary, scope?_set, hs, if_true, Option.map_some,
        Option.getD_some]
      exact s.dictionary_set name value
    · refine List.map_congr_left fun i hi => dictionary_congr ?_
      rw [scope?_set, if_neg (Nat.ne_of_gt (holder i hi))]

/-- A new scope is an empty dictionary on top. -/
theorem stack_add (store : Store) {parent : ScopeId}
    (h : parent < store.size) :
    (store.add (some parent)).2.stack store.size =
      [] :: store.stack parent := by
  rw [stack, chain_add store h, List.map_cons]
  congr 1
  · simp [dictionary, add, scope?, size, Scope.dictionary]
  · refine List.map_congr_left fun i hi => dictionary_congr (scope?_add ?_)
    exact Nat.lt_of_le_of_lt (le_of_mem_chain hi) h

end Store

/-- The machine with the chain from a scope on as its stack. -/
def Machine.onStack (scope : ScopeId) (m : Machine) : StackMachine where
  stack := m.store.stack scope
  input := m.input
  output := m.output
  trace := m.trace
  tracing := m.tracing
  hostCalls := m.hostCalls

/-! ## Mirrored actions -/

def Outcome.view {ε σ τ α β : Type} (f : α → β) (g : σ → τ) :
    Outcome ε σ α → Outcome ε τ β
  | .done a s => .done (f a) (g s)
  | .failed e s => .failed e (g s)

/-- From a machine in which the scope exists, the action does on the store
what its mirror does on the stack. -/
def Mirrors {α β : Type} (scope : ScopeId) (view : α → β) (action : Eval α)
    (mirror : StackEval β) (m : Machine) : Prop :=
  scope < m.store.size →
    mirror (m.onStack scope) = (action m).view view (·.onStack scope) ∧
      scope < (action m).state.store.size

namespace Mirrors

variable {α β α' β' : Type} {scope : ScopeId} {f : α → β} {g : α' → β'}
  {m : Machine}

theorem pure {a : α} {b : β} (h : f a = b) :
    Mirrors scope f (Pure.pure a) (Pure.pure b) m := by
  intro hscope
  subst h
  exact ⟨rfl, hscope⟩

theorem fail (fault : Fault) :
    Mirrors scope f (Step.fail fault) (Step.fail fault) m :=
  fun hscope => ⟨rfl, hscope⟩

theorem lift {result : Except Fault α} {result' : Except Fault β}
    (h : result' = result.map f) :
    Mirrors scope f (Step.lift result) (Step.lift result') m := by
  subst h
  cases result <;> exact fun hscope => ⟨rfl, hscope⟩

theorem bind {action : Eval α} {mirror : StackEval β} {next : α → Eval α'}
    {next' : β → StackEval β'} (h : Mirrors scope f action mirror m)
    (hnext : ∀ a m', Mirrors scope g (next a) (next' (f a)) m') :
    Mirrors scope g (action >>= next) (mirror >>= next') m := by
  intro hscope
  obtain ⟨heq, hlt⟩ := h hscope
  rw [Step.bind_apply, heq, Step.bind_apply]
  cases ha : action m with
  | done a m₁ =>
      rw [ha] at hlt
      exact hnext a m₁ hlt
  | failed fault m₁ =>
      rw [ha] at hlt
      exact ⟨rfl, hlt⟩

theorem get_bind {next : Machine → Eval α'}
    {next' : StackMachine → StackEval β'}
    (h : Mirrors scope g (next m) (next' (m.onStack scope)) m) :
    Mirrors scope g (Step.get >>= next) (Step.get >>= next') m := h

theorem nameOf (json : Json) :
    Mirrors scope id (Eval.nameOf json) (Stack.nameOf json) m := by
  unfold Eval.nameOf Stack.nameOf
  cases Name.ofJson? json with
  | none => exact fail _
  | some name => exact pure rfl

theorem bindName (name : Name) (value : Value) :
    Mirrors scope id (Eval.bind scope name value)
      (Stack.bind name (.ofValue value)) m := by
  intro hscope
  obtain ⟨top, rest, hstack, hset⟩ := m.store.stack_set hscope name value
  refine ⟨?_, ?_⟩
  · simp only [Stack.bind, Eval.bind, Step.modify_apply, Machine.onStack,
      hstack, Outcome.view, hset, id]
  · exact Nat.lt_of_lt_of_eq hscope (m.store.size_set scope name value).symm

theorem record (setting : Setting) (required : Int)
    {event event' : Unit → Except Fault Event} (h : event' () = event ()) :
    Mirrors scope id (Eval.record setting required event)
      (Stack.record setting required event') m := by
  unfold Eval.record Stack.record
  split
  · rw [h]
    refine bind (f := id) (lift ?_) fun e m₁ hscope => ?_
    · cases event () <;> rfl
    · simp only [Step.modify_apply, Machine.onStack, Outcome.view,
        Outcome.state, id]
      split <;> exact ⟨rfl, hscope⟩
  · exact pure rfl

theorem evalEach {eval : Nat → Node → Eval Value}
    {eval' : Nat → Node → StackEval StackValue}
    (h : ∀ i node m, Mirrors scope StackValue.ofValue (eval i node)
      (eval' i node) m) (index : Nat) (nodes : List Node) (m : Machine) :
    Mirrors scope (List.map StackValue.ofValue)
      (Scriptlet.evalEach eval index nodes)
      (Stack.evalEach eval' index nodes) m := by
  induction nodes generalizing index m with
  | nil => exact pure rfl
  | cons node rest ih =>
      refine bind (h index node m) fun v m₁ => ?_
      refine bind (ih (index + 1) m₁) fun vs m₂ => ?_
      exact pure rfl

theorem evalLast {eval : Nat → Node → Eval Value}
    {eval' : Nat → Node → StackEval StackValue}
    (h : ∀ i node m, Mirrors scope StackValue.ofValue (eval i node)
      (eval' i node) m) (index : Nat) (last : Value) (nodes : List Node)
    (m : Machine) :
    Mirrors scope StackValue.ofValue
      (Scriptlet.evalLast eval index last nodes)
      (Stack.evalLast eval' index (.ofValue last) nodes) m := by
  induction nodes generalizing index last m with
  | nil => exact pure rfl
  | cons node rest ih =>
      refine bind (h index node m) fun v m₁ => ?_
      exact ih (index + 1) v m₁

end Mirrors

/-! ## Functions from outside the language -/

section

variable {scope : ScopeId} {m : Machine}

theorem mirrors_putLines (vs : List Value) :
    Mirrors scope id (putLines vs)
      (Stack.putLines (vs.map StackValue.ofValue)) m := by
  induction vs generalizing m with
  | nil => exact .pure rfl
  | cons v rest ih =>
      unfold putLines
      rw [List.map_cons, Stack.putLines, StackValue.toValue_ofValue,
        Value.display?_unscoped]
      cases v.display? with
      | none => exact .pure rfl
      | some text =>
          have hwrite : Mirrors scope id (Eval.writeLine text)
              (Stack.writeLine text) m := fun hscope => ⟨rfl, hscope⟩
          exact .bind hwrite fun _ m₁ => ih

theorem mirrors_readLine :
    Mirrors scope id Eval.readLine Stack.readLine m := by
  intro hscope
  unfold Eval.readLine Stack.readLine
  simp only [Machine.onStack]
  cases Text.readLine? m.input <;> exact ⟨rfl, hscope⟩

theorem mirrors_callHost {setting : Setting}
    (hhost : setting.HostIgnoresScopes) (b : Builtin) (index : Nat)
    (vs : List Value) :
    Mirrors scope StackValue.ofValue (callHost setting b index vs)
      (Stack.callHost setting b index (vs.map StackValue.ofValue)) m := by
  intro hscope
  unfold callHost Stack.callHost
  simp only [Step.bind_apply, Step.get_apply, Step.modify_apply,
    Machine.onStack, StackValue.map_toValue]
  cases hfun : setting.host[index]? with
  | none => exact ⟨rfl, hscope⟩
  | some function =>
      have hsame := hhost function (List.mem_of_getElem? hfun) m.hostCalls vs
      dsimp only
      generalize function m.hostCalls vs = answer at hsame ⊢
      generalize function m.hostCalls (vs.map Value.unscoped) = answer'
        at hsame ⊢
      cases hsame with
      | value heq => exact ⟨congrArg (Outcome.done · _) heq.symm, hscope⟩
      | raised _ _ | textFailed _ _ | outOfMemory _ => exact ⟨rfl, hscope⟩

theorem mirrors_callBuiltin {setting : Setting}
    (hhost : setting.HostIgnoresScopes) (b : Builtin) (vs : List Value) :
    Mirrors scope StackValue.ofValue (callBuiltin setting b vs)
      (Stack.callBuiltin setting b (vs.map StackValue.ofValue)) m := by
  have hperform : Mirrors scope StackValue.ofValue
      (callBuiltin.perform setting b vs)
      (Stack.perform setting b (vs.map StackValue.ofValue)) m := by
    unfold callBuiltin.perform Stack.perform
    cases b.action with
    | puts =>
        refine .bind (mirrors_putLines vs) fun error m₁ => ?_
        cases error with
        | none => exact .pure rfl
        | some error => exact .fail _
    | gets =>
        refine .bind mirrors_readLine fun line m₁ => ?_
        cases line <;> exact .pure rfl
    | host index => exact mirrors_callHost hhost b index vs
  unfold callBuiltin Stack.callBuiltin
  rw [List.length_map]
  cases b.arity with
  | none => exact hperform
  | some arity =>
      dsimp only
      split
      · exact hperform
      · exact .fail _

/-! ## Calls -/

theorem mirrors_resolveCallee (callee : Node) :
    Mirrors scope StackValue.ofValue (resolveCallee callee scope)
      (Stack.resolveCallee callee) m := by
  cases callee with
  | identifier json =>
      refine .bind (.nameOf json) fun name m₁ hscope => ?_
      have hget := m₁.store.get_eq scope name
      rw [Step.bind_apply, Step.bind_apply, Step.get_apply, Step.get_apply]
      simp only [Machine.onStack, id, Store.find?_stack, Store.contains_eq]
      cases hfound : (m₁.store.chain scope).findSome?
          (m₁.store.bound? name) with
      | none => exact ⟨rfl, hscope⟩
      | some f =>
          rw [hfound] at hget
          exact ⟨congrArg (fun v => Outcome.done (StackValue.ofValue v) _)
            hget.symm, hscope⟩
  | _ => exact .fail _

theorem mirrors_bindParams (params : List Json) (vs : List Value) :
    Mirrors scope id (bindParams scope params vs)
      (Stack.bindParams params (vs.map StackValue.ofValue)) m := by
  induction params generalizing vs m with
  | nil => exact .pure rfl
  | cons param params ih =>
      cases vs with
      | nil => exact .pure rfl
      | cons v vs =>
          refine .bind (.nameOf param) fun name m₁ => ?_
          exact .bind (.bindName name v) fun _ m₂ => ih vs

end

/-- Every evaluation that nests at most `limit` deep is mirrored on the
stack. -/
def MirrorLaw (setting : Setting) (limit : Nat) : Prop :=
  ∀ (node : Node) (site : Site) (scope : ScopeId) (m : Machine),
    Mirrors scope StackValue.ofValue (evaluate setting limit node site scope)
      (Stack.evaluate setting limit node site) m

section

variable {setting : Setting} {limit : Nat} {scope : ScopeId} {m : Machine}

theorem Machine.onStack_push (hscope : scope < m.store.size) :
    (m.push scope).onStack m.store.size =
      { m.onStack scope with stack := [] :: (m.onStack scope).stack } := by
  simp only [Machine.onStack, Machine.push, m.store.stack_add hscope]

/-- When a call has ended, the caller's stack is what lies below the
dictionary of the call. -/
theorem Machine.onStack_pop {frame : ScopeId}
    (h : m.store.chain frame = frame :: m.store.chain scope) :
    { m.onStack frame with stack := (m.onStack frame).stack.tail } =
      m.onStack scope := by
  simp only [Machine.onStack, Store.stack, h, List.map_cons, List.tail_cons]

/-- What is done in a new scope in front of the caller's chain is done with
a dictionary on top of the caller's stack. -/
theorem Mirrors.inFrame {α β : Type} {view : α → β} {action : Eval α}
    {mirror : StackEval β} (hscope : scope < m.store.size)
    (hmirror : Mirrors m.store.size view action mirror (m.push scope))
    (hwithin : Within m.store.size (fun _ => True) action (m.push scope)) :
    Stack.inFrame mirror (m.onStack scope) =
        (action (m.push scope)).view view (·.onStack scope) ∧
      scope < (action (m.push scope)).state.store.size := by
  have hsize := m.size_lt_push scope
  have hscope' := Nat.lt_trans hscope hsize
  have hframe := hwithin.frame
  have hadd := Store.frame_add m.store (some scope) scope fun _ => True
  -- The action leaves the parents alone, so the new scope still stands in
  -- front of the caller's chain when it has ended.
  have hchain : (action (m.push scope)).state.store.chain m.store.size =
      m.store.size :: (action (m.push scope)).state.store.chain scope := by
    calc (action (m.push scope)).state.store.chain m.store.size
      _ = (m.push scope).store.chain m.store.size := hframe.chain_eq hsize
      _ = m.store.size :: m.store.chain scope := m.store.chain_add hscope
      _ = m.store.size :: (m.push scope).store.chain scope := by
          rw [← hadd.chain_eq hscope]
          rfl
      _ = m.store.size :: (action (m.push scope)).state.store.chain scope := by
          rw [hframe.chain_eq hscope']
  obtain ⟨heq, -⟩ := hmirror hsize
  refine ⟨?_, Nat.lt_of_lt_of_le hscope' hframe.size_le⟩
  unfold Stack.inFrame
  rw [← Machine.onStack_push hscope, heq]
  cases haction : action (m.push scope) with
  | done a m₁ =>
      rw [haction] at hchain
      exact congrArg (Outcome.done (view a)) (Machine.onStack_pop hchain)
  | failed fault m₁ =>
      rw [haction] at hchain
      exact congrArg (Outcome.failed fault) (Machine.onStack_pop hchain)

theorem mirrors_runBody (law : MirrorLaw setting limit) (c : Closure)
    (frame : ScopeId) (m : Machine) :
    Mirrors frame StackValue.ofValue (runBody setting limit c frame)
      (Stack.evalLast
        (fun i s => Stack.evaluate setting limit s (c.site.child i)) 0 .nil
        c.body) m :=
  .evalLast (fun i s => law s (c.site.child i) frame) 0 .nil c.body m

theorem mirrors_callValue (hlexical : setting.lexical = false)
    (hhost : setting.HostIgnoresScopes) (law : MirrorLaw setting limit)
    (f : Value) (vs : List Value) :
    Mirrors scope StackValue.ofValue (callValue setting limit f vs scope)
      (Stack.callValue setting
        (fun node site => Stack.evaluate setting limit node site)
        (.ofValue f) (vs.map StackValue.ofValue)) m := by
  cases f with
  | function c =>
      intro hscope
      have hparent : (if setting.lexical then c.scope else scope) = scope := by
        rw [hlexical]
        rfl
      rw [callValue_function, hparent]
      refine Mirrors.inFrame hscope ?_ (within_inCall ..)
      exact .bind (mirrors_bindParams c.params vs)
        fun _ m₁ => mirrors_runBody law c m.store.size m₁
  | builtin b => exact mirrors_callBuiltin hhost b vs
  | _ => exact .fail _

/-! ## Evaluation -/

theorem mirrors_assign (law : MirrorLaw setting limit) (json : Json)
    (value : Node) (site : Site) :
    Mirrors scope StackValue.ofValue
      (evaluate setting (limit + 1) (.assign json value) site scope)
      (Stack.evaluate setting (limit + 1) (.assign json value) site) m := by
  rw [evaluate, Stack.evaluate]
  refine .bind (law value (site.child 0) scope m) fun v m₁ => ?_
  refine .bind (.nameOf json) fun name m₂ => ?_
  refine .bind (.bindName name v) fun _ m₃ => ?_
  have hdepth : (m₃.onStack scope).stack.length = (m₃.store.chain scope).length :=
    List.length_map _
  refine .get_bind (.bind (.record setting 2 ?_) fun _ m₄ => .pure rfl)
  simp only [Store.depth, hdepth, StackValue.toValue_ofValue,
    traceValue_unscoped]

theorem mirrors_define (json : Json) (params : List Json) (body : List Node)
    (site : Site) :
    Mirrors scope StackValue.ofValue
      (evaluate setting (limit + 1) (.define json params body) site scope)
      (Stack.evaluate setting (limit + 1) (.define json params body) site)
      m := by
  rw [evaluate, Stack.evaluate]
  refine .bind (.nameOf json) fun name m₁ => ?_
  refine .bind (.bindName name _) fun _ m₂ => ?_
  exact .bind (.record setting 2 rfl) fun _ m₃ => .pure rfl

theorem mirrors_call (hlexical : setting.lexical = false)
    (hhost : setting.HostIgnoresScopes) (law : MirrorLaw setting limit)
    (callee : Node) (args : List Node) (site : Site) :
    Mirrors scope StackValue.ofValue
      (evaluate setting (limit + 1) (.call callee args) site scope)
      (Stack.evaluate setting (limit + 1) (.call callee args) site) m := by
  rw [evaluate_call, Stack.evaluate]
  simp only [prepareCall, evalArgs, Step.bind_assoc, Step.pure_bind]
  refine .bind (.evalEach (fun i arg => law arg (site.child i) scope) 0 args m)
    fun vs m₁ => ?_
  refine .bind (mirrors_resolveCallee callee) fun f m₂ => ?_
  refine .bind (.record setting 3 ?_) fun _ m₃ => ?_
  · simp only [StackValue.map_toValue, StackValue.toValue_ofValue,
      Value.inspect_unscoped, traceValues_unscoped]
  refine .bind (mirrors_callValue hlexical hhost law f vs) fun v m₄ => ?_
  refine .bind (.record setting 3 ?_) fun _ m₅ => .pure rfl
  simp only [StackValue.toValue_ofValue, Value.inspect_unscoped,
    traceValue_unscoped]

/-- Under dynamic scoping every evaluation is mirrored on the stack. -/
theorem mirrorLaw (hlexical : setting.lexical = false)
    (hhost : setting.HostIgnoresScopes) (limit : Nat) :
    MirrorLaw setting limit := by
  induction limit with
  | zero => exact fun _ _ _ _ => .fail _
  | succ limit ih =>
      intro node site scope m
      cases node with
      | number text =>
          rw [evaluate, Stack.evaluate]
          exact .lift rfl
      | identifier json =>
          rw [evaluate, Stack.evaluate]
          refine .bind (.nameOf json) fun name m₁ => ?_
          refine .get_bind (.pure ?_)
          show StackValue.ofValue (m₁.store.get scope name) =
            (Stack.find? (m₁.store.stack scope) name).getD .nil
          rw [Store.find?_stack, Store.get_eq]
          cases (m₁.store.chain scope).findSome? (m₁.store.bound? name) <;> rfl
      | binary operator left right =>
          rw [evaluate, Stack.evaluate]
          refine .bind (ih left (site.child 0) scope m) fun a m₁ => ?_
          refine .bind (ih right (site.child 1) scope m₁) fun b m₂ => ?_
          refine .lift ?_
          simp only [StackValue.toValue_ofValue, applyOperator_unscoped]
      | assign json value => exact mirrors_assign ih json value site
      | define json params body =>
          exact mirrors_define json params body site
      | call callee args => exact mirrors_call hlexical hhost ih callee args site
      | sequence items =>
          rw [evaluate, Stack.evaluate]
          exact .fail _

theorem mirrors_runStatements (hlexical : setting.lexical = false)
    (hhost : setting.HostIgnoresScopes) (site : Site)
    (statements : List Node) :
    Mirrors scope StackValue.ofValue
      (runStatements setting site scope statements)
      (Stack.runStatements setting site statements) m := by
  rw [runStatements_eq]
  refine .evalLast (fun i statement m₁ => ?_) 0 .nil statements m
  refine .bind (mirrorLaw hlexical hhost setting.limit statement _ scope m₁)
    fun v m₂ => ?_
  refine .bind (.record setting 1 ?_) fun _ m₃ => .pure rfl
  simp only [StackValue.toValue_ofValue, traceValue_unscoped]

end

/-- The global scope is a stack of one dictionary. -/
theorem Store.stack_global (store : Store) :
    store.stack Machine.globalScope =
      [store.dictionary Machine.globalScope] := by
  rw [stack, Machine.globalScope, chain_zero, List.map_singleton]

/-- **Dynamic scoping is a stack.** A program that is run in the global scope
under dynamic scoping has the value, but for the scope that a function
carries, or the fault that it has on a stack which begins with the global
bindings; what it prints, reads and traces is the same, and so are the
global bindings at the end. -/
theorem dynamic_scoping_is_a_stack {setting : Setting}
    (hlexical : setting.lexical = false) (hhost : setting.HostIgnoresScopes)
    (site : Site) (statements : List Node) {m : Machine}
    (hglobal : Machine.globalScope < m.store.size) :
    let run := runStatements setting site Machine.globalScope statements m
    let onStack := Stack.runStatements setting site statements
      { stack := [m.store.dictionary Machine.globalScope]
        input := m.input
        output := m.output
        trace := m.trace
        tracing := m.tracing
        hostCalls := m.hostCalls }
    onStack.result = run.result.map StackValue.ofValue ∧
    onStack.state.output = run.state.output ∧
    onStack.state.input = run.state.input ∧
    onStack.state.trace = run.state.trace ∧
    onStack.state.stack =
      [run.state.store.dictionary Machine.globalScope] := by
  intro run onStack
  have hstart : onStack = Stack.runStatements setting site statements
      (m.onStack Machine.globalScope) := by
    simp only [onStack, Machine.onStack, Store.stack_global]
  have hrun : onStack = run.view StackValue.ofValue
      (·.onStack Machine.globalScope) :=
    hstart.trans
      (mirrors_runStatements hlexical hhost site statements hglobal).1
  rw [hrun, ← Store.stack_global]
  cases run <;> exact ⟨rfl, rfl, rfl, rfl, rfl⟩

/-- Dynamic scoping with everything traced, and a function of the host that
hands its first argument back. -/
def echoSetting : Setting :=
  ⟨false, 3, 10, [fun _ args => .value (args.headD .nil)]⟩

/-- A program in which a function that was made in a call is called by
another one when the first call has ended: it finds `x` with its caller. -/
def lateCall : List Node :=
  [.define (.text "make") []
      [.define (.text "inner") [] [.identifier (.text "x")]],
    .assign (.text "f") (.call (.identifier (.text "make")) []),
    .define (.text "show") [.text "x"] [.call (.identifier (.text "f")) []],
    .call (.identifier (.text "show")) [.identifier (.text "gets")]]

theorem late_call_finds_name_on_stack :
    echoSetting.lexical = false ∧ echoSetting.HostIgnoresScopes ∧
    Machine.globalScope < (Machine.initial true []).store.size ∧
    ∃ v, (runStatements echoSetting ⟨0, []⟩ Machine.globalScope lateCall
        (Machine.initial true [])).result = .ok v ∧
      StackValue.ofValue v = .builtin ⟨"gets", .gets, none⟩ := by
  have hhost : echoSetting.HostIgnoresScopes := by
    intro function hfunction calls args
    cases List.mem_singleton.mp hfunction
    cases args with
    | nil => exact .value rfl
    | cons v rest => exact .value v.ofValue_unscoped.symm
  have hglobal : Machine.globalScope <
      (Machine.initial true []).store.size := Nat.one_pos
  obtain ⟨hresult, -⟩ := dynamic_scoping_is_a_stack (m := Machine.initial true [])
    rfl hhost ⟨0, []⟩ lateCall hglobal
  have hstack : (Stack.runStatements echoSetting ⟨0, []⟩ lateCall
      { stack := [(Machine.initial true []).store.dictionary
          Machine.globalScope]
        input := []
        output := ""
        trace := #[]
        tracing := true
        hostCalls := 0 }).result =
      .ok (.builtin ⟨"gets", .gets, none⟩) := by cbv
  refine ⟨rfl, hhost, hglobal, ?_⟩
  have h := hresult.symm.trans hstack
  cases hrun : (runStatements echoSetting ⟨0, []⟩ Machine.globalScope lateCall
      (Machine.initial true [])).result with
  | error fault =>
      rw [hrun] at h
      cases h
  | ok v =>
      rw [hrun] at h
      exact ⟨v, rfl, Except.ok.inj h⟩

end Scriptlet
