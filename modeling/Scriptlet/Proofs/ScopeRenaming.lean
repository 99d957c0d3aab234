import Scriptlet.Proofs.DynamicScoping
import Scriptlet.Proofs.ScopingModes

/-!
# Evaluation with other scope numbers

Scopes are numbered in order of creation, so a run that begins with more
scopes in the store gives other numbers to the scopes of its calls. Nothing
else comes of it (`repeatLaw`): the values are the same but for the numbers
in functions, and so are the faults, what is read and what is printed.

What the two runs have in common is told by a gap in the numbering. The
scopes that were there in front of the gap keep their numbers, and those that
the first run makes have numbers behind the gap in the second
(`Gap.rename`). Of a store an evaluation sees the chains and the bindings,
and these correspond (`Store.Repeats`). The simulation goes through the stages
of an evaluation with one rule for each way in which they are put together
(`Repeats`).
-/

namespace Scriptlet

variable {α β : Type}

/-! ## Gaps -/

/-- A number of scopes that one store has and another one has not, from a
place in the numbering on. -/
structure Gap where
  start : Nat
  width : Nat

namespace Gap

variable {gap : Gap} {i j : Nat}

/-- The number of a scope when the gap is left out. -/
def rename (gap : Gap) (id : Nat) : Nat :=
  if id < gap.start then id else id + gap.width

theorem rename_of_lt (h : i < gap.start) : gap.rename i = i := if_pos h

theorem rename_of_le (h : gap.start ≤ i) :
    gap.rename i = i + gap.width :=
  if_neg (Nat.not_lt.mpr h)

theorem rename_lt_rename : gap.rename i < gap.rename j ↔ i < j := by
  unfold rename
  split <;> split <;> omega

theorem rename_inj : gap.rename i = gap.rename j ↔ i = j := by
  unfold rename
  split <;> split <;> omega

end Gap

/-! ## Values -/

/-- The value with another number for the scope that it may carry. -/
def Value.renamed (gap : Gap) : Value → Value
  | .function c => .function { c with scope := gap.rename c.scope }
  | v => v

section

variable (gap : Gap)

@[simp] theorem Value.unscoped_renamed (v : Value) :
    (v.renamed gap).unscoped = v.unscoped := by
  cases v <;> rfl

@[simp] theorem Value.display?_renamed (v : Value) :
    (v.renamed gap).display? = v.display? := by
  rw [← display?_unscoped, unscoped_renamed, display?_unscoped]

@[simp] theorem Value.inspect_renamed (v : Value) :
    (v.renamed gap).inspect = v.inspect := by
  rw [← inspect_unscoped, unscoped_renamed, inspect_unscoped]

@[simp] theorem traceValue_renamed (v : Value) :
    traceValue (v.renamed gap) = traceValue v := by
  rw [← traceValue_unscoped, Value.unscoped_renamed, traceValue_unscoped]

@[simp] theorem traceValues_renamed (vs : List Value) :
    traceValues (vs.map (Value.renamed gap)) = traceValues vs := by
  rw [← traceValues_unscoped, List.map_map, ← traceValues_unscoped vs]
  congr 2
  exact funext (Value.unscoped_renamed gap)

/-- Operators do not look at scopes, and their results carry none. -/
theorem applyOperator_renamed (operator : Json) (a b : Value) :
    applyOperator operator (a.renamed gap) (b.renamed gap) =
      (applyOperator operator a b).map (Value.renamed gap) := by
  rw [← applyOperator_unscoped, Value.unscoped_renamed,
    Value.unscoped_renamed, applyOperator_unscoped]
  cases hresult : applyOperator operator a b with
  | error f => rfl
  | ok v =>
      obtain ⟨z, rfl⟩ := eq_number_of_applyOperator hresult
      rfl

theorem evalLiteral_renamed (json : Json) :
    evalLiteral json = (evalLiteral json).map (Value.renamed gap) := by
  unfold evalLiteral
  split
  · split <;> rfl
  · rfl
  · split <;> rfl
  · rfl
  · rfl

end

/-! ## Bindings -/

def renameBindings (gap : Gap) (bindings : List (Name × Value)) :
    List (Name × Value) :=
  bindings.map fun b => (b.1, b.2.renamed gap)

theorem lookup_renameBindings (gap : Gap) (bindings : List (Name × Value))
    (name : Name) :
    (renameBindings gap bindings).lookup name =
      (bindings.lookup name).map (Value.renamed gap) := by
  unfold renameBindings
  induction bindings with
  | nil => rfl
  | cons b rest ih =>
      obtain ⟨n, v⟩ := b
      by_cases h : name = n
      · simp [h]
      · simp [List.lookup_cons, ih, beq_false_of_ne h]

theorem setIn_renameBindings (gap : Gap) (bindings : List (Name × Value))
    (name : Name) (value : Value) :
    Scope.setIn (renameBindings gap bindings) name (value.renamed gap) =
      renameBindings gap (Scope.setIn bindings name value) := by
  unfold renameBindings
  induction bindings with
  | nil => rfl
  | cons b rest ih =>
      obtain ⟨n, v⟩ := b
      by_cases h : n = name
      · simp [Scope.setIn, h]
      · simp [Scope.setIn, h, ih]

/-! ## Stores -/

namespace Store

/-- What a scope binds, if there is the scope. -/
def bindings? (store : Store) (id : ScopeId) : Option (List (Name × Value)) :=
  (store.scope? id).map Scope.bindings

theorem bound?_eq (store : Store) (name : Name) (id : ScopeId) :
    store.bound? name id = (store.bindings? id).bind (·.lookup name) := by
  unfold bound? bindings?
  cases store.scope? id <;> rfl

theorem scope?_of_size_le {store : Store} {id : ScopeId}
    (h : store.size ≤ id) : store.scope? id = none :=
  Array.getElem?_eq_none h

theorem chain_of_size_le {store : Store} {id : ScopeId}
    (h : store.size ≤ id) : store.chain id = [id] := by
  refine chain_of_none ?_
  rw [scope?_of_size_le h]
  rfl

theorem bindings?_set (store : Store) (id other : ScopeId) (name : Name)
    (value : Value) :
    (store.set id name value).bindings? other =
      if id = other then
        (store.bindings? other).map (Scope.setIn · name value)
      else store.bindings? other := by
  unfold bindings?
  rw [scope?_set]
  split
  · rw [Option.map_map, Option.map_map]
    rfl
  · rfl

/-- The chain of a new scope, also if its parent does not exist. -/
theorem chain_add_eq (store : Store) (parent : ScopeId) :
    (store.add (some parent)).2.chain store.size =
      store.size ::
        if parent < store.size then store.chain parent else [] := by
  by_cases h : parent < store.size
  · rw [store.chain_add h, if_pos h]
  · have hnew : ((store.add (some parent)).2.scope? store.size).bind
        Scope.parent = some parent := by
      simp [add, scope?, size]
    rw [chain_of_not_lt hnew h, if_neg h]

theorem bindings?_add (store : Store) (parent : Option ScopeId)
    (id : ScopeId) :
    (store.add parent).2.bindings? id =
      if id = store.size then some [] else store.bindings? id := by
  by_cases h : id = store.size
  · subst h
    rw [if_pos rfl]
    simp [bindings?, add, scope?, size]
  · have hne : id ≠ store.scopes.size := h
    rw [if_neg h]
    simp only [bindings?, add, scope?, Array.getElem?_push, if_neg hne]

/-- The second store has what the first has, and a gap of other scopes
besides. -/
structure Repeats (gap : Gap) (a b : Store) : Prop where
  start_le : gap.start ≤ a.size
  size_eq : b.size = a.size + gap.width
  chain_eq : ∀ id, b.chain (gap.rename id) = (a.chain id).map gap.rename
  bindings?_eq : ∀ id, b.bindings? (gap.rename id) =
    (a.bindings? id).map (renameBindings gap)

namespace Repeats

variable {gap : Gap} {a b : Store}

theorem size_eq_rename (h : a.Repeats gap b) : b.size = gap.rename a.size := by
  rw [h.size_eq, Gap.rename_of_le h.start_le]

theorem bound?_eq (h : a.Repeats gap b) (name : Name) (id : ScopeId) :
    b.bound? name (gap.rename id) =
      (a.bound? name id).map (Value.renamed gap) := by
  rw [Store.bound?_eq, Store.bound?_eq, h.bindings?_eq]
  cases a.bindings? id with
  | none => rfl
  | some bindings => exact lookup_renameBindings gap bindings name

/-- The two stores find the same for a name. -/
theorem findSome?_eq (h : a.Repeats gap b) (scope : ScopeId) (name : Name) :
    (b.chain (gap.rename scope)).findSome? (b.bound? name) =
      ((a.chain scope).findSome? (a.bound? name)).map (Value.renamed gap) := by
  rw [h.chain_eq, List.findSome?_map, List.map_findSome?]
  congr 1
  exact funext (h.bound?_eq name)

theorem get_eq (h : a.Repeats gap b) (scope : ScopeId) (name : Name) :
    b.get (gap.rename scope) name = (a.get scope name).renamed gap := by
  rw [Store.get_eq, Store.get_eq, h.findSome?_eq]
  cases (a.chain scope).findSome? (a.bound? name) <;> rfl

theorem contains_eq (h : a.Repeats gap b) (scope : ScopeId) (name : Name) :
    b.contains (gap.rename scope) name = a.contains scope name := by
  rw [Store.contains_eq, Store.contains_eq, h.findSome?_eq, Option.isSome_map]

theorem depth_eq (h : a.Repeats gap b) (scope : ScopeId) :
    b.depth (gap.rename scope) = a.depth scope := by
  rw [depth, depth, h.chain_eq, List.length_map]

theorem set (h : a.Repeats gap b) (id : ScopeId) (name : Name)
    (value : Value) :
    (a.set id name value).Repeats gap
      (b.set (gap.rename id) name (value.renamed gap)) where
  start_le := by
    rw [size_set]
    exact h.start_le
  size_eq := by
    rw [size_set, size_set]
    exact h.size_eq
  chain_eq := by
    intro other
    rw [chain_set, chain_set]
    exact h.chain_eq other
  bindings?_eq := by
    intro other
    rw [bindings?_set, bindings?_set, h.bindings?_eq]
    by_cases heq : id = other
    · rw [if_pos heq, if_pos (Gap.rename_inj.mpr heq), Option.map_map,
        Option.map_map]
      congr 1
      funext bindings
      exact setIn_renameBindings gap bindings name value
    · rw [if_neg heq, if_neg (mt Gap.rename_inj.mp heq)]

theorem chain_add (h : a.Repeats gap b) (parent id : ScopeId) :
    (b.add (some (gap.rename parent))).2.chain (gap.rename id) =
      ((a.add (some parent)).2.chain id).map gap.rename := by
  have hsize := h.size_eq_rename
  rcases Nat.lt_trichotomy id a.size with hlt | rfl | hlt
  · -- a scope that was there
    have hlt' : gap.rename id < b.size := by
      rw [hsize]
      exact Gap.rename_lt_rename.mpr hlt
    rw [(frame_add b (some (gap.rename parent)) id fun _ => True).chain_eq
      hlt', (frame_add a (some parent) id fun _ => True).chain_eq hlt,
      h.chain_eq]
  · rw [← hsize, chain_add_eq, chain_add_eq, List.map_cons, ← hsize]
    congr 1
    have hparent : gap.rename parent < b.size ↔ parent < a.size := by
      rw [hsize]
      exact Gap.rename_lt_rename
    by_cases hp : parent < a.size
    · rw [if_pos hp, if_pos (hparent.mpr hp), h.chain_eq]
    · rw [if_neg hp, if_neg (mt hparent.mp hp), List.map_nil]
  · -- a scope that there is not yet
    have hlt' : b.size < gap.rename id := by
      rw [hsize]
      exact Gap.rename_lt_rename.mpr hlt
    rw [chain_of_size_le, chain_of_size_le, List.map_singleton]
    · rw [size_add]
      exact hlt
    · rw [size_add]
      exact hlt'

theorem add (h : a.Repeats gap b) (parent : ScopeId) :
    (a.add (some parent)).2.Repeats gap
      (b.add (some (gap.rename parent))).2 where
  start_le := by
    rw [size_add]
    exact Nat.le_succ_of_le h.start_le
  size_eq := by
    rw [size_add, size_add, h.size_eq]
    omega
  chain_eq := h.chain_add parent
  bindings?_eq := by
    intro id
    have hnew : gap.rename id = b.size ↔ id = a.size := by
      rw [h.size_eq_rename]
      exact Gap.rename_inj
    rw [bindings?_add, bindings?_add, h.bindings?_eq]
    by_cases heq : id = a.size
    · rw [if_pos heq, if_pos (hnew.mpr heq)]
      rfl
    · rw [if_neg heq, if_neg (mt hnew.mp heq)]

end Repeats

end Store

/-! ## Actions -/

/-- The second machine has what the first has, but for a gap in the
scopes, and it may have another trace. -/
structure Machine.Repeats (gap : Gap) (m m' : Machine) : Prop where
  store : m.store.Repeats gap m'.store
  input : m'.input = m.input
  output : m'.output = m.output

/-- The outcomes are the same, the values through `f`. -/
inductive Outcome.Repeats (gap : Gap) (f : α → α) :
    Outcome Fault Machine α → Outcome Fault Machine α → Prop
  | done {a : α} {m m' : Machine} : m.Repeats gap m' →
      Repeats gap f (.done a m) (.done (f a) m')
  | failed {fault : Fault} {m m' : Machine} : m.Repeats gap m' →
      Repeats gap f (.failed fault m) (.failed fault m')

/-- The second action repeats the first, from every machine on that has what
the first one has. -/
def Repeats (gap : Gap) (f : α → α) (first second : Eval α) : Prop :=
  ∀ ⦃m m' : Machine⦄, m.Repeats gap m' →
    (first m).Repeats gap f (second m')

namespace Repeats

variable {gap : Gap} {f : α → α} {g : β → β}

theorem pure {a b : α} (h : f a = b) :
    Repeats gap f (Pure.pure a) (Pure.pure b) := by
  subst h
  exact fun _ _ hm => .done hm

theorem fail (fault : Fault) :
    Repeats gap f (Step.fail fault : Eval α) (Step.fail fault) :=
  fun _ _ hm => .failed hm

theorem lift {result result' : Except Fault α} (h : result' = result.map f) :
    Repeats gap f (Step.lift result) (Step.lift result') := by
  subst h
  cases result with
  | ok a => exact pure rfl
  | error fault => exact fail fault

theorem bind {first second : Eval α} {next next' : α → Eval β}
    (h : Repeats gap f first second)
    (hnext : ∀ a, Repeats gap g (next a) (next' (f a))) :
    Repeats gap g (first >>= next) (second >>= next') := by
  intro m m' hm
  have hfirst := h hm
  rw [Step.bind_apply, Step.bind_apply]
  generalize first m = o at hfirst ⊢
  generalize second m' = o' at hfirst ⊢
  cases hfirst with
  | done hm₁ => exact hnext _ hm₁
  | failed hm₁ => exact .failed hm₁

/-- Looking at the machine, an action may see what the two have in
common. -/
theorem get_bind {next next' : Machine → Eval β}
    (h : ∀ ⦃m m' : Machine⦄, m.Repeats gap m' →
      Repeats gap g (next m) (next' m')) :
    Repeats gap g (Step.get >>= next) (Step.get >>= next') :=
  fun _ _ hm => h hm hm

theorem nameOf (json : Json) :
    Repeats gap id (Eval.nameOf json) (Eval.nameOf json) := by
  unfold Eval.nameOf
  cases Name.ofJson? json with
  | none => exact fail _
  | some name => exact pure rfl

theorem lookup (scope : ScopeId) (name : Name) :
    Repeats gap (Value.renamed gap) (Eval.lookup scope name)
      (Eval.lookup (gap.rename scope) name) :=
  get_bind fun _ _ hm => pure (hm.store.get_eq scope name).symm

theorem bindName (scope : ScopeId) (name : Name) (value : Value) :
    Repeats gap id (Eval.bind scope name value)
      (Eval.bind (gap.rename scope) name (value.renamed gap)) :=
  fun _ _ hm => .done ⟨hm.store.set scope name value, hm.input, hm.output⟩

/-- A new scope has the next number in both runs. -/
theorem newScope (parent : ScopeId) :
    Repeats gap gap.rename (Eval.newScope parent)
      (Eval.newScope (gap.rename parent)) := by
  intro m m' hm
  have hdone : (Eval.newScope parent m).Repeats gap gap.rename
      (.done (gap.rename m.store.size)
        { m' with store := (m'.store.add (some (gap.rename parent))).2 }) :=
    .done ⟨hm.store.add parent, hm.input, hm.output⟩
  rw [← hm.store.size_eq_rename] at hdone
  exact hdone

theorem record (setting : Setting) (required : Int)
    {event event' : Unit → Except Fault Event} (h : event' () = event ()) :
    Repeats gap id (Eval.record setting required event)
      (Eval.record setting required event') := by
  unfold Eval.record
  split
  · rw [h]
    have hevent : Repeats gap id (Step.lift (event ()) : Eval Event)
        (Step.lift (event ())) := by
      refine lift ?_
      cases event () <;> rfl
    have hwritten : ∀ (e : Event) (m : Machine), ∃ trace,
        (if m.tracing then { m with trace := m.trace.push e } else m) =
          { m with trace } := by
      intro e m
      split
      · exact ⟨_, rfl⟩
      · exact ⟨m.trace, rfl⟩
    refine bind hevent fun e m m' hm => .done ?_
    obtain ⟨trace, htrace⟩ := hwritten e m
    obtain ⟨trace', htrace'⟩ := hwritten e m'
    dsimp only [id]
    rw [htrace, htrace']
    exact ⟨hm.store, hm.input, hm.output⟩
  · exact pure rfl

theorem evalEach {eval eval' : Nat → Node → Eval Value}
    (h : ∀ i node, Repeats gap (Value.renamed gap) (eval i node)
      (eval' i node)) (index : Nat) (nodes : List Node) :
    Repeats gap (List.map (Value.renamed gap))
      (Scriptlet.evalEach eval index nodes)
      (Scriptlet.evalEach eval' index nodes) := by
  induction nodes generalizing index with
  | nil => exact pure rfl
  | cons node rest ih =>
      refine bind (h index node) fun v => ?_
      exact bind (ih (index + 1)) fun vs => pure rfl

theorem evalLast {eval eval' : Nat → Node → Eval Value}
    (h : ∀ i node, Repeats gap (Value.renamed gap) (eval i node)
      (eval' i node)) (index : Nat) (last : Value) (nodes : List Node) :
    Repeats gap (Value.renamed gap)
      (Scriptlet.evalLast eval index last nodes)
      (Scriptlet.evalLast eval' index (last.renamed gap) nodes) := by
  induction nodes generalizing index last with
  | nil => exact pure rfl
  | cons node rest ih =>
      exact bind (h index node) fun v => ih (index + 1) v

end Repeats

/-! ## Calls -/

section

variable {gap : Gap} {setting : Setting}

theorem repeats_putLines (vs : List Value) :
    Repeats gap id (putLines vs) (putLines (vs.map (Value.renamed gap))) := by
  induction vs with
  | nil => exact .pure rfl
  | cons v rest ih =>
      rw [List.map_cons, putLines, putLines, Value.display?_renamed]
      cases v.display? with
      | none => exact .pure rfl
      | some text =>
          have hwrite : Repeats gap id (Eval.writeLine text)
              (Eval.writeLine text) := by
            refine fun m m' hm => .done ⟨hm.store, hm.input, ?_⟩
            exact congrArg (· ++ text ++ "\n") hm.output
          exact .bind hwrite fun _ => ih

theorem repeats_readLine :
    Repeats gap id Eval.readLine Eval.readLine := by
  intro m m' hm
  unfold Eval.readLine
  rw [hm.input]
  cases Text.readLine? m.input with
  | none => exact .done hm
  | some found => exact .done ⟨hm.store, rfl, hm.output⟩

/-- Without functions of the host, a call of one only counts. -/
theorem repeats_callHost (hhost : setting.host = []) (b : Builtin)
    (index : Nat) (vs : List Value) :
    Repeats gap (Value.renamed gap) (callHost setting b index vs)
      (callHost setting b index (vs.map (Value.renamed gap))) := by
  unfold callHost
  rw [hhost]
  intro m m' hm
  exact .done ⟨hm.store, hm.input, hm.output⟩

theorem repeats_callBuiltin (hhost : setting.host = []) (b : Builtin)
    (vs : List Value) :
    Repeats gap (Value.renamed gap) (callBuiltin setting b vs)
      (callBuiltin setting b (vs.map (Value.renamed gap))) := by
  have hperform : Repeats gap (Value.renamed gap)
      (callBuiltin.perform setting b vs)
      (callBuiltin.perform setting b (vs.map (Value.renamed gap))) := by
    unfold callBuiltin.perform
    cases b.action with
    | puts =>
        refine .bind (repeats_putLines vs) fun error => ?_
        cases error with
        | none => exact .pure rfl
        | some error => exact .fail _
    | gets =>
        refine .bind repeats_readLine fun line => ?_
        cases line <;> exact .pure rfl
    | host index => exact repeats_callHost hhost b index vs
  unfold callBuiltin
  rw [List.length_map]
  cases b.arity with
  | none => exact hperform
  | some arity =>
      dsimp only
      split
      · exact hperform
      · exact .fail _

theorem repeats_resolveCallee (callee : Node) (scope : ScopeId) :
    Repeats gap (Value.renamed gap) (resolveCallee callee scope)
      (resolveCallee callee (gap.rename scope)) := by
  cases callee with
  | identifier json =>
      refine .bind (.nameOf json) fun name => .get_bind fun m m' hm => ?_
      rw [id, hm.store.contains_eq]
      split
      · exact .lookup scope name
      · exact .fail _
  | _ => exact .fail _

theorem repeats_bindParams (scope : ScopeId) (params : List Json)
    (vs : List Value) :
    Repeats gap id (bindParams scope params vs)
      (bindParams (gap.rename scope) params
        (vs.map (Value.renamed gap))) := by
  induction params generalizing vs with
  | nil => exact .pure rfl
  | cons param params ih =>
      cases vs with
      | nil => exact .pure rfl
      | cons v vs =>
          refine .bind (.nameOf param) fun name => ?_
          exact .bind (.bindName scope name v) fun _ => ih vs

/-- The parent of the scope of a call is found in the function or in the
caller, and renamed in either case. -/
theorem repeats_enterFunction (c : Closure) (vs : List Value)
    (scope : ScopeId) :
    Repeats gap gap.rename (enterFunction setting c vs scope)
      (enterFunction setting { c with scope := gap.rename c.scope }
        (vs.map (Value.renamed gap)) (gap.rename scope)) := by
  have hparent : (if setting.lexical then gap.rename c.scope
      else gap.rename scope) =
      gap.rename (if setting.lexical then c.scope else scope) := by
    split <;> rfl
  unfold enterFunction
  dsimp only
  rw [hparent]
  refine .bind (.newScope _) fun frame => ?_
  exact .bind (repeats_bindParams frame c.params vs) fun _ => .pure rfl

end

/-! ## Evaluation -/

/-- Every evaluation that nests at most `limit` deep is repeated in the
renamed scope. -/
def RepeatLaw (setting : Setting) (gap : Gap) (limit : Nat) : Prop :=
  ∀ (node : Node) (site : Site) (scope : ScopeId),
    Repeats gap (Value.renamed gap)
      (evaluate setting limit node site scope)
      (evaluate setting limit node site (gap.rename scope))

section

variable {gap : Gap} {setting : Setting} {limit : Nat}

theorem repeats_callValue (hhost : setting.host = [])
    (law : RepeatLaw setting gap limit) (f : Value) (vs : List Value)
    (scope : ScopeId) :
    Repeats gap (Value.renamed gap) (callValue setting limit f vs scope)
      (callValue setting limit (f.renamed gap) (vs.map (Value.renamed gap))
        (gap.rename scope)) := by
  cases f with
  | function c =>
      refine .bind (repeats_enterFunction c vs scope) fun frame => ?_
      exact .evalLast (fun i node => law node (c.site.child i) frame) 0 .nil
        c.body
  | builtin b => exact repeats_callBuiltin hhost b vs
  | _ => exact .fail _

theorem repeats_call (hhost : setting.host = [])
    (law : RepeatLaw setting gap limit) (callee : Node) (args : List Node)
    (site : Site) (scope : ScopeId) :
    Repeats gap (Value.renamed gap)
      (evaluate setting (limit + 1) (.call callee args) site scope)
      (evaluate setting (limit + 1) (.call callee args) site
        (gap.rename scope)) := by
  rw [evaluate_call, evaluate_call]
  simp only [prepareCall, evalArgs, Step.bind_assoc, Step.pure_bind]
  refine .bind (.evalEach (fun i arg => law arg (site.child i) scope) 0 args)
    fun vs => ?_
  refine .bind (repeats_resolveCallee callee scope) fun f => ?_
  refine .bind (.record setting 3 ?_) fun _ => ?_
  · rw [Value.inspect_renamed, traceValues_renamed]
  refine .bind (repeats_callValue hhost law f vs scope) fun v => ?_
  refine .bind (.record setting 3 ?_) fun _ => .pure rfl
  rw [Value.inspect_renamed, traceValue_renamed]

/-- An evaluation is repeated in a store with a gap. -/
theorem repeatLaw (hhost : setting.host = []) (gap : Gap) (limit : Nat) :
    RepeatLaw setting gap limit := by
  induction limit with
  | zero => exact fun _ _ _ => .fail _
  | succ limit ih =>
      intro node site scope
      cases node with
      | number text =>
          rw [evaluate, evaluate]
          exact .lift (evalLiteral_renamed gap text)
      | identifier json =>
          rw [evaluate, evaluate]
          exact .bind (.nameOf json) fun name => .lookup scope name
      | binary operator left right =>
          rw [evaluate, evaluate]
          refine .bind (ih left (site.child 0) scope) fun a => ?_
          refine .bind (ih right (site.child 1) scope) fun b => ?_
          exact .lift (applyOperator_renamed gap operator a b)
      | assign json value =>
          rw [evaluate, evaluate]
          refine .bind (ih value (site.child 0) scope) fun v => ?_
          refine .bind (.nameOf json) fun name => ?_
          refine .bind (.bindName scope name v) fun _ => ?_
          refine .get_bind fun m m' hm => ?_
          refine .bind (.record setting 2 ?_) fun _ => .pure rfl
          rw [hm.store.depth_eq, traceValue_renamed]
      | define json params body =>
          rw [evaluate, evaluate]
          refine .bind (.nameOf json) fun name => ?_
          refine .bind (.bindName scope name _) fun _ => ?_
          exact .bind (.record setting 2 rfl) fun _ => .pure rfl
      | call callee args => exact repeats_call hhost ih callee args site scope
      | sequence items =>
          rw [evaluate, evaluate]
          exact .fail _

end

end Scriptlet
