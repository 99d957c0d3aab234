import Scriptlet.Proofs.Chains
import Scriptlet.Proofs.Runs

/-!
# Programs without recursion

A program in which functions only call functions that are defined before them
comes to an end (`nonrecursive_programs_end`). The text alone does not show this:
a callee is looked up by its name when the call is made, in whatever scopes
there are then, and functions are values that variables and parameters hold.

What the text does fix is which values the names of functions have. They are
defined once and bound nowhere else, so in every scope the name of a function
stands for what its definition made (`Store.Layered`). A function that is
called from the body of another one was therefore made by an earlier
statement, and the statements in front of a definition bound how deep its
calls can nest (`callBudget`).
-/

namespace Scriptlet

variable {α β : Type}

/-! ## Names in a program -/

mutual

/-- A node and all nodes below it. A callee is not counted: it is a name, or
it is never evaluated. -/
def Node.parts : Node → List Node
  | .number text => [.number text]
  | .identifier name => [.identifier name]
  | .binary operator left right =>
    .binary operator left right :: (left.parts ++ right.parts)
  | .assign name value => .assign name value :: value.parts
  | .define name params body => .define name params body :: Node.partsAll body
  | .call callee args => .call callee args :: Node.partsAll args
  | .sequence items => .sequence items :: Node.partsAll items

def Node.partsAll : List Node → List Node
  | [] => []
  | node :: rest => node.parts ++ Node.partsAll rest

end

namespace Node

def definedName? : Node → Option Name
  | .define json _ _ => Name.ofJson? json
  | _ => none

/-- The target of an assignment, or the parameters of a definition. -/
def boundNames : Node → List Name
  | .assign json _ => (Name.ofJson? json).toList
  | .define _ params _ => params.filterMap Name.ofJson?
  | _ => []

def calledName? : Node → Option Name
  | .call (.identifier json) _ => Name.ofJson? json
  | _ => none

theorem mem_partsAll {part : Node} {nodes : List Node} :
    part ∈ partsAll nodes ↔ ∃ node ∈ nodes, part ∈ node.parts := by
  induction nodes with
  | nil => simp [partsAll]
  | cons node rest ih => simp [partsAll, ih]

theorem mem_parts {part node : Node} :
    part ∈ node.parts ↔ part = node ∨ part ∈ partsAll node.children := by
  cases node <;> simp [parts, children, partsAll]

theorem parts_subset_of_mem_children {node child : Node}
    (h : child ∈ node.children) : child.parts ⊆ node.parts :=
  fun _ hpart => mem_parts.mpr (.inr (mem_partsAll.mpr ⟨child, h, hpart⟩))

theorem depth_pos (node : Node) : 0 < node.depth := by
  cases node <;> simp [depth]

theorem depth_le_depthAll {node : Node} {nodes : List Node}
    (h : node ∈ nodes) : node.depth ≤ depthAll nodes := by
  induction nodes with
  | nil => cases h
  | cons first rest ih =>
      rw [depthAll]
      rcases List.mem_cons.mp h with rfl | h
      · exact Nat.le_max_left _ _
      · exact Nat.le_trans (ih h) (Nat.le_max_right _ _)

theorem depth_lt_of_mem_children {node child : Node}
    (h : child ∈ node.children) : child.depth < node.depth := by
  cases node with
  | binary operator left right =>
      simp only [children, List.mem_cons, List.not_mem_nil, or_false] at h
      rcases h with rfl | rfl <;> simp only [depth] <;> omega
  | assign name value =>
      obtain rfl := List.mem_singleton.mp h
      exact Nat.lt_succ_self _
  | define name params body => exact Nat.lt_succ_of_le (depth_le_depthAll h)
  | call callee args =>
      exact Nat.lt_succ_of_le (Nat.le_trans (depth_le_depthAll h)
        (Nat.le_max_right _ _))
  | sequence items => exact Nat.lt_succ_of_le (depth_le_depthAll h)
  | _ => exact absurd h List.not_mem_nil

end Node

/-- The names that stand for a function: the two for input and output, and
those of the definitions among the nodes. -/
def functionNames (nodes : List Node) : List Name :=
  .text "puts" :: .text "gets" :: nodes.filterMap Node.definedName?

/-- No function of the program calls itself, by way of others or not:
definitions stand at the top of the program, each name of a function is
defined once and never bound otherwise, and a body calls nothing but
functions that are defined before it. -/
structure NonRecursive (program : List Node) : Prop where
  top : ∀ statement ∈ program, ∀ part ∈ Node.partsAll statement.children,
    ∀ name params body, part ≠ .define name params body
  nodup : (functionNames program).Nodup
  fixed : ∀ part ∈ Node.partsAll program, ∀ name ∈ part.boundNames,
    name ∉ functionNames program
  earlier : ∀ i name params body,
    program[i]? = some (.define name params body) →
    ∀ part ∈ Node.partsAll body, ∀ callee, part.calledName? = some callee →
      callee ∈ functionNames (program.take i)

/-! ## Layers

The statements in front of a definition are the layer that its body works on.
The top of a program works on all of them. -/

/-- Functions among the values were made by one of the nodes. -/
def Value.MadeBy (nodes : List Node) (v : Value) : Prop :=
  ∀ c, v = .function c → .define c.name c.params c.body ∈ nodes

/-- What a name can stand for in a run of the program. -/
structure NameStands (program : List Node) (name : Name) (v : Value) : Prop where
  made : v.MadeBy program
  layer : ∀ i, name ∈ functionNames (program.take i) →
    v.MadeBy (program.take i)

/-- Calls of the name from a body reach functions of the layer only. -/
def Name.CallableIn (program : List Node) (i : Nat) (name : Name) : Prop :=
  program.length ≤ i ∨ name ∈ functionNames (program.take i)

/-- The node can be evaluated in the layer. -/
structure Node.BelongsTo (program : List Node) (i : Nat) (node : Node) :
    Prop where
  plain : ∀ part ∈ node.parts, ∀ name params body,
    part ≠ .define name params body
  fixed : ∀ part ∈ node.parts, ∀ name ∈ part.boundNames,
    name ∉ functionNames program
  calls : ∀ part ∈ node.parts, ∀ name, part.calledName? = some name →
    name.CallableIn program i

/-- How deep evaluations nest in the calls of a layer's functions, at most. -/
def callBudget (program : List Node) (i : Nat) : Nat :=
  ((program.take i).map Node.depth).sum

section

variable {program : List Node} {i j : Nat} {name : Name} {v : Value}

theorem functionNames_mono {nodes more : List Node} (h : nodes ⊆ more) :
    functionNames nodes ⊆ functionNames more :=
  List.cons_subset_cons _ (List.cons_subset_cons _ fun name hname => by
    obtain ⟨node, hnode, hdefined⟩ := List.mem_filterMap.mp hname
    exact List.mem_filterMap.mpr ⟨node, h hnode, hdefined⟩)

theorem Value.MadeBy.of_ne (h : ∀ c, v ≠ .function c) :
    v.MadeBy program :=
  fun c hc => absurd hc (h c)

theorem Value.MadeBy.nil : Value.nil.MadeBy program :=
  .of_ne fun _ => Value.noConfusion

theorem Value.MadeBy.number (x : Float) : (Value.number x).MadeBy program :=
  .of_ne fun _ => Value.noConfusion

/-- A name that is no function's may stand for anything. -/
theorem NameStands.of_not_mem (hv : v.MadeBy program)
    (hname : name ∉ functionNames program) : NameStands program name v where
  made := hv
  layer := fun i hi =>
    absurd (functionNames_mono (List.take_subset i program) hi) hname

theorem NameStands.of_ne (h : ∀ c, v ≠ .function c) :
    NameStands program name v :=
  ⟨.of_ne h, fun _ _ => .of_ne h⟩

theorem NameStands.of_callableIn (h : NameStands program name v)
    (hname : name.CallableIn program i) : v.MadeBy (program.take i) := by
  rcases hname with hlength | hmem
  · rw [List.take_of_length_le hlength]
    exact h.made
  · exact h.layer i hmem

/-- The definition of a name is the only one, so it stands in every layer that
has the name. -/
theorem NonRecursive.mem_take (h : NonRecursive program) {node : Node}
    (hnode : node ∈ program) (hname : node.definedName? = some name)
    (hmem : name ∈ functionNames (program.take i)) :
    node ∈ program.take i := by
  have hnodup := h.nodup
  rw [functionNames, ← List.take_append_drop i program,
    List.filterMap_append, ← List.cons_append, ← List.cons_append] at hnodup
  rw [← List.take_append_drop i program] at hnode
  rcases List.mem_append.mp hnode with hnode | hnode
  · exact hnode
  · have hbehind := List.mem_filterMap.mpr ⟨node, hnode, hname⟩
    exact absurd rfl ((List.nodup_append.mp hnodup).2.2 name hmem name hbehind)

theorem NonRecursive.nameStands_define (h : NonRecursive program)
    {c : Closure} (hmem : .define c.name c.params c.body ∈ program)
    (hname : Name.ofJson? c.name = some name) :
    NameStands program name (.function c) := by
  constructor
  · rintro _ ⟨rfl⟩
    exact hmem
  · rintro i hi _ ⟨rfl⟩
    exact h.mem_take hmem hname hi

/-- The top of the program works on all of its statements. -/
theorem NonRecursive.belongsTo_top (h : NonRecursive program) {node : Node}
    (hnode : node ∈ program)
    (hplain : ∀ name params body, node ≠ .define name params body) :
    node.BelongsTo program program.length where
  plain := by
    intro part hpart
    rcases Node.mem_parts.mp hpart with rfl | hpart
    · exact hplain
    · exact h.top node hnode part hpart
  fixed := fun part hpart =>
    h.fixed part (Node.mem_partsAll.mpr ⟨node, hnode, hpart⟩)
  calls := fun _ _ _ _ => Or.inl (Nat.le_refl _)

/-- A statement in the body of a definition works on what is in front of the
definition. -/
theorem NonRecursive.belongsTo_body (h : NonRecursive program) {json : Json}
    {params : List Json} {body : List Node}
    (hdefine : program[i]? = some (.define json params body)) {node : Node}
    (hnode : node ∈ body) : node.BelongsTo program i := by
  have hmem := List.mem_of_getElem? hdefine
  have hbody : ∀ part ∈ node.parts, part ∈ Node.partsAll body :=
    fun part hpart => Node.mem_partsAll.mpr ⟨node, hnode, hpart⟩
  refine ⟨?_, ?_, ?_⟩
  · exact fun part hpart => h.top _ hmem part (hbody part hpart)
  · intro part hpart
    refine h.fixed part (Node.mem_partsAll.mpr ⟨_, hmem, ?_⟩)
    exact Node.mem_parts.mpr (.inr (hbody part hpart))
  · intro part hpart name hname
    exact Or.inr (h.earlier i json params body hdefine part
      (hbody part hpart) name hname)

theorem Node.BelongsTo.child {node child : Node}
    (h : node.BelongsTo program i) (hchild : child ∈ node.children) :
    child.BelongsTo program i := by
  have hsubset := Node.parts_subset_of_mem_children hchild
  exact ⟨fun part hpart => h.plain part (hsubset hpart),
    fun part hpart => h.fixed part (hsubset hpart),
    fun part hpart => h.calls part (hsubset hpart)⟩

/-- A definition and what is in front of it are within the budget of every
layer that has the definition. -/
theorem callBudget_add_depth_le {node : Node} (hnode : program[j]? = some node)
    (hlt : j < i) : callBudget program j + node.depth ≤ callBudget program i := by
  obtain ⟨k, rfl⟩ := Nat.exists_eq_add_of_lt hlt
  have htake : program.take (j + k + 1) =
      program.take j ++ [node] ++ (program.drop (j + 1)).take k := by
    rw [Nat.add_right_comm, List.take_add, List.take_add_one, hnode]
    rfl
  simp only [callBudget, htake, List.map_append, List.sum_append,
    List.map_cons, List.map_nil, List.sum_singleton]
  omega

end

/-! ## Scopes of a run -/

/-- Every name stands for something that it can stand for. -/
def Store.Layered (program : List Node) (store : Store) : Prop :=
  ∀ id name v, store.bound? name id = some v → NameStands program name v

namespace Store.Layered

variable {program : List Node} {store : Store} {name : Name} {v : Value}

theorem set (h : store.Layered program) (id : ScopeId)
    (hv : NameStands program name v) :
    (store.set id name v).Layered program := by
  intro other name' v' hbound
  obtain ⟨scope, hscope, hget⟩ := Option.bind_eq_some_iff.mp hbound
  rw [scope?_set] at hscope
  split at hscope
  · obtain ⟨old, hold, rfl⟩ := Option.map_eq_some_iff.mp hscope
    rw [Scope.get?_set] at hget
    split at hget
    · rename_i heq
      cases hget
      rw [heq]
      exact hv
    · exact h other name' v' (Option.bind_eq_some_iff.mpr ⟨old, hold, hget⟩)
  · exact h other name' v' (Option.bind_eq_some_iff.mpr ⟨scope, hscope, hget⟩)

theorem add (h : store.Layered program) (parent : Option ScopeId) :
    (store.add parent).2.Layered program := by
  intro id name v hbound
  obtain ⟨scope, hscope, hget⟩ := Option.bind_eq_some_iff.mp hbound
  simp only [Store.add, scope?, Array.getElem?_push] at hscope
  split at hscope
  · cases hscope
    cases hget
  · exact h id name v (Option.bind_eq_some_iff.mpr ⟨scope, hscope, hget⟩)

theorem get (h : store.Layered program) (id : ScopeId) (name : Name) :
    NameStands program name (store.get id name) := by
  rw [get_eq]
  cases hfound : (store.chain id).findSome? (store.bound? name) with
  | none => exact .of_ne fun _ => Value.noConfusion
  | some v =>
      obtain ⟨other, -, hbound⟩ := List.exists_of_findSome?_eq_some hfound
      exact h other name v hbound

theorem initial (program : List Node) : Store.initial.Layered program := by
  have hempty : Store.empty.Layered program := by
    intro id name v hbound
    cases hbound
  exact ((hempty.add none).set 0 (.of_ne fun _ => Value.noConfusion)).set 0
    (.of_ne fun _ => Value.noConfusion)

end Store.Layered

/-! ## Actions that end -/

def Discipline.layered (program : List Node) : Discipline where
  Binds name v _ := NameStands program name v
  Holds := Store.Layered program
  grow h _ := h
  add parent h := h.add parent
  set id h hv := h.set id hv
  get id name h := h.get id name

/-- From layered scopes, the action ends with layered scopes and a result as in
`good`, or it fails, but not for nesting too deeply. -/
abbrev Ends (program : List Node) (good : α → Nat → Prop) (action : Eval α)
    (m : Machine) : Prop :=
  Upholds (.layered program) (· ≠ .tooDeep) good action m

def MadeValue (program : List Node) (v : Value) (_ : Nat) : Prop :=
  v.MadeBy program

theorem traceable_ends (setting : Setting) (good : Value → Nat → Prop) :
    Traceable setting (· ≠ .tooDeep) good :=
  fun _ _ _ _ _ => Fault.noConfusion

theorem traceParams_ne_tooDeep {index : Nat} {params : List Json} {f : Fault}
    (h : traceParams index params = .error f) : f ≠ .tooDeep := by
  induction params generalizing index with
  | nil => cases h
  | cons param rest ih =>
      cases param with
      | text s =>
          rcases eq_error_of_bind h with h | ⟨names, -, h⟩
          · exact ih h
          · cases h
      | _ =>
          cases h
          exact Fault.noConfusion

theorem evalLiteral_ne_tooDeep {text : Json} {f : Fault}
    (h : evalLiteral text = .error f) : f ≠ .tooDeep := by
  rintro rfl
  unfold evalLiteral at h
  split at h <;> first | cases h | (split at h <;> cases h)

theorem operand_ne_tooDeep {v : Value} {f : Fault}
    (h : operand v = .error f) : f ≠ .tooDeep := by
  rintro rfl
  unfold operand at h
  split at h <;> cases h

theorem applyOperator_ne_tooDeep {operator : Json} {a b : Value} {f : Fault}
    (h : applyOperator operator a b = .error f) : f ≠ .tooDeep := by
  unfold applyOperator at h
  split at h
  · cases h
    exact Fault.noConfusion
  · split at h
    · cases h
      exact Fault.noConfusion
    · rcases eq_error_of_bind h with h | ⟨x, -, h⟩
      · exact operand_ne_tooDeep h
      · rcases eq_error_of_bind h with h | ⟨y, -, h⟩
        · exact operand_ne_tooDeep h
        · split at h
          · cases h
          · cases h
            exact Fault.noConfusion
    · cases h
      exact Fault.noConfusion

/-! ## Evaluation -/

/-- Nodes of a layer end when evaluations may nest as deep as the node and the
layer's calls ask for. -/
def EndingLaw (program : List Node) (setting : Setting) (limit : Nat) : Prop :=
  ∀ (i : Nat) (node : Node) (site : Site) (scope : ScopeId) (m : Machine),
    node.BelongsTo program i → node.depth + callBudget program i ≤ limit →
    Ends program (MadeValue program)
      (evaluate setting limit node site scope) m

section

variable {program : List Node} {setting : Setting} {limit i : Nat}
  {scope : ScopeId} {m : Machine}

/-- A callee that is found was made by a statement of the layer. -/
theorem ends_resolveCallee {callee : Node} {args : List Node}
    (h : (Node.call callee args).BelongsTo program i) (scope : ScopeId)
    (m : Machine) :
    Ends program (MadeValue (program.take i)) (resolveCallee callee scope)
      m := by
  refine .resolveCallee (fun _ _ => Fault.noConfusion)
    (fun _ _ _ => Fault.noConfusion) ?_
  rintro json name rfl hname v n hv
  exact hv.of_callableIn (h.calls _ (Node.mem_parts.mpr (.inl rfl)) name hname)

theorem ends_enterFunction (h : NonRecursive program) {c : Closure}
    (hc : .define c.name c.params c.body ∈ program) {vs : List Value}
    (hvs : ∀ v ∈ vs, v.MadeBy program) (scope : ScopeId) :
    Ends program (fun id n => id < n) (enterFunction setting c vs scope)
      m := by
  have hparams : ∀ name ∈ c.params.filterMap Name.ofJson?,
      name ∉ functionNames program :=
    h.fixed _ (Node.mem_partsAll.mpr ⟨_, hc, Node.mem_parts.mpr (.inl rfl)⟩)
  exact .enterFunction setting scope (fun _ _ _ => Fault.noConfusion)
    fun name hname v hv => .of_not_mem (hvs v hv) (hparams name hname)

/-- A function of the layer ends, since its body is in an earlier layer. -/
theorem ends_callValue (h : NonRecursive program) (hhost : setting.host = [])
    (law : EndingLaw program setting limit)
    (hlimit : callBudget program i ≤ limit) {f : Value}
    (hf : f.MadeBy (program.take i)) {vs : List Value}
    (hvs : ∀ v ∈ vs, v.MadeBy program) (scope : ScopeId) :
    Ends program (MadeValue program) (callValue setting limit f vs scope)
      m := by
  cases f with
  | function c =>
      obtain ⟨j, hj⟩ := List.getElem?_of_mem (hf c rfl)
      rw [List.getElem?_take] at hj
      split at hj
      case isFalse => cases hj
      case isTrue hlt =>
        refine .bind (ends_enterFunction h (List.mem_of_getElem? hj) hvs scope)
          fun frame m₁ _ _ => ?_
        refine (UpholdsEach.of_mem (fun node hnode k m => ?_) 0).evalLast
          (Nat.zero_le _) .nil
        refine law j node _ frame m (h.belongsTo_body hj hnode) ?_
        have hbudget := callBudget_add_depth_le hj hlt
        have hdepth : node.depth < (Node.define c.name c.params c.body).depth :=
          Node.depth_lt_of_mem_children hnode
        omega
  | builtin b =>
      refine .of_leaves (leaves_callBuiltin setting b vs m) ?_
      exact (ensures_callBuiltin hhost b vs m).imp (fun _ _ h => .of_ne h)
        fun _ _ h => h
  | _ => exact .fail Fault.noConfusion

/-- The nodes of a program without recursion come to an end. -/
theorem endingLaw (h : NonRecursive program) (hhost : setting.host = [])
    (limit : Nat) : EndingLaw program setting limit := by
  induction limit with
  | zero =>
      intro i node site scope m _ hlimit
      have hpositive := node.depth_pos
      omega
  | succ limit ih =>
      intro i node site scope m hnode hlimit
      -- An operand is less deep, so the bound without this node is enough.
      have hchild : ∀ child ∈ node.children, ∀ k m,
          Ends program (MadeValue program)
            (evaluate setting limit child (site.child k) scope) m := by
        intro child hmem k m
        have hdepth := Node.depth_lt_of_mem_children hmem
        exact ih i child _ scope m (hnode.child hmem) (by omega)
      cases node with
      | number text =>
          rw [evaluate]
          refine .lift (fun _ => evalLiteral_ne_tooDeep) fun v hv => ?_
          obtain ⟨x, rfl⟩ := eq_number_of_evalLiteral hv
          exact .number x
      | identifier json =>
          rw [evaluate]
          refine .nameOf_bind (fun _ => Fault.noConfusion) fun name _ => ?_
          exact (Upholds.lookup scope name).imp fun _ _ hv => hv.made
      | binary operator left right =>
          obtain ⟨hleft, hright⟩ := List.forall_mem_cons.mp hchild
          rw [evaluate]
          refine .bind (hleft 0 m) fun a m₁ _ _ => ?_
          refine .bind (hright right List.mem_cons_self 1 m₁)
            fun b m₂ _ _ => ?_
          refine .lift (fun _ => applyOperator_ne_tooDeep) fun v hv => ?_
          obtain ⟨z, rfl⟩ := eq_number_of_applyOperator hv
          exact .number z
      | assign json value =>
          refine .assign (traceable_ends setting _)
            (hchild value List.mem_cons_self 0 m)
            (fun _ => Fault.noConfusion) fun name hname v n hv => ?_
          have hfree : name ∉ functionNames program :=
            hnode.fixed _ (Node.mem_parts.mpr (.inl rfl)) name
              (by simp [Node.boundNames, hname])
          exact .of_not_mem hv hfree
      | define json params body =>
          exact absurd rfl (hnode.plain _ (Node.mem_parts.mpr (.inl rfl)) json
            params body)
      | call callee args =>
          have hpositive := (Node.call callee args).depth_pos
          refine .call (traceable_ends setting _) (fun _ _ _ hv _ => hv)
            (.of_mem hchild 0) (ends_resolveCallee hnode scope) ?_
            (Nat.zero_le _)
          exact fun f vs m hf hvs =>
            ends_callValue h hhost ih (by omega) hf hvs scope
      | sequence items =>
          rw [evaluate]
          exact .fail Fault.noConfusion

/-- A definition at the top of the program binds its own name. -/
theorem ends_define (h : NonRecursive program) {json : Json}
    {params : List Json} {body : List Node}
    (hmem : .define json params body ∈ program) (site : Site) :
    Ends program (MadeValue program)
      (evaluate setting (limit + 1) (.define json params body) site scope)
      m := by
  have hmade : (Value.function ⟨json, params, body, scope, site⟩).MadeBy
      program := by
    rintro _ ⟨⟩
    exact hmem
  exact .define (fun _ _ => traceParams_ne_tooDeep)
    (fun _ => Fault.noConfusion)
    (fun _ hname => h.nameStands_define hmem hname) hmade

theorem ends_statement (h : NonRecursive program) (hhost : setting.host = [])
    (hlimit : Node.depthAll program + callBudget program program.length ≤
      setting.limit)
    {statement : Node} (hmem : statement ∈ program) (site : Site) (i : Nat) :
    Ends program (MadeValue program)
      (evalStatement setting site scope i statement) m := by
  have hdepth := Node.depth_le_depthAll hmem
  have hpositive := statement.depth_pos
  have hevaluate : Ends program (MadeValue program)
      (evaluate setting setting.limit statement (site.child i) scope) m := by
    by_cases hdefine : ∃ json params body, statement = .define json params body
    · obtain ⟨json, params, body, rfl⟩ := hdefine
      obtain ⟨limit, heq⟩ : ∃ limit, setting.limit = limit + 1 :=
        Nat.exists_eq_add_one.mpr (by omega)
      rw [heq]
      exact ends_define h hmem _
    · simp only [not_exists] at hdefine
      exact endingLaw h hhost setting.limit program.length statement _ scope m
        (h.belongsTo_top hmem hdefine) (by omega)
  exact .runStatement (traceable_ends setting _) hevaluate

theorem ends_runStatements (h : NonRecursive program)
    (hhost : setting.host = [])
    (hlimit : Node.depthAll program + callBudget program program.length ≤
      setting.limit) (site : Site) :
    Ends program (MadeValue program)
      (runStatements setting site scope program) m := by
  rw [runStatements_eq]
  exact (UpholdsEach.of_mem (fun statement hmem i m =>
    ends_statement h hhost hlimit hmem site i) 0).evalLast (Nat.zero_le _) .nil

end

/-! ## Runs -/

/-- A program that was parsed runs safely in a new session, whatever the bound
on nesting is there. -/
theorem safely_parsed {limit : Nat} {source : String} {program : List Node}
    (hparse : parseProgram limit source = .ok program) (setting : Setting)
    (m : Machine) (hm : Machine.globalScope < m.store.size) :
    let programs : Programs := ⟨[program],
      List.forall_mem_singleton.mpr (isStatement_of_parseProgram hparse)⟩
    Safely programs (SafeValue programs)
      (runStatements setting ⟨0, []⟩ Machine.globalScope program) m := by
  intro programs
  rw [runStatements_eq]
  exact ((safeEvaluator_evalStatement programs setting _ _).each
    (Programs.rowStands_of_loaded rfl)).evalLast hm .nil

/-- **Programs without recursion end.** For such a program there is a bound on
nesting that no run of it comes to: whatever the rule of scoping, the level of
tracing and the input are, a run in a new session ends with a value or with an
error of the language. -/
theorem nonrecursive_programs_end {parseLimit : Nat} {source : String}
    {program : List Node}
    (hparse : parseProgram parseLimit source = .ok program)
    (h : NonRecursive program) :
    ∃ bound, ∀ limit, bound ≤ limit →
      ∀ (lexical : Bool) (level : Int) (input : List Char),
      let run := Session.runNodes program Machine.globalScope
        (Session.startWithin limit lexical level input)
      (∃ v, run.result = .ok v) ∨
        ∃ e, run.result = .error (.fault (.eval e)) := by
  refine ⟨Node.depthAll program + callBudget program program.length, ?_⟩
  intro limit hlimit lexical level input run
  let s := Session.startWithin limit lexical level input
  have hends : (runStatements s.setting ⟨0, []⟩ Machine.globalScope program
      s.machine).Ensures _ _ :=
    ends_runStatements h rfl hlimit _ (.initial program)
  have hsafe : (runStatements s.setting ⟨0, []⟩ Machine.globalScope program
      s.machine).Ensures _ _ :=
    safely_parsed hparse s.setting s.machine Nat.one_pos (.initial _)
  have hrun : run = _ := Session.runNodes_eq program Machine.globalScope s
  rw [hrun]
  change (runStatements s.setting ⟨s.units, []⟩ Machine.globalScope program
    s.machine).Ensures _ _ at hends hsafe
  cases hresult : runStatements s.setting ⟨s.units, []⟩ Machine.globalScope
      program s.machine with
  | done v m => exact Or.inl ⟨v, rfl⟩
  | failed f m =>
      rw [hresult] at hends hsafe
      obtain ⟨-, hexpected⟩ := hsafe
      cases f with
      | eval e => exact Or.inr ⟨e, rfl⟩
      | tooDeep => exact absurd rfl hends.2
      | _ => exact hexpected.elim

/-- Two functions, of which the second is called through a variable and given
itself. -/
def handingOn : List Node :=
  [.define (.text "show") [.text "v"]
      [.call (.identifier (.text "puts")) [.identifier (.text "v")]],
    .define (.text "twice") [.text "g"]
      [.call (.identifier (.text "show")) [.identifier (.text "g")],
        .call (.identifier (.text "show")) [.identifier (.text "g")]],
    .assign (.text "k") (.identifier (.text "twice")),
    .call (.identifier (.text "k")) [.identifier (.text "k")]]

theorem nonRecursive_handingOn : NonRecursive handingOn where
  top := by simp [handingOn, Node.children, Node.partsAll, Node.parts]
  nodup := by decide
  fixed := by decide
  earlier := by
    intro i name params body hdefine
    rcases i with _ | _ | _ | _ | i
    · cases hdefine
      decide
    · cases hdefine
      decide
    all_goals cases hdefine

theorem handing_on_ends :
    (parseProgram 20
      "def show(v) puts(v) end def twice(g) show(g) show(g) end k = twice k(k)"
        = .ok handingOn ∧ NonRecursive handingOn) ∧
    ∃ bound, ∀ limit, bound ≤ limit →
      ∀ (lexical : Bool) (level : Int) (input : List Char),
      let run := Session.runNodes handingOn Machine.globalScope
        (Session.startWithin limit lexical level input)
      (∃ v, run.result = .ok v) ∨
        ∃ e, run.result = .error (.fault (.eval e)) := by
  have hparse : parseProgram 20
      "def show(v) puts(v) end def twice(g) show(g) show(g) end k = twice k(k)"
        = .ok handingOn := by cbv
  exact ⟨⟨hparse, nonRecursive_handingOn⟩,
    nonrecursive_programs_end hparse nonRecursive_handingOn⟩

end Scriptlet
