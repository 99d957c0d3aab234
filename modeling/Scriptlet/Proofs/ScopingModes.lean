import Mathlib
import Scriptlet.Proofs.Chains
import Scriptlet.Proofs.Runs

/-!
# When the two rules of scoping agree

In a program whose definitions all stand at top level, every function
belongs to the global scope. Under lexical scoping a call therefore looks
names up in its own scope and then in the global one; under dynamic scoping
the scopes of its callers come in between. The two rules can only differ
where a name is found there. If in the dynamic run no name ever is
(`Visit.StaysHome`), the lexical run of the program is the same run: the
same value or fault, the same output and input, and the same global
bindings (`scoping_modes_agree`).

The two runs go through scopes with the same numbers and the same bindings;
only the parents of the scopes differ, and the depths that a trace shows.
`Paired` relates the machines of the two runs at corresponding moments, and
`Both` two actions that keep them so.
-/

namespace Scriptlet

/-! ## The names that a run looks up -/

/-- The name that an evaluation looks up itself and the scopes when it does:
a name that is read, or the callee of a call, when the arguments have
values. -/
def Visit.lookup? (setting : Setting) (v : Visit) : Option (Name × Store) :=
  match v.limit, v.node with
  | _ + 1, .identifier json => (Name.ofJson? json).map (·, v.before)
  | limit + 1, .call (.identifier json) args =>
    match evalArgs setting limit args v.site v.scope v.machine with
    | .done _ m => (Name.ofJson? json).map (·, m.store)
    | .failed _ _ => none
  | _, _ => none

/-- If the evaluation is made in a call, it finds the name that it looks up
in the scope of this call, in the global scope, or nowhere. -/
def Visit.StaysHome (setting : Setting) (v : Visit) : Prop :=
  v.scope ≠ Machine.globalScope → ∀ found ∈ v.lookup? setting,
    found.2.resolve? v.scope found.1 ∈
      [none, some v.scope, some Machine.globalScope]

def Visit.AllStayHome (setting : Setting) (v : Visit) : Prop :=
  ∀ b, Visits setting v b → b.StaysHome setting

theorem Visit.AllStayHome.self {setting : Setting} {v : Visit}
    (h : v.AllStayHome setting) : v.StaysHome setting := h v (.refl v)

theorem Visit.AllStayHome.part {setting : Setting} {v x : Visit}
    (h : v.AllStayHome setting) (hx : x ∈ v.parts setting) :
    x.AllStayHome setting :=
  fun b hb => h b (.part hx hb)

/-! ## Definitions at top level -/

/-- No definition stands in the body of another one. -/
def DefinesAtTopOnly (statements : List Node) : Prop :=
  ∀ name params body, Node.define name params body ∈ statements →
    ∀ s ∈ body, ∀ name' params' body', s ≠ .define name' params' body'

/-- A statement that is no definition. -/
inductive IsSimple : Node → Prop
  | expression {e : Node} : IsExpression e → IsSimple e
  | assign {name : Json} {value : Node} : IsExpression value →
      IsSimple (.assign name value)

/-- A statement of a program whose definitions stand at top level. -/
inductive IsTopLevel : Node → Prop
  | simple {s : Node} : IsSimple s → IsTopLevel s
  | define {name : Json} {params : List Json} {body : List Node} :
      (∀ s ∈ body, IsSimple s) → IsTopLevel (.define name params body)

theorem IsStatement.isSimple {s : Node} (h : IsStatement s)
    (hs : ∀ name params body, s ≠ .define name params body) : IsSimple s := by
  cases h with
  | expression he => exact .expression he
  | assign _ hvalue => exact .assign hvalue
  | define _ _ _ => exact absurd rfl (hs _ _ _)

theorem DefinesAtTopOnly.isTopLevel {statements : List Node}
    (h : DefinesAtTopOnly statements) {s : Node} (hmem : s ∈ statements)
    (hs : IsStatement s) : IsTopLevel s := by
  cases hs with
  | expression he => exact .simple (.expression he)
  | assign _ hvalue => exact .simple (.assign hvalue)
  | define _ _ hbody =>
      exact .define fun s hs => (hbody s hs).isSimple (h _ _ _ hmem s hs)

/-- A function is global, and defines none itself. -/
def Value.TopLevel : Value → Prop
  | .function c =>
    c.scope = Machine.globalScope ∧ ∀ s ∈ c.body, IsSimple s
  | _ => True

/-! ## Corresponding machines -/

/-- Two machines that differ at most in the parents of their scopes and in
what they have traced. -/
structure Machine.Agrees (d l : Machine) : Prop where
  size : l.store.size = d.store.size
  bindings : ∀ id, (l.store.scope? id).map Scope.bindings =
    (d.store.scope? id).map Scope.bindings
  input : l.input = d.input
  output : l.output = d.output
  hostCalls : l.hostCalls = d.hostCalls

theorem Machine.Agrees.set {d l : Machine} (h : d.Agrees l) (scope : ScopeId)
    (name : Name) (value : Value) :
    Agrees { d with store := d.store.set scope name value }
      { l with store := l.store.set scope name value } where
  size := by rw [Store.size_set, Store.size_set, h.size]
  bindings := by
    intro id
    have hid := h.bindings id
    rw [Store.scope?_set, Store.scope?_set]
    split
    · have hset : ∀ found : Option Scope,
          (found.map (·.set name value)).map Scope.bindings =
            (found.map Scope.bindings).map (Scope.setIn · name value) := by
        intro found
        cases found <;> rfl
      rw [hset, hset, hid]
    · exact hid
  input := h.input
  output := h.output
  hostCalls := h.hostCalls

theorem Machine.Agrees.push {d l : Machine} (h : d.Agrees l)
    (parent parent' : ScopeId) : (d.push parent).Agrees (l.push parent') where
  size := by
    simp only [Machine.push, Store.size_add, h.size]
  bindings := by
    intro id
    have hid := h.bindings id
    have hsize : l.store.scopes.size = d.store.scopes.size := h.size
    simp only [Machine.push, Store.add, Store.scope?, Array.getElem?_push,
      hsize]
    split
    · rfl
    · exact hid
  input := h.input
  output := h.output
  hostCalls := h.hostCalls

/-- The machines of the dynamic and of the lexical run at corresponding
moments, with the scope at hand. -/
structure Paired (scope : ScopeId) (d l : Machine) : Prop where
  agrees : d.Agrees l
  topLevel : d.store.Holds Value.TopLevel
  scope_lt : scope < d.store.size
  /-- The dynamic chain leads to the global scope. -/
  rooted : Machine.globalScope ∈ d.store.chain scope
  /-- The lexical chain leads there at once. -/
  direct : scope ≠ Machine.globalScope →
    l.store.chain scope = [scope, Machine.globalScope]

/-- If the first hit on a chain is its start or its root, the chain might
as well be these two. -/
theorem find?_of_home {hit : ScopeId → Bool} {scope root : ScopeId}
    {older : List ScopeId} (hroot : root ∈ older)
    (h : (scope :: older).find? hit ∈ [none, some scope, some root]) :
    [scope, root].find? hit = (scope :: older).find? hit := by
  by_cases hown : hit scope = true
  · rw [List.find?_cons_of_pos hown, List.find?_cons_of_pos hown]
  · rw [List.find?_cons_of_neg hown] at h ⊢
    rw [List.find?_cons_of_neg hown]
    cases hfound : older.find? hit with
    | none =>
        exact List.find?_cons_of_neg (List.find?_eq_none.mp hfound root hroot)
    | some id =>
        have hid := List.find?_some hfound
        rw [hfound] at h
        simp only [List.mem_cons, reduceCtorEq, Option.some.injEq,
          List.not_mem_nil, or_false, false_or] at h
        rcases h with rfl | rfl
        · exact absurd hid hown
        · exact List.find?_cons_of_pos hid

namespace Paired

variable {scope : ScopeId} {d l d' l' : Machine}

/-- Chains do not change, so a scope stays paired. -/
theorem later (h : Paired scope d l) (hagrees : d'.Agrees l')
    (htop : d'.store.Holds Value.TopLevel) {changed changed' : Name → Prop}
    {other other' : ScopeId}
    (hd : Store.Frame other changed d.store d'.store)
    (hl : Store.Frame other' changed' l.store l'.store) :
    Paired scope d' l' where
  agrees := hagrees
  topLevel := htop
  scope_lt := Nat.lt_of_lt_of_le h.scope_lt hd.size_le
  rooted := by
    rw [hd.chain_eq h.scope_lt]
    exact h.rooted
  direct := by
    rw [hl.chain_eq (h.agrees.size ▸ h.scope_lt)]
    exact h.direct

theorem bound?_eq (h : Paired scope d l) (name : Name) (id : ScopeId) :
    l.store.bound? name id = d.store.bound? name id := by
  have hbound : ∀ store : Store, store.bound? name id =
      ((store.scope? id).map Scope.bindings).bind (List.lookup name) := by
    intro store
    unfold Store.bound?
    cases store.scope? id <;> rfl
  rw [hbound, hbound, h.agrees.bindings id]

/-- A name that is found at home is found in the same scope under both
rules. -/
theorem resolve?_eq (h : Paired scope d l) {name : Name}
    (hhome : scope ≠ Machine.globalScope → d.store.resolve? scope name ∈
      [none, some scope, some Machine.globalScope]) :
    l.store.resolve? scope name = d.store.resolve? scope name := by
  have hbinds : ∀ id, l.store.bindsAt id name = d.store.bindsAt id name := by
    intro id
    rw [Store.bindsAt_eq, Store.bindsAt_eq, h.bound?_eq]
  unfold Store.resolve? at hhome ⊢
  simp only [hbinds]
  by_cases hscope : scope = Machine.globalScope
  · rw [hscope, Machine.globalScope, Store.chain_zero, Store.chain_zero]
  · have hhome := hhome hscope
    have hrooted := h.rooted
    obtain ⟨older, hchain, -⟩ := d.store.chain_eq_cons scope
    rw [hchain] at hrooted hhome ⊢
    rw [h.direct hscope]
    exact find?_of_home
      ((List.mem_cons.mp hrooted).resolve_left (Ne.symm hscope)) hhome

theorem get_eq (h : Paired scope d l) {name : Name}
    (hhome : scope ≠ Machine.globalScope → d.store.resolve? scope name ∈
      [none, some scope, some Machine.globalScope]) :
    l.store.get scope name = d.store.get scope name := by
  have hget : ∀ store : Store, store.get scope name =
      ((store.resolve? scope name).bind (store.bound? name)).getD .nil := by
    intro store
    rw [Store.get, Option.bind_assoc]
    rfl
  rw [hget, hget, h.resolve?_eq hhome, funext (h.bound?_eq name)]

theorem contains_eq (h : Paired scope d l) {name : Name}
    (hhome : scope ≠ Machine.globalScope → d.store.resolve? scope name ∈
      [none, some scope, some Machine.globalScope]) :
    l.store.contains scope name = d.store.contains scope name := by
  rw [Store.contains, Store.contains, h.resolve?_eq hhome]

theorem get_topLevel (h : Paired scope d l) (name : Name) :
    (d.store.get scope name).TopLevel :=
  h.topLevel.get trivial scope name

theorem bindName (h : Paired scope d l) (name : Name) {value : Value}
    (hvalue : value.TopLevel) :
    Paired scope { d with store := d.store.set scope name value }
      { l with store := l.store.set scope name value } := by
  have hframe : ∀ store : Store, Store.Frame scope (fun _ => True) store
      (store.set scope name value) :=
    fun store => Store.frame_set store scope value trivial
  exact h.later (h.agrees.set scope name value)
    (h.topLevel.set scope name hvalue) (hframe d.store) (hframe l.store)

/-- What is traced plays no part. -/
theorem traced (h : Paired scope d l) (e e' : Event) :
    Paired scope (if d.tracing then { d with trace := d.trace.push e } else d)
      (if l.tracing then { l with trace := l.trace.push e' } else l) := by
  have hkeep : ∀ t t', Paired scope { d with trace := t }
      { l with trace := t' } := fun t t' =>
    ⟨⟨h.agrees.size, h.agrees.bindings, h.agrees.input, h.agrees.output,
      h.agrees.hostCalls⟩, h.topLevel, h.scope_lt, h.rooted, h.direct⟩
  split <;> split
  · exact hkeep _ _
  · exact hkeep _ l.trace
  · exact hkeep d.trace _
  · exact h

/-- A call enters a scope in front of the caller's chain in the dynamic run,
and one in front of the global scope in the lexical run. -/
theorem push (h : Paired scope d l) :
    Paired d.store.size (d.push scope) (l.push Machine.globalScope) where
  agrees := h.agrees.push scope Machine.globalScope
  topLevel := h.topLevel.add (some scope)
  scope_lt := d.size_lt_push scope
  rooted := by
    show _ ∈ (d.store.add (some scope)).2.chain d.store.size
    rw [d.store.chain_add h.scope_lt]
    exact List.mem_cons_of_mem _ h.rooted
  direct := by
    intro _
    have hglobal : Machine.globalScope < l.store.size :=
      Nat.lt_of_le_of_lt (Nat.zero_le scope) (h.agrees.size ▸ h.scope_lt)
    have hchain := l.store.chain_add hglobal
    rw [h.agrees.size] at hchain
    exact hchain.trans (congrArg _ l.store.chain_zero)

end Paired

/-! ## Corresponding actions -/

/-- Two outcomes with the same result, and with paired machines. -/
inductive Outcome.Pairs {α : Type} (scope : ScopeId) (good : α → Prop) :
    Outcome Fault Machine α → Outcome Fault Machine α → Prop
  | done {a : α} {d l : Machine} : good a → Paired scope d l →
      Pairs scope good (.done a d) (.done a l)
  | failed {f : Fault} {d l : Machine} : Paired scope d l →
      Pairs scope good (.failed f d) (.failed f l)

theorem Outcome.Pairs.result_eq {α : Type} {scope : ScopeId} {good : α → Prop}
    {dyn lex : Outcome Fault Machine α} (h : Outcome.Pairs scope good dyn lex) :
    lex.result = dyn.result := by
  cases h <;> rfl

theorem Outcome.Pairs.paired {α : Type} {scope : ScopeId} {good : α → Prop}
    {dyn lex : Outcome Fault Machine α} (h : Outcome.Pairs scope good dyn lex) :
    Paired scope dyn.state lex.state := by
  cases h with
  | done _ h => exact h
  | failed h => exact h

/-- From paired machines the two actions have the same result, and end with
paired machines. -/
def Both {α : Type} (scope : ScopeId) (good : α → Prop) (dyn lex : Eval α)
    (d l : Machine) : Prop :=
  Paired scope d l → Outcome.Pairs scope good (dyn d) (lex l)

namespace Both

variable {α β : Type} {scope : ScopeId} {good : α → Prop}
  {good' : β → Prop} {d l : Machine}

theorem pure {a : α} (h : good a) :
    Both scope good (Pure.pure a) (Pure.pure a) d l :=
  fun hpaired => .done h hpaired

theorem fail (f : Fault) :
    Both scope good (Step.fail f) (Step.fail f) d l :=
  fun hpaired => .failed hpaired

theorem lift {result : Except Fault α} (h : ∀ a, result = .ok a → good a) :
    Both scope good (Step.lift result) (Step.lift result) d l := by
  cases result with
  | ok a => exact pure (h a rfl)
  | error f => exact fail f

theorem bind {dyn lex : Eval α} {next next' : α → Eval β}
    (h : Both scope good dyn lex d l)
    (hnext : ∀ a d' l', dyn d = .done a d' → good a →
      Both scope good' (next a) (next' a) d' l') :
    Both scope good' (dyn >>= next) (lex >>= next') d l := by
  intro hpaired
  have hpairs := h hpaired
  rw [Step.bind_apply, Step.bind_apply]
  generalize hdyn : dyn d = outcome at hpairs ⊢
  generalize lex l = outcome' at hpairs ⊢
  cases hpairs with
  | done ha hpaired => exact hnext _ _ _ hdyn ha hpaired
  | failed hpaired => exact .failed hpaired

theorem get_bind {next next' : Machine → Eval α}
    (h : Both scope good (next d) (next' l) d l) :
    Both scope good (Step.get >>= next) (Step.get >>= next') d l := h

theorem nameOf_bind {json : Json} {next next' : Name → Eval α}
    (h : ∀ name, Name.ofJson? json = some name →
      Both scope good (next name) (next' name) d l) :
    Both scope good (Eval.nameOf json >>= next) (Eval.nameOf json >>= next')
      d l := by
  intro hpaired
  rw [Step.bind_apply, Step.bind_apply]
  cases hjson : Name.ofJson? json with
  | none =>
      rw [Eval.nameOf_of_none hjson, Eval.nameOf_of_none hjson]
      exact .failed hpaired
  | some name =>
      rw [Eval.nameOf_of_some hjson, Eval.nameOf_of_some hjson]
      exact h name hjson hpaired

theorem bindName (name : Name) {value : Value} (h : value.TopLevel) :
    Both scope (fun _ => True) (Eval.bind scope name value)
      (Eval.bind scope name value) d l :=
  fun hpaired => .done trivial (hpaired.bindName name h)

/-- Events may differ in what they show, if they can be put together in both
runs or in none. -/
theorem record {dyn lex : Setting} (hlevel : lex.level = dyn.level)
    (required : Int) {event event' : Unit → Except Fault Event}
    (h : (event' ()).map (fun _ => ()) = (event ()).map fun _ => ()) :
    Both scope (fun _ => True) (Eval.record dyn required event)
      (Eval.record lex required event') d l := by
  unfold Eval.record
  rw [hlevel]
  split
  · intro hpaired
    rw [Step.bind_apply, Step.bind_apply]
    cases hevent : event () <;> cases hevent' : event' () <;>
      rw [hevent, hevent'] at h <;> cases h
    · exact .failed hpaired
    · exact .done trivial (hpaired.traced _ _)
  · exact pure trivial

/-- An event that is the same in both runs. -/
theorem record_same {dyn lex : Setting} (hlevel : lex.level = dyn.level)
    (required : Int) (event : Unit → Except Fault Event) :
    Both scope (fun _ => True) (Eval.record dyn required event)
      (Eval.record lex required event) d l :=
  record hlevel required rfl

theorem evalEach {eval eval' : Nat → Node → Eval Value} {limit : Nat}
    {site : Site} {setting : Setting} {nodes : List Node}
    (h : ∀ i node d l, node ∈ nodes →
      Visit.AllStayHome setting ⟨limit, node, site.child i, scope, d⟩ →
      Both scope Value.TopLevel (eval i node) (eval' i node) d l)
    {index : Nat} (hhome : ∀ x ∈ rowVisits eval limit site scope index nodes d,
      x.AllStayHome setting) :
    Both scope (fun vs => ∀ v ∈ vs, v.TopLevel)
      (Scriptlet.evalEach eval index nodes)
      (Scriptlet.evalEach eval' index nodes) d l := by
  induction nodes generalizing index d l with
  | nil => exact pure fun v hv => (List.not_mem_nil hv).elim
  | cons node rest ih =>
      unfold rowVisits at hhome
      obtain ⟨hfirst, hrest⟩ := List.forall_mem_cons.mp hhome
      refine bind (h index node d l List.mem_cons_self hfirst)
        fun v d₁ l₁ hdone hv => ?_
      rw [hdone] at hrest
      refine bind (ih (fun i node d l hmem =>
        h i node d l (List.mem_cons_of_mem _ hmem)) hrest)
        fun vs d₂ l₂ _ hvs => ?_
      exact pure (List.forall_mem_cons.mpr ⟨hv, hvs⟩)

theorem evalLast {eval eval' : Nat → Node → Eval Value} {limit : Nat}
    {site : Site} {setting : Setting} {nodes : List Node}
    (h : ∀ i node d l, node ∈ nodes →
      Visit.AllStayHome setting ⟨limit, node, site.child i, scope, d⟩ →
      Both scope Value.TopLevel (eval i node) (eval' i node) d l)
    {index : Nat} {last : Value} (hlast : last.TopLevel)
    (hhome : ∀ x ∈ rowVisits eval limit site scope index nodes d,
      x.AllStayHome setting) :
    Both scope Value.TopLevel (Scriptlet.evalLast eval index last nodes)
      (Scriptlet.evalLast eval' index last nodes) d l := by
  induction nodes generalizing index last d l with
  | nil => exact pure hlast
  | cons node rest ih =>
      unfold rowVisits at hhome
      obtain ⟨hfirst, hrest⟩ := List.forall_mem_cons.mp hhome
      refine bind (h index node d l List.mem_cons_self hfirst)
        fun v d₁ l₁ hdone hv => ?_
      rw [hdone] at hrest
      exact ih (fun i node d l hmem =>
        h i node d l (List.mem_cons_of_mem _ hmem)) hv hrest

/-- What is done in the scope of a call leaves the caller's scope paired. -/
theorem inFrame {dyn lex : Eval α} (hpaired : Paired scope d l)
    (h : Both d.store.size good dyn lex (d.push scope)
      (l.push Machine.globalScope))
    (hdyn : Within d.store.size (fun _ => True) dyn (d.push scope))
    (hlex : Within l.store.size (fun _ => True) lex
      (l.push Machine.globalScope)) :
    Outcome.Pairs scope good (dyn (d.push scope))
      (lex (l.push Machine.globalScope)) := by
  have hadd : ∀ (m : Machine) (parent : ScopeId),
      Store.Frame m.store.size (fun _ => True) m.store (m.push parent).store :=
    fun m parent => Store.frame_add m.store (some parent) _ _
  have hpairs := h hpaired.push
  have hd := (hadd d scope).trans hdyn.frame
  have hl := (hadd l Machine.globalScope).trans hlex.frame
  generalize dyn (d.push scope) = outcome at hpairs hd ⊢
  generalize lex (l.push Machine.globalScope) = outcome' at hpairs hl ⊢
  cases hpairs with
  | done ha h => exact .done ha (hpaired.later h.agrees h.topLevel hd hl)
  | failed h => exact .failed (hpaired.later h.agrees h.topLevel hd hl)

end Both

/-! ## Functions from outside the language -/

section

variable {scope : ScopeId} {d l : Machine}

theorem both_writeLine (text : String) :
    Both scope (fun _ => True) (Eval.writeLine text) (Eval.writeLine text)
      d l := by
  intro h
  refine .done trivial ⟨⟨h.agrees.size, h.agrees.bindings, h.agrees.input,
    ?_, h.agrees.hostCalls⟩, h.topLevel, h.scope_lt, h.rooted, h.direct⟩
  exact congrArg (· ++ text ++ "\n") h.agrees.output

theorem both_putLines (vs : List Value) :
    Both scope (fun _ => True) (putLines vs) (putLines vs) d l := by
  induction vs generalizing d l with
  | nil => exact .pure trivial
  | cons v rest ih =>
      unfold putLines
      cases v.display? with
      | none => exact .pure trivial
      | some text => exact .bind (both_writeLine text) fun _ d₁ l₁ _ _ => ih

theorem both_readLine :
    Both scope (fun _ => True) Eval.readLine Eval.readLine d l := by
  intro h
  unfold Eval.readLine
  rw [h.agrees.input]
  cases Text.readLine? d.input with
  | none => exact .done trivial h
  | some found =>
      exact .done trivial ⟨⟨h.agrees.size, h.agrees.bindings, rfl,
        h.agrees.output, h.agrees.hostCalls⟩, h.topLevel, h.scope_lt,
        h.rooted, h.direct⟩

theorem both_callHost {setting : Setting} (hhost : setting.host = [])
    (b : Builtin) (index : Nat) (vs : List Value) :
    Both scope Value.TopLevel (callHost setting b index vs)
      (callHost setting b index vs) d l := by
  intro h
  unfold callHost
  rw [hhost]
  refine .done trivial ⟨⟨h.agrees.size, h.agrees.bindings, h.agrees.input,
    h.agrees.output, ?_⟩, h.topLevel, h.scope_lt, h.rooted, h.direct⟩
  exact congrArg (· + 1) h.agrees.hostCalls

theorem both_callBuiltin {setting : Setting} (hhost : setting.host = [])
    (b : Builtin) (vs : List Value) :
    Both scope Value.TopLevel (callBuiltin setting b vs)
      (callBuiltin setting b vs) d l := by
  have hperform : Both scope Value.TopLevel
      (callBuiltin.perform setting b vs) (callBuiltin.perform setting b vs)
      d l := by
    unfold callBuiltin.perform
    cases b.action with
    | puts =>
        refine .bind (both_putLines vs) fun error d₁ l₁ _ _ => ?_
        cases error with
        | none => exact .pure trivial
        | some error => exact .fail _
    | gets =>
        refine .bind both_readLine fun line d₁ l₁ _ _ => ?_
        cases line <;> exact .pure trivial
    | host index => exact both_callHost hhost b index vs
  unfold callBuiltin
  cases b.arity with
  | none => exact hperform
  | some arity =>
      dsimp only
      split
      · exact hperform
      · exact .fail _

/-! ## Calls -/

theorem both_bindParams (params : List Json) {vs : List Value}
    (hvs : ∀ v ∈ vs, v.TopLevel) :
    Both scope (fun _ => True) (bindParams scope params vs)
      (bindParams scope params vs) d l := by
  induction params generalizing vs d l with
  | nil => exact .pure trivial
  | cons param params ih =>
      cases vs with
      | nil => exact .pure trivial
      | cons v vs =>
          obtain ⟨hv, hvs⟩ := List.forall_mem_cons.mp hvs
          refine .nameOf_bind fun name _ => ?_
          exact .bind (.bindName name hv) fun _ d₁ l₁ _ _ => ih hvs

theorem both_resolveCallee {json : Json}
    (hhome : scope ≠ Machine.globalScope → ∀ name,
      Name.ofJson? json = some name → d.store.resolve? scope name ∈
        [none, some scope, some Machine.globalScope]) :
    Both scope Value.TopLevel (resolveCallee (.identifier json) scope)
      (resolveCallee (.identifier json) scope) d l := by
  refine .nameOf_bind fun name hname hpaired => ?_
  have hfound := fun hscope => hhome hscope name hname
  rw [Step.bind_apply, Step.bind_apply, Step.get_apply, Step.get_apply]
  dsimp only
  rw [hpaired.contains_eq hfound]
  split
  · show Outcome.Pairs scope _ (.done (d.store.get scope name) d)
      (.done (l.store.get scope name) l)
    rw [hpaired.get_eq hfound]
    exact .done (hpaired.get_topLevel name) hpaired
  · exact .failed hpaired

end

def Setting.lexically (setting : Setting) : Setting :=
  { setting with lexical := true }

/-- Both rules of scoping evaluate a simple statement alike, if in the
dynamic run all evaluations within stay home. -/
def ModesLaw (setting : Setting) (limit : Nat) : Prop :=
  ∀ (node : Node) (site : Site) (scope : ScopeId) (d l : Machine),
    IsSimple node → Visit.AllStayHome setting ⟨limit, node, site, scope, d⟩ →
    Both scope Value.TopLevel (evaluate setting limit node site scope)
      (evaluate setting.lexically limit node site scope) d l

section

variable {setting : Setting} {limit : Nat} {scope : ScopeId} {d l : Machine}

theorem both_function (hlexical : setting.lexical = false)
    (law : ModesLaw setting limit) {c : Closure}
    (hc : (Value.function c).TopLevel) {vs : List Value}
    (hvs : ∀ v ∈ vs, v.TopLevel)
    (hhome : ∀ frame m, enterFunction setting c vs scope d = .done frame m →
      ∀ x ∈ nestedVisits setting limit c.site frame c.body m,
        x.AllStayHome setting) :
    Both scope Value.TopLevel
      (callValue setting limit (.function c) vs scope)
      (callValue setting.lexically limit (.function c) vs scope) d l := by
  intro hpaired
  have hdyn : (if setting.lexical then c.scope else scope) = scope := by
    rw [hlexical]
    rfl
  have hlex : (if setting.lexically.lexical then c.scope else scope) =
      Machine.globalScope := hc.1
  rw [callValue_function, callValue_function, hdyn, hlex, hpaired.agrees.size]
  refine Both.inFrame hpaired ?_ (within_inCall ..) ?_
  · refine .bind (both_bindParams c.params hvs) fun _ d₁ l₁ hbound _ => ?_
    refine .evalLast (fun i s d l hs => law s _ _ d l (hc.2 s hs)) trivial ?_
    refine hhome d.store.size d₁ ?_
    rw [enterFunction_eq, hdyn, Step.bind_apply, hbound]
    rfl
  · rw [← hpaired.agrees.size]
    exact within_inCall ..

theorem both_callValue (hlexical : setting.lexical = false)
    (hhost : setting.host = []) (law : ModesLaw setting limit)
    {call : Value × List Value} (hf : call.1.TopLevel)
    (hvs : ∀ v ∈ call.2, v.TopLevel)
    (hhome : ∀ c frame m, call.1 = .function c →
      enterFunction setting c call.2 scope d = .done frame m →
      ∀ x ∈ nestedVisits setting limit c.site frame c.body m,
        x.AllStayHome setting) :
    Both scope Value.TopLevel (callValue setting limit call.1 call.2 scope)
      (callValue setting.lexically limit call.1 call.2 scope) d l := by
  obtain ⟨f, vs⟩ := call
  cases f with
  | function c =>
      exact both_function hlexical law hf hvs fun frame m => hhome c frame m rfl
  | builtin b => exact both_callBuiltin hhost b vs
  | _ => exact .fail _

theorem both_prepareCall (law : ModesLaw setting limit) {json : Json}
    {args : List Node} {site : Site}
    (hargs : ∀ arg ∈ args, IsExpression arg)
    (hhome : Visit.AllStayHome setting
      ⟨limit + 1, .call (.identifier json) args, site, scope, d⟩) :
    Both scope (fun call => call.1.TopLevel ∧ ∀ v ∈ call.2, v.TopLevel)
      (prepareCall setting limit (.identifier json) args site scope)
      (prepareCall setting.lexically limit (.identifier json) args site scope)
      d l := by
  have hrow : Both scope (fun vs => ∀ v ∈ vs, v.TopLevel)
      (evalArgs setting limit args site scope)
      (evalArgs setting.lexically limit args site scope) d l :=
    .evalEach (fun i arg d l harg =>
      law arg (site.child i) scope d l (.expression (hargs arg harg)))
      fun x hx => hhome.part (List.mem_append_left _ hx)
  refine .bind hrow fun vs d₁ l₁ hdone hvs => ?_
  refine .bind (both_resolveCallee fun hscope name hname => ?_)
    fun f d₂ l₂ _ hf => ?_
  · refine hhome.self hscope (name, d₁.store) ?_
    simp only [Visit.lookup?, hdone, hname]
    rfl
  · exact .bind (.record_same rfl 3 _) fun _ d₃ l₃ _ _ => .pure ⟨hf, hvs⟩

theorem both_call (hlexical : setting.lexical = false)
    (hhost : setting.host = []) (law : ModesLaw setting limit) {json : Json}
    {args : List Node} {site : Site}
    (hargs : ∀ arg ∈ args, IsExpression arg)
    (hhome : Visit.AllStayHome setting
      ⟨limit + 1, .call (.identifier json) args, site, scope, d⟩) :
    Both scope Value.TopLevel
      (evaluate setting (limit + 1) (.call (.identifier json) args) site scope)
      (evaluate setting.lexically (limit + 1) (.call (.identifier json) args)
        site scope) d l := by
  rw [evaluate_call, evaluate_call]
  refine .bind (both_prepareCall law hargs hhome)
    fun call d₁ l₁ hprepare hcall => ?_
  refine .bind (both_callValue hlexical hhost law hcall.1 hcall.2 ?_)
    fun v d₂ l₂ _ hv => ?_
  · intro c frame m hc henter x hx
    refine hhome.part (List.mem_append_right _ ?_)
    have hentered : enterCall setting limit (.identifier json) args site scope
        d = .done (some (c, frame)) m := by
      rw [enterCall, Step.bind_apply, hprepare]
      dsimp only
      rw [hc]
      dsimp only
      rw [Step.bind_apply, henter]
      rfl
    show x ∈ bodyVisits setting limit (.identifier json) args site scope d
    rw [bodyVisits, hentered]
    exact hx
  · exact .bind (.record_same rfl 3 _) fun _ d₃ l₃ _ _ => .pure hv

/-! ## Statements -/

theorem applyOperator_topLevel {operator : Json} {a b v : Value}
    (h : applyOperator operator a b = .ok v) : v.TopLevel := by
  obtain ⟨z, rfl⟩ := eq_number_of_applyOperator h
  exact trivial

theorem both_expression (hlexical : setting.lexical = false)
    (hhost : setting.host = []) (law : ModesLaw setting limit) {e : Node}
    (he : IsExpression e) {site : Site}
    (hhome : Visit.AllStayHome setting ⟨limit + 1, e, site, scope, d⟩) :
    Both scope Value.TopLevel (evaluate setting (limit + 1) e site scope)
      (evaluate setting.lexically (limit + 1) e site scope) d l := by
  cases he with
  | number htext =>
      obtain ⟨x, hx⟩ := evalLiteral_of_isNumeral htext
      rw [evaluate, evaluate, hx]
      exact .pure trivial
  | @identifier name _ =>
      rw [evaluate, evaluate]
      intro hpaired
      have hfound := fun hscope => hhome.self hscope (.text name, d.store) rfl
      show Outcome.Pairs scope _ (.done (d.store.get scope (.text name)) d)
        (.done (l.store.get scope (.text name)) l)
      rw [hpaired.get_eq hfound]
      exact .done (hpaired.get_topLevel _) hpaired
  | @binary operator left right _ hleft hright =>
      rw [evaluate, evaluate]
      refine .bind (law left _ scope d l (.expression hleft)
        (hhome.part List.mem_cons_self)) fun a d₁ l₁ hdone _ => ?_
      refine .bind (law right _ scope d₁ l₁ (.expression hright)
        (hhome.part ?_)) fun b d₂ l₂ _ _ => ?_
      · simp [Visit.parts, nestedVisits, Node.operands, rowVisits, hdone]
      · exact .lift fun v hv => applyOperator_topLevel hv
  | call _ hargs => exact both_call hlexical hhost law hargs hhome

theorem both_assign (law : ModesLaw setting limit) {json : Json} {value : Node}
    (hvalue : IsExpression value) {site : Site}
    (hhome : Visit.AllStayHome setting
      ⟨limit + 1, .assign json value, site, scope, d⟩) :
    Both scope Value.TopLevel
      (evaluate setting (limit + 1) (.assign json value) site scope)
      (evaluate setting.lexically (limit + 1) (.assign json value) site scope)
      d l := by
  rw [evaluate, evaluate]
  refine .bind (law value _ scope d l (.expression hvalue)
    (hhome.part List.mem_cons_self)) fun v d₁ l₁ _ hv => ?_
  refine .nameOf_bind fun name _ => ?_
  refine .bind (.bindName name hv) fun _ d₂ l₂ _ _ => ?_
  have hlevel : setting.lexically.level = setting.level := rfl
  -- The two runs trace different depths.
  refine .get_bind (.bind (.record hlevel 2 ?_) fun _ d₃ l₃ _ _ => .pure hv)
  cases traceValue v <;> rfl

theorem modesLaw (hlexical : setting.lexical = false)
    (hhost : setting.host = []) (limit : Nat) : ModesLaw setting limit := by
  induction limit with
  | zero => exact fun _ _ _ _ _ _ _ => .fail _
  | succ limit ih =>
      intro node site scope d l hnode hhome
      cases hnode with
      | expression he => exact both_expression hlexical hhost ih he hhome
      | assign hvalue => exact both_assign ih hvalue hhome

/-! ## Programs -/

/-- A definition at top level makes a function of the global scope. -/
theorem both_define {json : Json} {params : List Json} {body : List Node}
    (hbody : ∀ s ∈ body, IsSimple s) (limit : Nat) (site : Site) :
    Both Machine.globalScope Value.TopLevel
      (evaluate setting limit (.define json params body) site
        Machine.globalScope)
      (evaluate setting.lexically limit (.define json params body) site
        Machine.globalScope) d l := by
  cases limit with
  | zero => exact .fail _
  | succ limit =>
      have hf : (Value.function ⟨json, params, body, Machine.globalScope,
          site⟩).TopLevel := ⟨rfl, hbody⟩
      rw [evaluate, evaluate]
      refine .nameOf_bind fun name _ => ?_
      refine .bind (.bindName name hf) fun _ d₁ l₁ _ _ => ?_
      exact .bind (.record_same rfl 2 _) fun _ d₂ l₂ _ _ => .pure hf

theorem both_runStatements (hlexical : setting.lexical = false)
    (hhost : setting.host = []) {site : Site} {statements : List Node}
    (htop : ∀ s ∈ statements, IsTopLevel s)
    (hhome : ∀ x ∈ programVisits setting site Machine.globalScope statements d,
      x.AllStayHome setting) :
    Both Machine.globalScope Value.TopLevel
      (runStatements setting site Machine.globalScope statements)
      (runStatements setting.lexically site Machine.globalScope statements)
      d l := by
  rw [runStatements_eq, runStatements_eq]
  refine .evalLast (fun i s d l hs hhome => ?_) trivial hhome
  have hstatement : Both Machine.globalScope Value.TopLevel
      (evaluate setting setting.limit s (site.child i) Machine.globalScope)
      (evaluate setting.lexically setting.limit s (site.child i)
        Machine.globalScope) d l := by
    cases htop s hs with
    | simple hsimple => exact modesLaw hlexical hhost _ s _ _ d l hsimple hhome
    | define hbody => exact both_define hbody _ _
  refine .bind hstatement fun v d₁ l₁ _ hv => ?_
  exact .bind (.record_same rfl 1 _) fun _ d₂ l₂ _ _ => .pure hv

end

namespace Session

theorem result_runNodes (statements : List Node) (scope : ScopeId)
    (s : Session) :
    (runNodes statements scope s).result =
      (runStatements s.setting ⟨s.units, []⟩ scope statements
        s.machine).result.mapError Failure.fault := by
  rw [runNodes_eq]
  cases runStatements s.setting ⟨s.units, []⟩ scope statements s.machine <;>
    rfl

theorem machine_runNodes (statements : List Node) (scope : ScopeId)
    (s : Session) :
    (runNodes statements scope s).state.machine =
      (runStatements s.setting ⟨s.units, []⟩ scope statements
        s.machine).state := by
  rw [runNodes_eq]
  cases runStatements s.setting ⟨s.units, []⟩ scope statements s.machine <;>
    rfl

end Session

/-- At the start there is only the global scope, with functions from outside
the language. -/
theorem Paired.initial (tracing : Bool) (input : List Char) :
    Paired Machine.globalScope (Machine.initial tracing input)
      (Machine.initial tracing input) where
  agrees := ⟨rfl, fun _ => rfl, rfl, rfl, rfl⟩
  topLevel := .initial trivial trivial
  scope_lt := Nat.one_pos
  rooted := by
    rw [Machine.globalScope, Store.chain_zero]
    exact List.mem_singleton_self _
  direct := fun h => absurd rfl h

/-- **The two rules of scoping agree.** Take a program whose definitions all
stand at top level, and suppose that in its run under dynamic scoping every
name that is read or called in a function is found in the scope of the call
or in the global one, or not at all. Then its run under lexical scoping ends
with the same value or failure, the same output, the same rest of the input
and the same global bindings. -/
theorem scoping_modes_agree (limit : Nat) (level : Int) (input : List Char)
    {source : String} {statements : List Node}
    (hparse : parseProgram limit source = .ok statements)
    (htop : DefinesAtTopOnly statements)
    (hhome : ∀ x ∈ programVisits ⟨false, level, limit, []⟩ ⟨0, []⟩
      Machine.globalScope statements (Machine.initial (0 < level) input),
      x.AllStayHome ⟨false, level, limit, []⟩) :
    let run := fun lexical => Session.runSource source Machine.globalScope
      (Session.startWithin limit lexical level input)
    (run true).result = (run false).result ∧
    (run true).state.machine.output = (run false).state.machine.output ∧
    (run true).state.machine.input = (run false).state.machine.input ∧
    ((run true).state.machine.store.scope? Machine.globalScope).map
        Scope.bindings =
      ((run false).state.machine.store.scope? Machine.globalScope).map
        Scope.bindings := by
  intro run
  have hrun : ∀ lexical, run lexical = Session.runNodes statements
      Machine.globalScope (Session.startWithin limit lexical level input) :=
    fun lexical => Session.runSource_of_ok hparse
  have hstatements : ∀ s ∈ statements, IsTopLevel s := fun s hs =>
    htop.isTopLevel hs (isStatement_of_parseProgram hparse s hs)
  have hpairs := both_runStatements rfl rfl hstatements hhome
    (Paired.initial (0 < level) input)
  rw [hrun true, hrun false, Session.result_runNodes, Session.result_runNodes,
    Session.machine_runNodes, Session.machine_runNodes]
  have hagrees := hpairs.paired.agrees
  exact ⟨congrArg _ hpairs.result_eq, hagrees.output, hagrees.input,
    hagrees.bindings _⟩

/-! ## Checking a run -/

instance (setting : Setting) (v : Visit) : Decidable (v.StaysHome setting) :=
  inferInstanceAs (Decidable (_ → _))

/-- A text in which a function gets another one as its argument and hands it
on, and a call leaves out an argument. -/
def handedOnText : String :=
  "def g(y) y end def f(x) a = g; a(x) end b = f(puts); b(g())"

def handedOnProgram : List Node :=
  [.define (.text "g") [.text "y"] [.identifier (.text "y")],
    .define (.text "f") [.text "x"]
      [.assign (.text "a") (.identifier (.text "g")),
        .call (.identifier (.text "a")) [.identifier (.text "x")]],
    .assign (.text "b")
      (.call (.identifier (.text "f")) [.identifier (.text "puts")]),
    .call (.identifier (.text "b")) [.call (.identifier (.text "g")) []]]

theorem handed_on_function_agrees :
    parseProgram 20 handedOnText = .ok handedOnProgram ∧
    DefinesAtTopOnly handedOnProgram ∧
    (∀ x ∈ programVisits ⟨false, 3, 20, []⟩ ⟨0, []⟩ Machine.globalScope
      handedOnProgram (Machine.initial true []),
      x.AllStayHome ⟨false, 3, 20, []⟩) ∧
    (Session.runSource handedOnText Machine.globalScope
      (Session.startWithin 20 true 3 [])).state.machine.output = "nil\n" := by
  have hparse : parseProgram 20 handedOnText = .ok handedOnProgram := by cbv
  have htop : DefinesAtTopOnly handedOnProgram := by
    intro name params body hmem s hs _ _ _ rfl
    simp only [handedOnProgram, List.mem_cons, List.not_mem_nil, or_false,
      Node.define.injEq, reduceCtorEq] at hmem
    rcases hmem with ⟨rfl, rfl, rfl⟩ | ⟨rfl, rfl, rfl⟩ <;> simp at hs
  have hall : (programVisits ⟨false, 3, 20, []⟩ ⟨0, []⟩ Machine.globalScope
      handedOnProgram (Machine.initial true [])).all
        (fun x => (x.within ⟨false, 3, 20, []⟩ 20).all fun b =>
          decide (b.StaysHome ⟨false, 3, 20, []⟩)) = true := by cbv
  have hhome : ∀ x ∈ programVisits ⟨false, 3, 20, []⟩ ⟨0, []⟩
      Machine.globalScope handedOnProgram (Machine.initial true []),
      x.AllStayHome ⟨false, 3, 20, []⟩ := by
    intro x hx b hb
    have hlimit : x.limit = 20 := limit_of_mem_rowVisits hx
    exact of_decide_eq_true (List.all_eq_true.mp
      (List.all_eq_true.mp hall x hx) b (hb.mem_within hlimit.le))
  have houtput : (Session.runSource handedOnText Machine.globalScope
      (Session.startWithin 20 false 3 [])).state.machine.output = "nil\n" := by
    cbv
  have hagree := scoping_modes_agree 20 3 [] hparse htop hhome
  exact ⟨hparse, htop, hhome, hagree.2.1.trans houtput⟩

end Scriptlet
