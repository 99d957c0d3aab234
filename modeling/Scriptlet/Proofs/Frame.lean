import Scriptlet.Proofs.Calls

/-!
# The frame of an evaluation

Evaluating a node in a scope touches nothing that was there before except
this scope, and in it only the names that the node itself assigns or
defines; calls work in scopes of their own, which are new. `Store.Frame`
says this about the stores before and after, and it holds whether the
evaluation returns or fails.

What happens in the scope at hand is recorded as a row of bindings that
were made in it, from which both facts that matter follow: a name that is
not among them has the value it had, and if the row is empty the scope is
the very same.
-/

namespace Scriptlet

/-! ## Names that a node binds -/

/-- The names that an assignment or a definition in a node binds, the
bodies of definitions left out. -/
inductive Node.Binds : Node → Name → Prop
  | left {operator : Json} {left right : Node} {name : Name} :
      left.Binds name → Binds (.binary operator left right) name
  | right {operator : Json} {left right : Node} {name : Name} :
      right.Binds name → Binds (.binary operator left right) name
  | assign {json : Json} {value : Node} {name : Name} :
      Name.ofJson? json = some name → Binds (.assign json value) name
  | value {json : Json} {value : Node} {name : Name} :
      value.Binds name → Binds (.assign json value) name
  | define {json : Json} {params : List Json} {body : List Node}
      {name : Name} :
      Name.ofJson? json = some name → Binds (.define json params body) name
  | callee {callee : Node} {args : List Node} {name : Name} :
      callee.Binds name → Binds (.call callee args) name
  | argument {callee arg : Node} {args : List Node} {name : Name} :
      arg ∈ args → arg.Binds name → Binds (.call callee args) name
  | item {item : Node} {items : List Node} {name : Name} :
      item ∈ items → item.Binds name → Binds (.sequence items) name

/-! ## Frames of stores -/

/-- The scope with a row of bindings made in it, one after the other. -/
def Scope.write (scope : Scope) (bindings : List (Name × Value)) : Scope :=
  bindings.foldl (fun s b => s.set b.1 b.2) scope

theorem Scope.write_append (scope : Scope)
    (first second : List (Name × Value)) :
    scope.write (first ++ second) = (scope.write first).write second :=
  List.foldl_append

theorem Scope.parent_write (scope : Scope)
    (bindings : List (Name × Value)) :
    (scope.write bindings).parent = scope.parent := by
  induction bindings generalizing scope with
  | nil => rfl
  | cons b rest ih => exact ih (scope.set b.1 b.2)

/-- A name that is not written keeps its value. -/
theorem Scope.get?_write {scope : Scope} {bindings : List (Name × Value)}
    {name : Name} (h : ∀ b ∈ bindings, b.1 ≠ name) :
    (scope.write bindings).get? name = scope.get? name := by
  induction bindings generalizing scope with
  | nil => rfl
  | cons b rest ih =>
      obtain ⟨hb, hrest⟩ := List.forall_mem_cons.mp h
      have hset : (scope.set b.1 b.2).get? name = scope.get? name := by
        rw [Scope.get?_set, if_neg (Ne.symm hb)]
      exact (ih hrest).trans hset

namespace Store

/-- From `before` to `after` scopes were added, and in `scope` names in
`changed` were bound; nothing else happened. -/
structure Frame (scope : ScopeId) (changed : Name → Prop)
    (before after : Store) : Prop where
  size_le : before.size ≤ after.size
  others : ∀ id, id < before.size → id ≠ scope →
    after.scope? id = before.scope? id
  here : scope < before.size → ∃ bindings : List (Name × Value),
    (∀ b ∈ bindings, changed b.1) ∧
    after.scope? scope = (before.scope? scope).map (·.write bindings)

namespace Frame

variable {scope other : ScopeId} {changed changed' : Name → Prop}
  {a b c : Store}

theorem refl (scope : ScopeId) (changed : Name → Prop) (a : Store) :
    Frame scope changed a a where
  size_le := Nat.le_refl _
  others := fun _ _ _ => rfl
  here := fun _ => ⟨[], fun _ h => (List.not_mem_nil h).elim, by
    cases a.scope? scope <;> rfl⟩

theorem trans (hab : Frame scope changed a b)
    (hbc : Frame scope changed b c) : Frame scope changed a c where
  size_le := Nat.le_trans hab.size_le hbc.size_le
  others := by
    intro id hid hne
    rw [hbc.others id (Nat.lt_of_lt_of_le hid hab.size_le) hne,
      hab.others id hid hne]
  here := by
    intro hscope
    obtain ⟨first, hfirst, hb⟩ := hab.here hscope
    obtain ⟨second, hsecond, hc⟩ :=
      hbc.here (Nat.lt_of_lt_of_le hscope hab.size_le)
    refine ⟨first ++ second, ?_, ?_⟩
    · intro w hw
      rcases List.mem_append.mp hw with hw | hw
      · exact hfirst w hw
      · exact hsecond w hw
    · rw [hc, hb, Option.map_map]
      congr 1
      funext s
      exact (Scope.write_append s first second).symm

theorem weaken (h : Frame scope changed a b)
    (hchanged : ∀ name, changed name → changed' name) :
    Frame scope changed' a b where
  size_le := h.size_le
  others := h.others
  here := by
    intro hscope
    obtain ⟨bindings, hbindings, hb⟩ := h.here hscope
    exact ⟨bindings, fun w hw => hchanged w.1 (hbindings w hw), hb⟩

/-- What happens in a scope that is newer than `a` is not seen from
`a`. -/
theorem trans_fresh (hab : Frame scope changed a b)
    (hbc : Frame other changed' b c) (hother : a.size ≤ other) :
    Frame scope changed a c where
  size_le := Nat.le_trans hab.size_le hbc.size_le
  others := by
    intro id hid hne
    have hid' : id ≠ other := Nat.ne_of_lt (Nat.lt_of_lt_of_le hid hother)
    rw [hbc.others id (Nat.lt_of_lt_of_le hid hab.size_le) hid',
      hab.others id hid hne]
  here := by
    intro hscope
    obtain ⟨bindings, hbindings, hb⟩ := hab.here hscope
    have hne : scope ≠ other :=
      Nat.ne_of_lt (Nat.lt_of_lt_of_le hscope hother)
    refine ⟨bindings, hbindings, ?_⟩
    rw [hbc.others scope (Nat.lt_of_lt_of_le hscope hab.size_le) hne, hb]

/-- With nothing to change, every scope that was there is the same. -/
theorem scope?_eq (h : Frame scope changed a b)
    (hnone : ∀ name, ¬ changed name) {id : ScopeId} (hid : id < a.size) :
    b.scope? id = a.scope? id := by
  by_cases hne : id = scope
  · subst hne
    obtain ⟨bindings, hbindings, hb⟩ := h.here hid
    cases bindings with
    | nil =>
        rw [hb]
        cases a.scope? id <;> rfl
    | cons w rest =>
        exact absurd (hbindings w List.mem_cons_self) (hnone w.1)
  · exact h.others id hid hne

end Frame

theorem frame_set (store : Store) (scope : ScopeId) {name : Name}
    (value : Value) {changed : Name → Prop} (hname : changed name) :
    Frame scope changed store (store.set scope name value) where
  size_le := Nat.le_of_eq (size_set store scope name value).symm
  others := by
    intro id _ hne
    rw [scope?_set, if_neg (Ne.symm hne)]
  here := by
    intro _
    refine ⟨[(name, value)], ?_, ?_⟩
    · intro w hw
      rw [List.mem_singleton.mp hw]
      exact hname
    · rw [scope?_set, if_pos rfl]
      rfl

theorem scope?_add {store : Store} {parent : Option ScopeId} {id : ScopeId}
    (h : id < store.size) :
    (store.add parent).2.scope? id = store.scope? id := by
  have hne : id ≠ store.scopes.size := Nat.ne_of_lt h
  simp only [add, scope?, Array.getElem?_push, if_neg hne]

theorem frame_add (store : Store) (parent : Option ScopeId)
    (scope : ScopeId) (changed : Name → Prop) :
    Frame scope changed store (store.add parent).2 where
  size_le := by
    rw [size_add]
    exact Nat.le_succ _
  others := fun _ hid _ => scope?_add hid
  here := by
    intro hscope
    refine ⟨[], fun _ h => (List.not_mem_nil h).elim, ?_⟩
    rw [scope?_add hscope]
    cases store.scope? scope <;> rfl

end Store

/-! ## Evaluation -/

/-- Run from `m`, the action stays within the frame, whether it returns or
fails. -/
def Within {α : Type} (scope : ScopeId) (changed : Name → Prop)
    (action : Eval α) (m : Machine) : Prop :=
  (action m).Leaves fun m' => Store.Frame scope changed m.store m'.store

namespace Within

variable {α β : Type} {scope : ScopeId} {changed changed' : Name → Prop}
  {m : Machine}

theorem frame {action : Eval α} (h : Within scope changed action m) :
    Store.Frame scope changed m.store (action m).state.store :=
  Outcome.leaves_iff.mp h

theorem pure (a : α) : Within scope changed (Pure.pure a) m :=
  Store.Frame.refl _ _ _

theorem fail (f : Fault) :
    Within scope changed (Step.fail f : Eval α) m :=
  Store.Frame.refl _ _ _

theorem of_store_eq {action : Eval α}
    (h : (action m).Leaves fun m' => m'.store = m.store) :
    Within scope changed action m := by
  refine h.imp fun m' hm => ?_
  rw [hm]
  exact .refl _ _ _

theorem weaken {action : Eval α} (h : Within scope changed action m)
    (hchanged : ∀ name, changed name → changed' name) :
    Within scope changed' action m :=
  Outcome.Leaves.imp h fun _ hm => hm.weaken hchanged

theorem bind {action : Eval α} {next : α → Eval β}
    (h : Within scope changed action m)
    (hnext : ∀ a m', Within scope changed (next a) m') :
    Within scope changed (action >>= next) m := by
  unfold Within at *
  rw [Outcome.leaves_iff] at *
  rw [Step.bind_apply]
  cases ha : action m with
  | done a m₁ =>
      rw [ha] at h
      exact h.trans (Outcome.leaves_iff.mp (hnext a m₁))
  | failed e m₁ =>
      rw [ha] at h
      exact h

theorem nameOf_bind {json : Json} {next : Name → Eval α}
    (hnext : ∀ name, Name.ofJson? json = some name →
      Within scope changed (next name) m) :
    Within scope changed (Eval.nameOf json >>= next) m :=
  Eval.leaves_nameOf_bind (.refl _ _ _) hnext

theorem bindName {name : Name} (value : Value) (hname : changed name) :
    Within scope changed (Eval.bind scope name value) m :=
  Store.frame_set m.store scope value hname

theorem record (setting : Setting) (required : Int)
    (event : Unit → Except Fault Event) :
    Within scope changed (Eval.record setting required event) m :=
  of_store_eq (Eval.leaves_record setting required event m)

theorem evalEach {eval : Nat → Node → Eval Value} {nodes : List Node}
    (h : ∀ node ∈ nodes, ∀ i m, Within scope changed (eval i node) m)
    (index : Nat) (m : Machine) :
    Within scope changed (Scriptlet.evalEach eval index nodes) m := by
  induction nodes generalizing index m with
  | nil => exact pure []
  | cons node rest ih =>
      obtain ⟨hnode, hrest⟩ := List.forall_mem_cons.mp h
      exact bind (hnode index m) fun v m₁ =>
        bind (ih hrest (index + 1) m₁) fun vs _ => pure (v :: vs)

theorem evalLast {eval : Nat → Node → Eval Value} {nodes : List Node}
    (h : ∀ node ∈ nodes, ∀ i m, Within scope changed (eval i node) m)
    (index : Nat) (last : Value) (m : Machine) :
    Within scope changed (Scriptlet.evalLast eval index last nodes) m := by
  induction nodes generalizing index last m with
  | nil => exact pure last
  | cons node rest ih =>
      obtain ⟨hnode, hrest⟩ := List.forall_mem_cons.mp h
      exact bind (hnode index m) fun v m₁ => ih hrest (index + 1) v m₁

theorem bindParams (scope : ScopeId) (params : List Json)
    (args : List Value) (m : Machine) :
    Within scope (fun _ => True) (Scriptlet.bindParams scope params args)
      m := by
  induction params generalizing args m with
  | nil => exact pure ()
  | cons param params ih =>
      cases args with
      | nil => exact pure ()
      | cons arg args =>
          exact nameOf_bind fun name _ =>
            bind (bindName arg trivial) fun _ m₁ => ih args m₁

end Within

/-- Entering a function makes the next scope, and works in no other. -/
theorem ensures_enterFunction (setting : Setting) (c : Closure)
    (vs : List Value) (scope : ScopeId) (m : Machine) :
    (enterFunction setting c vs scope m).Ensures
      (fun frame m' => frame = m.store.size ∧ frame < m'.store.size ∧
        Store.Frame m.store.size (fun _ => True) m.store m'.store)
      fun _ m' =>
        Store.Frame m.store.size (fun _ => True) m.store m'.store := by
  generalize hparent : (if setting.lexical then c.scope else scope) = parent
  have hadd := Store.frame_add m.store (some parent) m.store.size
    fun _ => True
  have hsize := m.store.size_add (some parent)
  have hparams := Within.bindParams m.store.size c.params vs
    { m with store := (m.store.add (some parent)).2 }
  have hrun : enterFunction setting c vs scope m =
      (do
        bindParams m.store.size c.params vs
        return m.store.size : Eval ScopeId)
        { m with store := (m.store.add (some parent)).2 } := by
    rw [← hparent]
    rfl
  rw [hrun]
  refine Step.ensures_bind
    (Outcome.Ensures.imp hparams (fun _ _ h => h) fun _ _ h => hadd.trans h)
    fun _ m₁ h₁ => ?_
  refine ⟨rfl, ?_, hadd.trans h₁⟩
  exact Nat.lt_of_lt_of_le (hsize ▸ Nat.lt_succ_self _) h₁.size_le

/-- The frame law for all evaluations that nest at most `limit` deep. -/
def FrameLaw (setting : Setting) (limit : Nat) : Prop :=
  ∀ (node : Node) (site : Site) (scope : ScopeId) (m : Machine),
    Within scope node.Binds (evaluate setting limit node site scope) m

section

variable {setting : Setting} {limit : Nat}

theorem within_runBody (ih : FrameLaw setting limit) (c : Closure)
    (frame : ScopeId) (m : Machine) :
    Within frame (fun _ => True) (runBody setting limit c frame) m :=
  Within.evalLast
    (fun node _ _ m => (ih node _ frame m).weaken fun _ _ => trivial) 0 .nil m

/-- Of a call its caller sees nothing in the scopes: the body runs in a
scope that did not exist. -/
theorem within_callValue (ih : FrameLaw setting limit) (f : Value)
    (vs : List Value) (scope : ScopeId) (changed : Name → Prop)
    (m : Machine) :
    Within scope changed (callValue setting limit f vs scope) m := by
  have hnew : ∀ m' : Machine,
      Store.Frame m.store.size (fun _ => True) m.store m'.store →
      Store.Frame scope changed m.store m'.store := fun m' h =>
    (Store.Frame.refl scope changed m.store).trans_fresh h (Nat.le_refl _)
  cases f with
  | function c =>
      refine Step.ensures_bind
        ((ensures_enterFunction setting c vs scope m).imp (fun _ _ h => h)
          fun _ m' h => hnew m' h) ?_
      -- Seen from the caller, the body works in a scope that is new.
      rintro frame m₁ ⟨rfl, _, h₁⟩
      exact (within_runBody ih c m.store.size m₁).imp fun m₂ h₂ =>
        hnew m₂ (h₁.trans h₂)
  | builtin b => exact .of_store_eq (leaves_callBuiltin setting b vs m)
  | _ => exact .fail _

/-- Behind the arguments of a call the caller's scopes are not touched. -/
theorem within_resolve (setting : Setting) (callee : Node) (vs : List Value)
    (scope : ScopeId) (changed : Name → Prop) (m : Machine) :
    Within scope changed (do
      let f ← resolveCallee callee scope
      Eval.record setting 3 fun _ => do
        return .call f.inspect (← traceValues vs)
      return (f, vs)) m := by
  refine .bind (.of_store_eq ((leaves_resolveCallee callee scope m).imp
    fun _ h => by rw [h])) fun f m₁ => ?_
  exact .bind (.record setting 3 _) fun _ _ => .pure (f, vs)

theorem within_callAndLeave (ih : FrameLaw setting limit)
    (call : Value × List Value) (scope : ScopeId) (changed : Name → Prop)
    (m : Machine) :
    Within scope changed (do
      let v ← callValue setting limit call.1 call.2 scope
      Eval.record setting 3 fun _ => do
        return .leave call.1.inspect (← traceValue v)
      return v) m := by
  refine .bind (within_callValue ih call.1 call.2 scope changed m)
    fun v m₁ => ?_
  exact .bind (.record setting 3 _) fun _ _ => .pure v

theorem within_call (ih : FrameLaw setting limit) (callee : Node)
    (args : List Node) (site : Site) (scope : ScopeId) (m : Machine) :
    Within scope (Node.call callee args).Binds
      (evaluate setting (limit + 1) (.call callee args) site scope) m := by
  have hargs : Within scope (Node.call callee args).Binds
      (evalArgs setting limit args site scope) m :=
    .evalEach (fun arg harg _ m =>
      (ih arg _ scope m).weaken fun _ => .argument harg) 0 m
  rw [evaluate_call]
  refine .bind (.bind hargs fun vs m₁ => ?_) fun call m₂ => ?_
  · exact within_resolve setting callee vs scope _ m₁
  · exact within_callAndLeave ih call scope _ m₂

/-- Evaluation works in the scope at hand, and binds in it what the node
binds. -/
theorem frameLaw (setting : Setting) (limit : Nat) :
    FrameLaw setting limit := by
  induction limit with
  | zero => exact fun _ _ _ _ => .fail _
  | succ limit ih =>
      intro node site scope m
      cases node with
      | number text =>
          rw [evaluate]
          exact .of_store_eq (Step.leaves_lift rfl)
      | identifier json =>
          rw [evaluate]
          exact .nameOf_bind fun name _ => .of_store_eq rfl
      | binary operator left right =>
          rw [evaluate]
          refine .bind ((ih left _ scope m).weaken fun _ => .left)
            fun a m₁ => ?_
          refine .bind ((ih right _ scope m₁).weaken fun _ => .right)
            fun b m₂ => ?_
          exact .of_store_eq (Step.leaves_lift rfl)
      | assign json value =>
          rw [evaluate]
          refine .bind ((ih value _ scope m).weaken fun _ => .value)
            fun v m₁ => ?_
          refine .nameOf_bind fun name hname => ?_
          refine .bind (.bindName v (.assign hname)) fun _ m₂ => ?_
          refine .bind (.of_store_eq rfl) fun m₃ _ => ?_
          exact .bind (.record setting 2 _) fun _ _ => .pure v
      | define json params body =>
          rw [evaluate]
          refine .nameOf_bind fun name hname => ?_
          refine .bind (.bindName _ (.define hname)) fun _ m₁ => ?_
          exact .bind (.record setting 2 _) fun _ _ => .pure _
      | call callee args => exact within_call ih callee args site scope m
      | sequence items =>
          rw [evaluate]
          exact .fail _

end

end Scriptlet
