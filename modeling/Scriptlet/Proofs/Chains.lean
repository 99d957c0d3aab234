import Scriptlet.Proofs.Frame

/-!
# Chains of scopes

The chain of a scope leads from it outward. It depends on the parents of
the scopes alone, and an evaluation changes no parents, so the chain of a
scope is the same for as long as there is the scope.

Looking a name up follows the chain: the value is that of the first scope
on it which binds the name (`Store.get_eq`).
-/

namespace Scriptlet

namespace Store

theorem chain_of_parent {store : Store} {id parent : ScopeId}
    (h : (store.scope? id).bind Scope.parent = some parent)
    (hlt : parent < id) : store.chain id = id :: store.chain parent := by
  rw [chain, h]
  exact if_pos hlt

theorem chain_of_not_lt {store : Store} {id parent : ScopeId}
    (h : (store.scope? id).bind Scope.parent = some parent)
    (hlt : ¬ parent < id) : store.chain id = [id] := by
  rw [chain, h]
  exact if_neg hlt

theorem chain_of_none {store : Store} {id : ScopeId}
    (h : (store.scope? id).bind Scope.parent = none) :
    store.chain id = [id] := by
  rw [chain, h]

/-- The chain of the global scope is this scope alone. -/
theorem chain_zero (store : Store) : store.chain 0 = [0] := by
  cases h : (store.scope? 0).bind Scope.parent with
  | none => exact chain_of_none h
  | some parent => exact chain_of_not_lt h (Nat.not_lt_zero parent)

/-- A chain starts at its scope and leads to older ones. -/
theorem chain_eq_cons (store : Store) (id : ScopeId) :
    ∃ older, store.chain id = id :: older ∧ ∀ i ∈ older, i < id := by
  induction id using Nat.strongRecOn with
  | ind id ih =>
      cases h : (store.scope? id).bind Scope.parent with
      | none => exact ⟨[], chain_of_none h, fun _ hi => nomatch hi⟩
      | some parent =>
          by_cases hlt : parent < id
          · obtain ⟨older, heq, holder⟩ := ih parent hlt
            refine ⟨store.chain parent, chain_of_parent h hlt, ?_⟩
            intro i hi
            rw [heq] at hi
            rcases List.mem_cons.mp hi with rfl | hi
            · exact hlt
            · exact Nat.lt_trans (holder i hi) hlt
          · exact ⟨[], chain_of_not_lt h hlt, fun _ hi => nomatch hi⟩

theorem le_of_mem_chain {store : Store} {id i : ScopeId}
    (h : i ∈ store.chain id) : i ≤ id := by
  obtain ⟨older, heq, holder⟩ := store.chain_eq_cons id
  rw [heq] at h
  rcases List.mem_cons.mp h with rfl | h
  · exact Nat.le_refl i
  · exact Nat.le_of_lt (holder i h)

/-- Chains depend on nothing but the parents. -/
theorem chain_congr {a b : Store} (id : ScopeId)
    (h : ∀ i, i ≤ id → (b.scope? i).bind Scope.parent =
      (a.scope? i).bind Scope.parent) : b.chain id = a.chain id := by
  induction id using Nat.strongRecOn with
  | ind id ih =>
      have hid := h id (Nat.le_refl id)
      cases hparent : (a.scope? id).bind Scope.parent with
      | none => rw [chain_of_none hparent, chain_of_none (hid.trans hparent)]
      | some parent =>
          by_cases hlt : parent < id
          · rw [chain_of_parent hparent hlt,
              chain_of_parent (hid.trans hparent) hlt, ih parent hlt]
            intro i hi
            exact h i (Nat.le_trans hi (Nat.le_of_lt hlt))
          · rw [chain_of_not_lt hparent hlt,
              chain_of_not_lt (hid.trans hparent) hlt]

/-- Binding a name changes no parents. -/
theorem chain_set (store : Store) (id other : ScopeId) (name : Name)
    (value : Value) :
    (store.set id name value).chain other = store.chain other := by
  refine chain_congr other fun i _ => ?_
  rw [scope?_set]
  split
  · cases store.scope? i <;> rfl
  · rfl

/-- An evaluation changes no parents. -/
theorem Frame.parent_eq {scope : ScopeId} {changed : Name → Prop}
    {a b : Store} (h : Frame scope changed a b) {id : ScopeId}
    (hid : id < a.size) :
    (b.scope? id).bind Scope.parent = (a.scope? id).bind Scope.parent := by
  by_cases hne : id = scope
  · subst hne
    obtain ⟨bindings, -, hb⟩ := h.here hid
    rw [hb]
    cases a.scope? id with
    | none => rfl
    | some s => exact s.parent_write bindings
  · rw [h.others id hid hne]

theorem Frame.chain_eq {scope : ScopeId} {changed : Name → Prop}
    {a b : Store} (h : Frame scope changed a b) {id : ScopeId}
    (hid : id < a.size) : b.chain id = a.chain id :=
  chain_congr id fun _ hi => h.parent_eq (Nat.lt_of_le_of_lt hi hid)

/-- The chain of a scope that was just made. -/
theorem chain_add (store : Store) {parent : ScopeId}
    (h : parent < store.size) :
    (store.add (some parent)).2.chain store.size =
      store.size :: store.chain parent := by
  have hnew : ((store.add (some parent)).2.scope? store.size).bind
      Scope.parent = some parent := by
    simp [add, scope?, size]
  rw [chain_of_parent hnew h,
    (frame_add store (some parent) parent fun _ => True).chain_eq h]

end Store

def Machine.push (m : Machine) (parent : ScopeId) : Machine :=
  { m with store := (m.store.add (some parent)).2 }

theorem Machine.size_lt_push (m : Machine) (parent : ScopeId) :
    m.store.size < (m.push parent).store.size :=
  Nat.lt_of_lt_of_eq (Nat.lt_succ_self _) (m.store.size_add _).symm

/-- Entering a function is binding its parameters in the new scope. -/
theorem enterFunction_eq (setting : Setting) (c : Closure) (vs : List Value)
    (scope : ScopeId) (m : Machine) :
    enterFunction setting c vs scope m =
      (do
        bindParams m.store.size c.params vs
        return m.store.size : Eval ScopeId)
      (m.push (if setting.lexical then c.scope else scope)) := rfl

/-- A call of a function is what is done in the new scope. -/
theorem callValue_function (setting : Setting) (limit : Nat) (c : Closure)
    (vs : List Value) (scope : ScopeId) (m : Machine) :
    callValue setting limit (.function c) vs scope m =
      (do
        bindParams m.store.size c.params vs
        runBody setting limit c m.store.size : Eval Value)
      (m.push (if setting.lexical then c.scope else scope)) := by
  simp only [callValue, enterFunction, Step.bind_assoc, Step.pure_bind]
  rfl

theorem within_inCall (setting : Setting) (limit : Nat) (c : Closure)
    (vs : List Value) (frame : ScopeId) (m : Machine) :
    Within frame (fun _ => True)
      (do
        bindParams frame c.params vs
        runBody setting limit c frame) m :=
  .bind (.bindParams frame c.params vs m)
    fun _ m₁ => within_runBody (frameLaw setting limit) c frame m₁

namespace Store

/-! ## Looking up -/

/-- The value that a scope itself has for a name. -/
def bound? (store : Store) (name : Name) (id : ScopeId) : Option Value :=
  (store.scope? id).bind (·.get? name)

end Store

theorem Scope.binds_eq (scope : Scope) (name : Name) :
    scope.binds name = (scope.get? name).isSome := by
  unfold binds get?
  induction scope.bindings with
  | nil => rfl
  | cons b rest ih =>
      obtain ⟨n, v⟩ := b
      by_cases h : n = name
      · simp [h]
      · simp [List.lookup_cons, ih, h, beq_false_of_ne (Ne.symm h)]

namespace Store

theorem bindsAt_eq (store : Store) (id : ScopeId) (name : Name) :
    store.bindsAt id name = (store.bound? name id).isSome := by
  unfold bindsAt bound?
  cases store.scope? id with
  | none => rfl
  | some scope => exact scope.binds_eq name

/-- The first scope of a row that binds a name has the first value there
is. -/
theorem bind_find? (store : Store) (name : Name) (ids : List ScopeId) :
    (ids.find? (store.bindsAt · name)).bind (store.bound? name) =
      ids.findSome? (store.bound? name) := by
  induction ids with
  | nil => rfl
  | cons id rest ih =>
      rw [List.find?_cons, List.findSome?_cons, bindsAt_eq]
      cases h : store.bound? name id with
      | none => exact ih
      | some v => exact h

theorem get_eq (store : Store) (id : ScopeId) (name : Name) :
    store.get id name =
      ((store.chain id).findSome? (store.bound? name)).getD .nil := by
  rw [← bind_find?, get, resolve?, Option.bind_assoc]
  rfl

theorem contains_eq (store : Store) (id : ScopeId) (name : Name) :
    store.contains id name =
      ((store.chain id).findSome? (store.bound? name)).isSome := by
  unfold contains resolve?
  induction store.chain id with
  | nil => rfl
  | cons i rest ih =>
      rw [List.find?_cons, List.findSome?_cons, bindsAt_eq]
      cases store.bound? name i with
      | none => exact ih
      | some v => rfl

end Store

end Scriptlet
