import Mathlib.Data.List.Find
import Mathlib.Data.List.Induction
import Scriptlet.Proofs.Chains

/-!
# Scopes and their history

A store is made by operations: scopes are added, with or without a parent,
and names are set in them. What the store answers can be told from the
history of the operations alone, that is, from the parents with which the
scopes were made and the row of all settings (`History`): a scope binds the
names that were ever set in it, in the order in which they were first set,
and a name has the value with which it was set last
(`scopes_answer_from_history`).

Reading is a function of the store and leaves no mark in it, so reads are
not operations here. One lemma says what adding a scope does to store and
history (`History.Describes.add`), one what setting a name does
(`History.Describes.set`); all operations are made of these two.
-/

namespace Scriptlet

/-! ## Operations -/

/-- Something that is done to the scopes of a store. -/
inductive Operation where
  | new (parent : Option ScopeId)
  | child (scope : ScopeId)
  /-- Binds the functions for input and output in a scope, or in a new one. -/
  | console (scope : Option ScopeId)
  | set (scope : ScopeId) (name : Name) (value : Value)

namespace Store

def apply (store : Store) : Operation → Store
  | .new parent => (store.add parent).2
  | .child scope => (store.add (some scope)).2
  | .console (some scope) => store.addConsole scope
  | .console none => (store.add none).2.addConsole store.size
  | .set scope name value => store.set scope name value

/-- The store after operations that begin with no scope at all. -/
def after (operations : List Operation) : Store :=
  operations.foldl apply empty

def parent? (store : Store) (id : ScopeId) : Option ScopeId :=
  (store.scope? id).bind Scope.parent

/-- The way outward from a scope along the parents, to one that has none. -/
inductive Walk (store : Store) : ScopeId → List ScopeId → Prop
  | last {id : ScopeId} : store.parent? id = none → Walk store id [id]
  | step {id parent : ScopeId} {ids : List ScopeId} :
      store.parent? id = some parent → Walk store parent ids →
      Walk store id (id :: ids)

def Leads (store : Store) (id parent : ScopeId) : Prop :=
  store.parent? id = some parent

end Store

/-! ## Histories -/

/-- What was done, without what came of it. -/
structure History where
  /-- The parents of the scopes, in the order in which these were made. -/
  parents : List (Option ScopeId)
  /-- The names that were set, each with its scope and value, the latest
  last. -/
  settings : List (ScopeId × Name × Value)

/-- The settings of the functions for input and output. -/
def consoleSettings (scope : ScopeId) : List (ScopeId × Name × Value) :=
  [(scope, .text "puts", .builtin ⟨"puts", .puts, none⟩),
    (scope, .text "gets", .builtin ⟨"gets", .gets, none⟩)]

namespace History

def empty : History := ⟨[], []⟩

def extend (h : History) : Operation → History
  | .new parent => { h with parents := h.parents ++ [parent] }
  | .child scope => { h with parents := h.parents ++ [some scope] }
  | .console (some scope) =>
    { h with settings := h.settings ++ consoleSettings scope }
  | .console none =>
    ⟨h.parents ++ [none], h.settings ++ consoleSettings h.parents.length⟩
  | .set scope name value =>
    { h with settings := h.settings ++ [(scope, name, value)] }

def of (operations : List Operation) : History :=
  operations.foldl extend empty

/-- What was set in a scope, the latest last. -/
def settingsIn (h : History) (id : ScopeId) : List (Name × Value) :=
  h.settings.filterMap fun s => if s.1 = id then some s.2 else none

/-- The names that were set in a scope, as often as they were. -/
def namesIn (h : History) (id : ScopeId) : List Name :=
  (h.settingsIn id).map (·.1)

/-- The value with which a name was last set in a scope. -/
def latest (h : History) (id : ScopeId) (name : Name) : Option Value :=
  (h.settingsIn id).reverse.lookup name

end History

/-- The operation speaks of no scope but the first `count`. -/
def Operation.Legal (count : Nat) : Operation → Prop
  | .new none => True
  | .new (some parent) => parent < count
  | .child scope => scope < count
  | .console none => True
  | .console (some scope) => scope < count
  | .set scope _ _ => scope < count

instance (count : Nat) : (operation : Operation) →
    Decidable (operation.Legal count)
  | .new none => inferInstanceAs (Decidable True)
  | .new (some parent) => inferInstanceAs (Decidable (parent < count))
  | .child scope => inferInstanceAs (Decidable (scope < count))
  | .console none => inferInstanceAs (Decidable True)
  | .console (some scope) => inferInstanceAs (Decidable (scope < count))
  | .set scope _ _ => inferInstanceAs (Decidable (scope < count))

/-- Each of the operations speaks of scopes that there are by then. -/
def History.Legal : History → List Operation → Prop
  | _, [] => True
  | h, operation :: rest =>
    operation.Legal h.parents.length ∧ Legal (h.extend operation) rest

instance History.decidableLegal : (h : History) →
    (operations : List Operation) → Decidable (h.Legal operations)
  | _, [] => inferInstanceAs (Decidable True)
  | h, operation :: rest =>
    have := decidableLegal (h.extend operation) rest
    inferInstanceAs (Decidable (operation.Legal h.parents.length ∧
      Legal (h.extend operation) rest))

/-- Scopes are only added. -/
theorem History.exists_parents_foldl (h : History)
    (operations : List Operation) :
    ∃ added, (operations.foldl extend h).parents = h.parents ++ added := by
  induction operations generalizing h with
  | nil => exact ⟨[], (List.append_nil _).symm⟩
  | cons operation rest ih =>
      obtain ⟨made, hmade⟩ : ∃ made,
          (h.extend operation).parents = h.parents ++ made := by
        cases operation with
        | new parent => exact ⟨[parent], rfl⟩
        | child scope => exact ⟨[some scope], rfl⟩
        | console scope? =>
            cases scope? with
            | some scope => exact ⟨[], (List.append_nil _).symm⟩
            | none => exact ⟨[none], rfl⟩
        | set scope name value => exact ⟨[], (List.append_nil _).symm⟩
      obtain ⟨added, hadded⟩ := ih (h.extend operation)
      refine ⟨made ++ added, ?_⟩
      rw [List.foldl_cons, hadded, hmade, List.append_assoc]

/-! ## Scopes that were written -/

theorem Scope.names_set (scope : Scope) (name : Name) (value : Value) :
    (scope.set name value).names =
      if name ∈ scope.names then scope.names else scope.names ++ [name] := by
  unfold names set
  dsimp only
  induction scope.bindings with
  | nil => simp [setIn]
  | cons b rest ih =>
      obtain ⟨n, v⟩ := b
      by_cases hn : n = name
      · simp [setIn, hn]
      · have hne : ¬ name = n := fun h => hn h.symm
        simp only [setIn, beq_iff_eq, hn, if_false, List.map_cons, ih,
          List.mem_cons, hne, false_or]
        split <;> simp

/-- A name that is set last comes last, if it was not set before. -/
theorem eraseDups_concat (names : List Name) (name : Name) :
    (names ++ [name]).eraseDups =
      if name ∈ names.eraseDups then names.eraseDups
      else names.eraseDups ++ [name] := by
  simp only [List.eraseDups_append, List.mem_eraseDups]
  by_cases h : name ∈ names <;> simp [List.removeAll, h, List.eraseDups_cons]

section

variable (parent : Option ScopeId) (bindings : List (Name × Value))

/-- A scope has the names that were written in it, each once. -/
theorem Scope.names_write :
    ((Scope.mk parent []).write bindings).names =
      (bindings.map (·.1)).eraseDups := by
  induction bindings using List.reverseRecOn with
  | nil => rfl
  | append_singleton front b ih =>
      obtain ⟨name, value⟩ := b
      rw [Scope.write_append, List.map_append]
      show (((Scope.mk parent []).write front).set name value).names = _
      rw [Scope.names_set, ih]
      exact (eraseDups_concat _ name).symm

/-- A name has the value with which it was written last. -/
theorem Scope.get?_write_eq (name : Name) :
    ((Scope.mk parent []).write bindings).get? name =
      bindings.reverse.lookup name := by
  induction bindings using List.reverseRecOn with
  | nil => rfl
  | append_singleton front b ih =>
      obtain ⟨n, value⟩ := b
      rw [Scope.write_append, List.reverse_append]
      show (((Scope.mk parent []).write front).set n value).get? name = _
      rw [Scope.get?_set, ih]
      by_cases h : name = n
      · simp [h]
      · simp [List.lookup_cons, h, beq_false_of_ne h]

end

/-! ## What a history says about a store -/

/-- The store is as the history tells. -/
structure History.Describes (h : History) (store : Store) : Prop where
  size_eq : store.size = h.parents.length
  scope?_eq : ∀ (id : ScopeId) parent, h.parents[id]? = some parent →
    store.scope? id = some ((Scope.mk parent []).write (h.settingsIn id))
  older : ∀ id parent : ScopeId,
    h.parents[id]? = some (some parent) → parent < id
  exist : ∀ s ∈ h.settings, s.1 < h.parents.length

theorem History.settingsIn_concat (h : History) (scope id : ScopeId)
    (name : Name) (value : Value) :
    settingsIn { h with settings := h.settings ++ [(scope, name, value)] } id =
      if scope = id then h.settingsIn id ++ [(name, value)]
      else h.settingsIn id := by
  unfold settingsIn
  rw [List.filterMap_append]
  split
  · rename_i heq
    simp [heq]
  · rename_i hne
    simp [hne]

theorem getElem?_concat_cases {α : Type} {front : List α} {a b : α} {i : Nat}
    (h : (front ++ [a])[i]? = some b) :
    front[i]? = some b ∧ i < front.length ∨ i = front.length ∧ a = b := by
  rcases Nat.lt_trichotomy i front.length with hlt | rfl | hgt
  · rw [List.getElem?_append_left hlt] at h
    exact Or.inl ⟨h, hlt⟩
  · rw [List.getElem?_concat_length] at h
    exact Or.inr ⟨rfl, Option.some.inj h⟩
  · have hlt := (List.getElem?_eq_some_iff.mp h).1
    rw [List.length_append, List.length_singleton] at hlt
    omega

namespace History.Describes

variable {h : History} {store : Store}

theorem empty : History.empty.Describes Store.empty where
  size_eq := rfl
  scope?_eq := fun _ _ hid => nomatch hid
  older := fun _ _ hid => nomatch hid
  exist := fun _ hs => nomatch hs

/-- In a scope that is not there yet nothing was set. -/
theorem settingsIn_new (hd : h.Describes store) :
    h.settingsIn h.parents.length = [] := by
  refine List.filterMap_eq_nil_iff.mpr fun s hs => if_neg ?_
  exact Nat.ne_of_lt (hd.exist s hs)

/-- Adding a scope whose parent is there. -/
theorem add (hd : h.Describes store) {parent : Option ScopeId}
    (hparent : ∀ p, parent = some p → p < h.parents.length) :
    History.Describes { h with parents := h.parents ++ [parent] }
      (store.add parent).2 where
  size_eq := by
    rw [Store.size_add, hd.size_eq, List.length_append]
    rfl
  scope?_eq := by
    intro id p hid
    rcases getElem?_concat_cases hid with ⟨hold, hlt⟩ | ⟨rfl, rfl⟩
    · rw [Store.scope?_add (hd.size_eq ▸ hlt)]
      exact hd.scope?_eq id p hold
    · have hnew : (store.add parent).2.scope? store.size =
          some ⟨parent, []⟩ := by
        simp [Store.add, Store.scope?, Store.size]
      rw [← hd.size_eq, hnew, hd.size_eq]
      exact congrArg (fun row => some ((Scope.mk parent []).write row))
        hd.settingsIn_new.symm
  older := by
    intro id p hid
    rcases getElem?_concat_cases hid with ⟨hold, -⟩ | ⟨rfl, rfl⟩
    · exact hd.older id p hold
    · exact hparent p rfl
  exist := by
    intro s hs
    rw [List.length_append]
    exact Nat.lt_add_right _ (hd.exist s hs)

/-- Setting a name in a scope that is there. -/
theorem set (hd : h.Describes store) {scope : ScopeId}
    (hscope : scope < h.parents.length) (name : Name) (value : Value) :
    History.Describes
      { h with settings := h.settings ++ [(scope, name, value)] }
      (store.set scope name value) where
  size_eq := (store.size_set scope name value).trans hd.size_eq
  scope?_eq := by
    intro id parent hid
    have hold := hd.scope?_eq id parent hid
    rw [Store.scope?_set, hold, settingsIn_concat]
    split
    · rw [Scope.write_append]
      rfl
    · rfl
  older := hd.older
  exist := by
    intro s hs
    rcases List.mem_append.mp hs with hs | hs
    · exact hd.exist s hs
    · rw [List.mem_singleton.mp hs]
      exact hscope

theorem console (hd : h.Describes store) {scope : ScopeId}
    (hscope : scope < h.parents.length) :
    History.Describes
      { h with settings := h.settings ++ consoleSettings scope }
      (store.addConsole scope) := by
  have hputs := hd.set hscope (.text "puts") (.builtin ⟨"puts", .puts, none⟩)
  have hboth := hputs.set hscope (.text "gets")
    (.builtin ⟨"gets", .gets, none⟩)
  rw [List.append_assoc] at hboth
  exact hboth

/-- An operation does to the store what it does to the history. -/
theorem apply (hd : h.Describes store) {operation : Operation}
    (hlegal : operation.Legal h.parents.length) :
    (h.extend operation).Describes (store.apply operation) := by
  cases operation with
  | new parent =>
      refine hd.add fun p hp => ?_
      subst hp
      exact hlegal
  | child scope =>
      refine hd.add fun p hp => ?_
      cases hp
      exact hlegal
  | console scope? =>
      cases scope? with
      | some scope => exact hd.console hlegal
      | none =>
          have hadd : History.Describes
              { h with parents := h.parents ++ [none] }
              (store.add none).2 := hd.add fun p hp => nomatch hp
          have hnew : h.parents.length < (h.parents ++ [none]).length := by
            simp
          show History.Describes _ ((store.add none).2.addConsole store.size)
          rw [hd.size_eq]
          exact hadd.console hnew
  | set scope name value => exact hd.set hlegal name value

theorem foldl (hd : h.Describes store) {operations : List Operation}
    (hlegal : h.Legal operations) :
    (operations.foldl extend h).Describes
      (operations.foldl Store.apply store) := by
  induction operations generalizing h store with
  | nil => exact hd
  | cons operation rest ih => exact ih (hd.apply hlegal.1) hlegal.2

/-- The history of operations describes the store that they make. -/
theorem after {operations : List Operation}
    (hlegal : History.empty.Legal operations) :
    (History.of operations).Describes (Store.after operations) :=
  empty.foldl hlegal

/-! ## Answers -/

/-- A scope has the parent with which it was made. -/
theorem parent?_eq (hd : h.Describes store) (id : ScopeId) :
    store.parent? id = h.parents[id]?.join := by
  unfold Store.parent?
  cases hid : h.parents[id]? with
  | some parent =>
      rw [hd.scope?_eq id parent hid]
      exact Scope.parent_write _ _
  | none =>
      have hle : store.scopes.size ≤ id :=
        Nat.le_trans (Nat.le_of_eq hd.size_eq)
          (List.getElem?_eq_none_iff.mp hid)
      have hscope : store.scope? id = none := Array.getElem?_eq_none hle
      rw [hscope]
      rfl

theorem parent_lt (hd : h.Describes store) {id parent : ScopeId}
    (hparent : store.Leads id parent) : parent < id := by
  have hjoin := (hd.parent?_eq id).symm.trans hparent
  exact hd.older id parent (Option.join_eq_some_iff.mp hjoin)

/-- Going outward leads to older scopes. -/
theorem lt_of_transGen (hd : h.Describes store) {id other : ScopeId}
    (hpath : Relation.TransGen store.Leads id other) : other < id := by
  induction hpath with
  | single hparent => exact hd.parent_lt hparent
  | tail _ hparent ih => exact Nat.lt_trans (hd.parent_lt hparent) ih

/-- The walk outward ends, and the chain lists what it comes by. -/
theorem walk_chain (hd : h.Describes store) (id : ScopeId) :
    store.Walk id (store.chain id) := by
  induction id using Nat.strongRecOn with
  | ind id ih =>
      cases hparent : store.parent? id with
      | none =>
          rw [Store.chain_of_none hparent]
          exact .last hparent
      | some parent =>
          have hlt := hd.parent_lt hparent
          rw [Store.chain_of_parent hparent hlt]
          exact .step hparent (ih parent hlt)

section

variable {id : ScopeId}

theorem scope?_of_lt (hd : h.Describes store) (hid : id < store.size) :
    ∃ parent, store.scope? id =
      some ((Scope.mk parent []).write (h.settingsIn id)) := by
  have hlt : id < h.parents.length := hd.size_eq ▸ hid
  exact ⟨_, hd.scope?_eq id _ (List.getElem?_eq_getElem hlt)⟩

/-- The names of a scope are those that were set in it, in the order of their
first setting. -/
theorem names_eq (hd : h.Describes store) (hid : id < store.size) :
    store.names id = (h.namesIn id).eraseDups := by
  obtain ⟨parent, hscope⟩ := hd.scope?_of_lt hid
  unfold Store.names
  rw [hscope]
  exact Scope.names_write parent _

theorem bound?_eq (hd : h.Describes store) (hid : id < store.size)
    (name : Name) : store.bound? name id = h.latest id name := by
  obtain ⟨parent, hscope⟩ := hd.scope?_of_lt hid
  unfold Store.bound?
  rw [hscope]
  exact Scope.get?_write_eq parent _ name

/-- A scope binds the names that were ever set in it. -/
theorem bindsAt_eq (hd : h.Describes store) (hid : id < store.size)
    (name : Name) :
    store.bindsAt id name = decide (name ∈ h.namesIn id) := by
  obtain ⟨parent, hscope⟩ := hd.scope?_of_lt hid
  have hnames : name ∈ ((Scope.mk parent []).write (h.settingsIn id)).names ↔
      name ∈ h.namesIn id := by
    rw [Scope.names_write]
    exact List.mem_eraseDups
  unfold Store.bindsAt
  rw [hscope, Option.any_some, Bool.eq_iff_iff, decide_eq_true_iff, ← hnames]
  simp [Scope.binds, Scope.names, List.any_eq_true]

end

/-- A name is found in the first scope on the chain in which it was ever
set. -/
theorem resolve?_eq (hd : h.Describes store) {id : ScopeId}
    (hid : id < store.size) (name : Name) :
    store.resolve? id name =
      (store.chain id).find? fun i => decide (name ∈ h.namesIn i) := by
  refine List.find?_congr fun i hi => hd.bindsAt_eq ?_ name
  exact Nat.lt_of_le_of_lt (Store.le_of_mem_chain hi) hid

/-- A name has the value with which it was last set in the scope where it is
found. -/
theorem get_eq (hd : h.Describes store) {id : ScopeId}
    (hid : id < store.size) (name : Name) :
    store.get id name =
      ((store.resolve? id name).bind fun i => h.latest i name).getD .nil := by
  have hlatest : ((store.resolve? id name).bind store.scope?).bind
      (·.get? name) = (store.resolve? id name).bind fun i => h.latest i name := by
    cases hfound : store.resolve? id name with
    | none => rfl
    | some i =>
        have hi : i ∈ store.chain id := List.mem_of_find?_eq_some hfound
        have hlt := Nat.lt_of_le_of_lt (Store.le_of_mem_chain hi) hid
        exact hd.bound?_eq hlt name
  rw [Store.get, hlatest]

end History.Describes

/-! ## Setting a name -/

namespace Store

section

variable {store : Store} {scope id : ScopeId} {name other : Name}
  {value : Value}

theorem bound?_set_of_ne (h : scope ≠ id ∨ other ≠ name) :
    (store.set scope name value).bound? other id = store.bound? other id := by
  unfold bound?
  rw [scope?_set]
  split
  · rename_i heq
    have hname : ¬ other = name := h.resolve_left fun hne => hne heq
    cases store.scope? id with
    | none => rfl
    | some found =>
        show (found.set name value).get? other = found.get? other
        rw [Scope.get?_set, if_neg hname]
  · rfl

theorem findSome?_set {ids : List ScopeId}
    (h : ∀ i ∈ ids, scope ≠ i ∨ other ≠ name) :
    ids.findSome? ((store.set scope name value).bound? other) =
      ids.findSome? (store.bound? other) := by
  induction ids with
  | nil => rfl
  | cons i rest ih =>
      obtain ⟨hi, hrest⟩ := List.forall_mem_cons.mp h
      rw [List.findSome?_cons, List.findSome?_cons, bound?_set_of_ne hi,
        ih hrest]

/-- Setting a name changes a value only for this name, and only where the
scope is the first on the chain that binds it. -/
theorem of_get_set_ne
    (h : (store.set scope name value).get id other ≠ store.get id other) :
    other = name ∧ ∃ front behind, store.chain id = front ++ scope :: behind ∧
      ∀ i ∈ front, store.bindsAt i name = false := by
  rw [Store.get_eq, Store.get_eq, chain_set] at h
  have hname : other = name := by
    by_contra hne
    exact h (by rw [findSome?_set fun _ _ => Or.inr hne])
  subst hname
  have hmem : scope ∈ store.chain id := by
    by_contra hnot
    have hne : ∀ i ∈ store.chain id, scope ≠ i ∨ other ≠ other := by
      intro i hi
      refine Or.inl ?_
      rintro rfl
      exact hnot hi
    exact h (by rw [findSome?_set hne])
  obtain ⟨front, behind, hsplit, hfront⟩ := List.eq_append_cons_of_mem hmem
  refine ⟨rfl, front, behind, hsplit, fun i hi => ?_⟩
  have hsame : front.findSome? ((store.set scope other value).bound? other) =
      front.findSome? (store.bound? other) := by
    refine findSome?_set fun i hi => Or.inl ?_
    rintro rfl
    exact hfront hi
  rw [hsplit, List.findSome?_append, List.findSome?_append, hsame] at h
  -- A binding in front would be found in either store, and nothing behind it.
  cases hfound : front.findSome? (store.bound? other) with
  | some v =>
      rw [hfound] at h
      exact absurd rfl h
  | none =>
      have hunbound := List.findSome?_eq_none_iff.mp hfound i hi
      rw [bindsAt_eq, hunbound]
      rfl

end

end Store

/-- **Scopes answer from their history.** After operations of any number and
order, each of which speaks of scopes that there are:
no scope is among its own ancestors, and parents stay what they are, whatever
is done later; the walk from a scope outward ends, and it is the chain; the
names of a scope are those that were set in it, in the order in which they
were first set; a name is found in the first scope on the chain in which it
was set, and has the value with which it was last set there. And setting a
name changes what is found for this name only, and only from scopes whose
chain comes to the scope in which it is set before it comes to another that
binds the name. -/
theorem scopes_answer_from_history {operations : List Operation}
    (hlegal : History.empty.Legal operations) :
    let h := History.of operations
    let store := Store.after operations
    (∀ id, ¬ Relation.TransGen store.Leads id id) ∧
    (∀ more id, id < store.size → History.empty.Legal (operations ++ more) →
      (Store.after (operations ++ more)).parent? id = store.parent? id) ∧
    ∀ id < store.size,
      store.parent? id = h.parents[id]?.join ∧
      store.Walk id (store.chain id) ∧
      store.depth id = (store.chain id).length - 1 ∧
      store.names id = (h.namesIn id).eraseDups ∧
      ∀ name,
        store.resolve? id name =
          (store.chain id).find? (fun i => decide (name ∈ h.namesIn i)) ∧
        (store.contains id name = true ↔
          ∃ i ∈ store.chain id, name ∈ h.namesIn i) ∧
        store.get id name =
          ((store.resolve? id name).bind fun i => h.latest i name).getD .nil ∧
        ∀ scope other value,
          (store.set scope other value).get id name ≠ store.get id name →
          name = other ∧ ∃ front behind,
            store.chain id = front ++ scope :: behind ∧
            ∀ i ∈ front, other ∉ h.namesIn i := by
  intro h store
  have hd : h.Describes store := .after hlegal
  have hchain : ∀ {id i}, id < store.size → i ∈ store.chain id →
      i < store.size := fun hid hi =>
    Nat.lt_of_le_of_lt (Store.le_of_mem_chain hi) hid
  refine ⟨fun id hpath => Nat.lt_irrefl id (hd.lt_of_transGen hpath),
    fun more id hid hmore => ?_, fun id hid => ?_⟩
  · have hlater : (History.of (operations ++ more)).Describes
        (Store.after (operations ++ more)) := .after hmore
    obtain ⟨added, hadded⟩ := h.exists_parents_foldl more
    have hparents : (History.of (operations ++ more)).parents =
        h.parents ++ added := by
      rw [← hadded, History.of, List.foldl_append]
      rfl
    rw [hlater.parent?_eq, hd.parent?_eq, hparents,
      List.getElem?_append_left (hd.size_eq ▸ hid)]
  · refine ⟨hd.parent?_eq id, hd.walk_chain id, rfl, hd.names_eq hid,
      fun name => ⟨hd.resolve?_eq hid name, ?_, hd.get_eq hid name,
        fun scope other value hne => ?_⟩⟩
    · rw [Store.contains, hd.resolve?_eq hid name, List.find?_isSome]
      simp only [decide_eq_true_iff]
    · obtain ⟨hname, front, behind, hsplit, hfront⟩ :=
        Store.of_get_set_ne hne
      refine ⟨hname, front, behind, hsplit, fun i hi hset => ?_⟩
      have hlt : i < store.size := by
        refine hchain hid ?_
        rw [hsplit]
        exact List.mem_append_left _ hi
      have hbinds := hfront i hi
      rw [hd.bindsAt_eq hlt, decide_eq_false_iff_not] at hbinds
      exact hbinds hset

/-- A scope with the functions for input and output, one inside it and one
inside that; the name is set in the first two. -/
def shadowing : List Operation :=
  [.console none, .child 0, .child 1,
    .set 0 (.text "x") (.string "outer"), .set 1 (.text "x") .nil]

/-- A name that is bound to nil is bound. -/
theorem nil_hides_outer_value :
    History.empty.Legal shadowing ∧
      (Store.after shadowing).resolve? 2 (.text "x") = some 1 ∧
      (Store.after shadowing).contains 2 (.text "x") = true ∧
      (Store.after shadowing).get 2 (.text "x") = .nil ∧
      (Store.after shadowing).names 0 =
        [.text "puts", .text "gets", .text "x"] := by
  have hlegal : History.empty.Legal shadowing := by decide
  obtain ⟨-, -, hall⟩ := scopes_answer_from_history hlegal
  have hchain : (Store.after shadowing).chain 2 = [2, 1, 0] := by
    have hinner : (Store.after shadowing).parent? 2 = some 1 := rfl
    have houter : (Store.after shadowing).parent? 1 = some 0 := rfl
    rw [Store.chain_of_parent hinner (by decide),
      Store.chain_of_parent houter (by decide), Store.chain_zero]
  obtain ⟨-, -, -, hnames, -⟩ := hall 0 (by decide)
  obtain ⟨-, -, -, -, hname⟩ := hall 2 (by decide)
  obtain ⟨hresolve, hcontains, hget, -⟩ := hname (.text "x")
  have hfound : (Store.after shadowing).resolve? 2 (.text "x") = some 1 := by
    rw [hresolve, hchain]
    decide
  refine ⟨hlegal, hfound, hcontains.mpr ⟨1, ?_, by decide⟩, ?_, ?_⟩
  · rw [hchain]
    decide
  · rw [hget, hfound]
    rfl
  · rw [hnames]
    decide

end Scriptlet
