import Scriptlet.Value.Basic

/-!
# Scopes

A scope holds the bindings of names, in the order in which they were first
bound, and may have an enclosing scope. Looking a name up goes outward;
binding it always happens in the scope at hand, where it may hide a
binding further out but never changes it.

Scopes are numbered in a store in order of creation. A scope's parent is
older than the scope itself, so every walk outward ends.
-/

namespace Scriptlet

structure Scope where
  parent : Option ScopeId
  bindings : List (Name × Value)
  deriving Repr, Inhabited

namespace Scope

def binds (scope : Scope) (name : Name) : Bool :=
  scope.bindings.any fun b => b.1 == name

def get? (scope : Scope) (name : Name) : Option Value :=
  scope.bindings.lookup name

/-- Sets a name's value; a name that is bound already keeps its place. -/
def setIn : List (Name × Value) → Name → Value → List (Name × Value)
  | [], name, value => [(name, value)]
  | (n, v) :: rest, name, value =>
    if n == name then (n, value) :: rest else (n, v) :: setIn rest name value

def set (scope : Scope) (name : Name) (value : Value) : Scope :=
  { scope with bindings := setIn scope.bindings name value }

def names (scope : Scope) : List Name := scope.bindings.map (·.1)

theorem lookup_setIn (bindings : List (Name × Value)) (name other : Name)
    (value : Value) :
    (setIn bindings name value).lookup other =
      if other = name then some value else bindings.lookup other := by
  induction bindings with
  | nil =>
      by_cases h : other = name
      · simp [setIn, h]
      · simp [setIn, List.lookup_cons, h, beq_false_of_ne h]
  | cons b rest ih =>
      obtain ⟨n, v⟩ := b
      by_cases hn : n = name
      · subst hn
        by_cases h : other = n
        · simp [setIn, h]
        · simp [setIn, List.lookup_cons, h, beq_false_of_ne h]
      · by_cases h : other = n
        · subst h
          simp [setIn, hn]
        · simp [setIn, List.lookup_cons, hn, ih, beq_false_of_ne h]

/-- Setting a name changes the value of that name only. -/
theorem get?_set (scope : Scope) (name other : Name) (value : Value) :
    (scope.set name value).get? other =
      if other = name then some value else scope.get? other :=
  lookup_setIn scope.bindings name other value

@[simp] theorem parent_set (scope : Scope) (name : Name) (value : Value) :
    (scope.set name value).parent = scope.parent := rfl

end Scope

structure Store where
  scopes : Array Scope
  deriving Repr, Inhabited

namespace Store

def empty : Store := ⟨#[]⟩

def size (store : Store) : Nat := store.scopes.size

def scope? (store : Store) (id : ScopeId) : Option Scope := store.scopes[id]?

/-- Adds a scope and gives its number. -/
def add (store : Store) (parent : Option ScopeId) : ScopeId × Store :=
  (store.size, ⟨store.scopes.push ⟨parent, []⟩⟩)

@[simp] theorem size_add (store : Store) (parent : Option ScopeId) :
    (store.add parent).2.size = store.size + 1 := by
  simp [add, size]

/-- A scope's number and those of its ancestors, innermost first. -/
def chain (store : Store) (id : ScopeId) : List ScopeId :=
  match (store.scope? id).bind Scope.parent with
  | some parent =>
    if parent < id then id :: store.chain parent else [id]
  | none => [id]

def depth (store : Store) (id : ScopeId) : Nat :=
  (store.chain id).length - 1

def bindsAt (store : Store) (id : ScopeId) (name : Name) : Bool :=
  (store.scope? id).any (·.binds name)

/-- The innermost scope that binds a name. -/
def resolve? (store : Store) (id : ScopeId) (name : Name) : Option ScopeId :=
  (store.chain id).find? (store.bindsAt · name)

def contains (store : Store) (id : ScopeId) (name : Name) : Bool :=
  (store.resolve? id name).isSome

/-- The value of a name; a name that is not bound anywhere is nil. -/
def get (store : Store) (id : ScopeId) (name : Name) : Value :=
  (((store.resolve? id name).bind store.scope?).bind (·.get? name)).getD .nil

def set (store : Store) (id : ScopeId) (name : Name) (value : Value) :
    Store :=
  ⟨store.scopes.modify id (·.set name value)⟩

@[simp] theorem size_set (store : Store) (id : ScopeId) (name : Name)
    (value : Value) : (store.set id name value).size = store.size := by
  simp [set, size]

/-- Binding a name leaves every other scope alone. -/
theorem scope?_set (store : Store) (id other : ScopeId) (name : Name)
    (value : Value) :
    (store.set id name value).scope? other =
      if id = other then (store.scope? other).map (·.set name value)
      else store.scope? other := by
  simp only [set, scope?, Array.getElem?_modify]

/-- The names that a scope binds, in the order of their first binding. -/
def names (store : Store) (id : ScopeId) : List Name :=
  ((store.scope? id).map Scope.names).getD []

/-- Binds the two functions for input and output in a scope. -/
def addConsole (store : Store) (id : ScopeId) : Store :=
  (store.set id (.text "puts") (.builtin ⟨"puts", .puts, none⟩)).set id
    (.text "gets") (.builtin ⟨"gets", .gets, none⟩)

/-- A store with the global scope alone, which has the functions for input
and output. -/
def initial : Store := (empty.add none).2.addConsole 0

end Store

end Scriptlet
