import Scriptlet.Arithmetic
import Scriptlet.Machine
import Scriptlet.Proofs.DecimalTexts
import Scriptlet.Proofs.WellFormed

/-!
# The values of parsed programs

Programs that come from texts compute with few of the values there are:
nil, doubles, strings, the two functions for input and output, and
functions that one of the programs defines, with a scope that exists
(`Value.Safe`). On these values the operators of parsed expressions have
only two errors, and every value can be shown.

A function is tied to its program by its site: walking down from the
program along the site's path leads to the definition that the function
was made from (`Site.node?`).
-/

namespace Scriptlet

/-! ## Sites -/

/-- The parts of a node that have sites of their own. -/
def Node.children : Node → List Node
  | .binary _ left right => [left, right]
  | .assign _ value => [value]
  | .define _ _ body => body
  | .call _ args => args
  | .sequence items => items
  | _ => []

/-- The node at the end of a path, whose last step comes first. -/
def Node.descendant? (node : Node) : List Nat → Option Node
  | [] => some node
  | i :: path => (node.descendant? path).bind fun n => n.children[i]?

/-- Programs in the order in which they were loaded, each of them from a
text. -/
structure Programs where
  loaded : List (List Node)
  isStatement : ∀ statements ∈ loaded, ∀ s ∈ statements, IsStatement s

def Site.node? (programs : Programs) (site : Site) : Option Node :=
  programs.loaded[site.unit]?.bind fun statements =>
    (Node.sequence statements).descendant? site.path

theorem Site.node?_child {programs : Programs} {site : Site}
    {node child : Node} {i : Nat} (h : site.node? programs = some node)
    (hchild : node.children[i]? = some child) :
    (site.child i).node? programs = some child := by
  obtain ⟨statements, hunit, hpath⟩ := Option.bind_eq_some_iff.mp h
  unfold Site.node? Site.child Node.descendant?
  rw [hunit, Option.bind_some, hpath, Option.bind_some, hchild]

theorem IsExpression.children {e child : Node} (h : IsExpression e)
    (hchild : child ∈ e.children) : IsExpression child := by
  cases h with
  | number _ => exact absurd hchild List.not_mem_nil
  | identifier _ => exact absurd hchild List.not_mem_nil
  | binary _ hleft hright =>
      rcases List.mem_cons.mp hchild with rfl | hchild
      · exact hleft
      · rw [List.mem_singleton.mp hchild]
        exact hright
  | call _ hargs => exact hargs child hchild

theorem IsStatement.children {node child : Node} (h : IsStatement node)
    (hchild : child ∈ node.children) : IsStatement child := by
  cases h with
  | expression he => exact .expression (he.children hchild)
  | assign _ hvalue =>
      rw [List.mem_singleton.mp hchild]
      exact .expression hvalue
  | define _ _ hbody => exact hbody child hchild

theorem IsStatement.params_eq {name : Json} {params : List Json}
    {body : List Node} (h : IsStatement (.define name params body)) :
    ∃ names : List String, params = names.map .text := by
  cases h with
  | expression he => cases he
  | define _ _ _ => exact ⟨_, rfl⟩

theorem Programs.isStatement_of_descendant? {statements : List Node}
    (hs : ∀ s ∈ statements, IsStatement s) {path : List Nat} {node : Node}
    (h : (Node.sequence statements).descendant? path = some node) :
    node = .sequence statements ∨ IsStatement node := by
  induction path generalizing node with
  | nil => exact Or.inl (Option.some.inj h).symm
  | cons i path ih =>
      obtain ⟨parent, hparent, hchild⟩ := Option.bind_eq_some_iff.mp h
      have hmem := List.mem_of_getElem? hchild
      rcases ih hparent with rfl | hstatement
      · exact Or.inr (hs node hmem)
      · exact Or.inr (hstatement.children hmem)

/-- A definition in a program is well-formed. -/
theorem Site.isStatement_of_define {programs : Programs} {site : Site}
    {name : Json} {params : List Json} {body : List Node}
    (h : site.node? programs = some (.define name params body)) :
    IsStatement (.define name params body) := by
  obtain ⟨statements, hunit, hpath⟩ := Option.bind_eq_some_iff.mp h
  rcases Programs.isStatement_of_descendant?
    (programs.isStatement statements (List.mem_of_getElem? hunit)) hpath with
    hseq | hstatement
  · cases hseq
  · exact hstatement

/-- Loading one more program keeps the nodes of the others at their
sites. -/
def Programs.Extends (later earlier : Programs) : Prop :=
  ∃ more, later.loaded = earlier.loaded ++ more

theorem Site.node?_of_extends {later earlier : Programs} {site : Site}
    {node : Node} (hext : later.Extends earlier)
    (h : site.node? earlier = some node) : site.node? later = some node := by
  obtain ⟨more, hmore⟩ := hext
  obtain ⟨statements, hunit, hpath⟩ := Option.bind_eq_some_iff.mp h
  have hlt : site.unit < earlier.loaded.length :=
    (List.getElem?_eq_some_iff.mp hunit).1
  unfold Site.node?
  rw [hmore, List.getElem?_append_left hlt, hunit, Option.bind_some, hpath]

/-! ## Values and scopes -/

/-- The values that programs from texts compute with, where so many scopes
exist. -/
inductive Value.Safe (programs : Programs) (size : Nat) : Value → Prop
  | nil : Safe programs size .nil
  | number (x : Float) : Safe programs size (.number x)
  | string (s : String) : Safe programs size (.string s)
  | puts : Safe programs size (.builtin ⟨"puts", .puts, none⟩)
  | gets : Safe programs size (.builtin ⟨"gets", .gets, none⟩)
  | function {c : Closure} : c.scope < size →
      c.site.node? programs = some (.define c.name c.params c.body) →
      Safe programs size (.function c)

theorem Value.Safe.mono {programs later : Programs} {size size' : Nat}
    {v : Value} (h : v.Safe programs size) (hext : later.Extends programs)
    (hle : size ≤ size') : v.Safe later size' := by
  cases h with
  | function hscope hsite =>
      exact .function (Nat.lt_of_lt_of_le hscope hle)
        (Site.node?_of_extends hext hsite)
  | nil => exact .nil
  | number x => exact .number x
  | string s => exact .string s
  | puts => exact .puts
  | gets => exact .gets

theorem Programs.Extends.refl (programs : Programs) :
    programs.Extends programs := ⟨[], (List.append_nil _).symm⟩

theorem Value.Safe.grow {programs : Programs} {size size' : Nat} {v : Value}
    (h : v.Safe programs size) (hle : size ≤ size') :
    v.Safe programs size' :=
  h.mono (.refl programs) hle

/-- Every bound value is as in `p`. -/
def Store.Holds (p : Value → Prop) (store : Store) : Prop :=
  ∀ id scope, store.scope? id = some scope → ∀ b ∈ scope.bindings, p b.2

theorem Scope.mem_setIn {bindings : List (Name × Value)} {name : Name}
    {value : Value} {b : Name × Value}
    (h : b ∈ setIn bindings name value) : b ∈ bindings ∨ b.2 = value := by
  induction bindings with
  | nil =>
      rw [List.mem_singleton.mp h]
      exact Or.inr rfl
  | cons entry rest ih =>
      obtain ⟨n, v⟩ := entry
      unfold setIn at h
      split at h
      · rcases List.mem_cons.mp h with rfl | h
        · exact Or.inr rfl
        · exact Or.inl (List.mem_cons_of_mem _ h)
      · rcases List.mem_cons.mp h with rfl | h
        · exact Or.inl List.mem_cons_self
        · exact (ih h).imp_left (List.mem_cons_of_mem _)

namespace Store.Holds

variable {p q : Value → Prop} {store : Store}

theorem imp (h : store.Holds p) (hpq : ∀ v, p v → q v) : store.Holds q :=
  fun id scope hscope b hb => hpq b.2 (h id scope hscope b hb)

theorem set (h : store.Holds p) (id : ScopeId) (name : Name) {value : Value}
    (hvalue : p value) : (store.set id name value).Holds p := by
  intro other scope hscope b hb
  rw [scope?_set] at hscope
  split at hscope
  · obtain ⟨old, hold, rfl⟩ := Option.map_eq_some_iff.mp hscope
    rcases Scope.mem_setIn hb with hb | hb
    · exact h other old hold b hb
    · rw [hb]
      exact hvalue
  · exact h other scope hscope b hb

theorem add (h : store.Holds p) (parent : Option ScopeId) :
    (store.add parent).2.Holds p := by
  intro id scope hscope b hb
  simp only [Store.add, scope?, Array.getElem?_push] at hscope
  split at hscope
  · cases hscope
    exact absurd hb List.not_mem_nil
  · exact h id scope hscope b hb

theorem get (h : store.Holds p) (hnil : p .nil) (id : ScopeId)
    (name : Name) : p (store.get id name) := by
  unfold Store.get
  generalize hfound : ((store.resolve? id name).bind store.scope?).bind
    (·.get? name) = found
  cases found with
  | none => exact hnil
  | some v =>
      obtain ⟨scope, hscope, hv⟩ := Option.bind_eq_some_iff.mp hfound
      obtain ⟨other, -, hscope⟩ := Option.bind_eq_some_iff.mp hscope
      obtain ⟨before, behind, hsplit, -⟩ := List.lookup_eq_some_iff.mp hv
      refine h other scope hscope (name, v) ?_
      rw [hsplit]
      exact List.mem_append_right _ List.mem_cons_self

theorem initial (hputs : p (.builtin ⟨"puts", .puts, none⟩))
    (hgets : p (.builtin ⟨"gets", .gets, none⟩)) : Store.initial.Holds p := by
  have hempty : Store.empty.Holds p := by
    intro id scope hscope
    cases hscope
  exact ((hempty.add none).set 0 _ hputs).set 0 _ hgets

end Store.Holds

def Store.Safe (programs : Programs) (store : Store) : Prop :=
  ∀ id scope, store.scope? id = some scope →
    ∀ b ∈ scope.bindings, b.2.Safe programs store.size

namespace Store.Safe

variable {programs : Programs} {store : Store}

theorem holds (h : store.Safe programs) :
    store.Holds (Value.Safe programs store.size) := h

theorem mono {later : Programs} (h : store.Safe programs)
    (hext : later.Extends programs) : store.Safe later :=
  h.holds.imp fun _ hv => hv.mono hext (Nat.le_refl _)

theorem set (h : store.Safe programs) (id : ScopeId) (name : Name)
    {value : Value} (hvalue : value.Safe programs store.size) :
    (store.set id name value).Safe programs := by
  unfold Safe
  rw [size_set]
  exact h.holds.set id name hvalue

theorem add (h : store.Safe programs) (parent : Option ScopeId) :
    (store.add parent).2.Safe programs := by
  unfold Safe
  rw [size_add]
  exact (h.holds.imp fun _ hv => hv.grow (Nat.le_succ _)).add parent

theorem get (h : store.Safe programs) (id : ScopeId) (name : Name) :
    (store.get id name).Safe programs store.size :=
  h.holds.get .nil id name

theorem initial (programs : Programs) : Store.initial.Safe programs :=
  Store.Holds.initial .puts .gets

end Store.Safe

/-! ## Literals -/

/-- The numerals of parsed programs are numbers. -/
theorem evalLiteral_of_isNumeral {text : String} (h : IsNumeral text) :
    ∃ x, evalLiteral (.text text) = .ok (.number x) := by
  have hwrites : Numeral.Writes text.toList
      ⟨Text.digitsToNat text.toList, 0⟩ :=
    ⟨text.toList, [], [], [], 0, h, .none, .none, by simp, by simp⟩
  have hdenotes : Numeral.Denotes text.toList false _ :=
    ⟨text.toList, rfl, _, hwrites, rfl⟩
  obtain ⟨n, e, -, hread⟩ := Numeral.read?_of_denotes hdenotes
  exact ⟨_, by rw [evalLiteral, hread]⟩

/-- A literal has no other value than a double. -/
theorem eq_number_of_evalLiteral {json : Json} {v : Value}
    (h : evalLiteral json = .ok v) : ∃ x, v = .number x := by
  unfold evalLiteral at h
  split at h
  · split at h
    · cases h
      exact ⟨_, rfl⟩
    · cases h
  · cases h
    exact ⟨_, rfl⟩
  · split at h
    · cases h
      exact ⟨_, rfl⟩
    · cases h
  · cases h
    exact ⟨_, rfl⟩
  · cases h

/-! ## Errors and operators -/

def programErrorKinds : List String :=
  ["TypeMismatch", "DivisionByZero", "NotAFunction", "FunctionNotFound"]

/-- How the evaluation of a program from a text can fail. -/
def Fault.Expected : Fault → Prop
  | .eval e => e.kind ∈ programErrorKinds
  | .tooDeep => True
  | _ => False

section

variable {programs : Programs} {size : Nat} {v : Value} {vs : List Value}

theorem Value.Safe.eq_number (h : v.Safe programs size)
    (hnumber : v.isNumber = true) : ∃ x, v = .number x := by
  cases h with
  | number x => exact ⟨x, rfl⟩
  | _ => cases hnumber

/-- On two doubles an operator of the grammar divides by zero or has a
result. -/
theorem applyToFloats_of_mem {operator : String}
    (h : operator ∈ arithmeticOperators) (x y : Float) :
    applyToFloats (.text operator) x y = .error .divisionByZero ∨
      ∃ z, applyToFloats (.text operator) x y = .ok z := by
  simp only [arithmeticOperators, List.mem_cons, List.not_mem_nil,
    or_false] at h
  rcases h with rfl | rfl | rfl | rfl
  · exact Or.inr ⟨x + y, rfl⟩
  · exact Or.inr ⟨x - y, rfl⟩
  · exact Or.inr ⟨x * y, rfl⟩
  · by_cases hzero : (y == 0.0) = true
    · exact Or.inl (if_pos hzero)
    · exact Or.inr ⟨x / y, if_neg hzero⟩

theorem length?_of_mem {operator : String}
    (h : operator ∈ arithmeticOperators) :
    (Json.text operator).length? = some 1 := by
  simp only [arithmeticOperators, List.mem_cons, List.not_mem_nil,
    or_false] at h
  rcases h with rfl | rfl | rfl | rfl <;> rfl

/-- The operands are numbers, but one of them is a whole number that no double
comes near. -/
def Oversized (a b : Value) : Prop :=
  a.isNumber = true ∧ b.isNumber = true ∧
    (a.toFloat? = none ∨ b.toFloat? = none)

/-- An operator has a result, or one of two errors of the language, unless
its operands are numbers and one of them is too large. -/
theorem applyOperator_of_not_oversized {operator : String} {a b : Value}
    (hop : operator ∈ arithmeticOperators) (h : ¬ Oversized a b) :
    (∃ z, applyOperator (.text operator) a b = .ok (.number z)) ∨
      ∃ f, applyOperator (.text operator) a b = .error f ∧ f.Expected := by
  unfold applyOperator
  by_cases htypes : (!a.isNumber || !b.isNumber) = true
  · rw [if_pos htypes]
    exact Or.inr ⟨_, rfl, List.mem_cons_self⟩
  · rw [if_neg htypes, length?_of_mem hop]
    simp only [Bool.or_eq_true, Bool.not_eq_true', not_or,
      Bool.not_eq_false] at htypes
    obtain ⟨ha, hb⟩ := htypes
    simp only [Oversized, ha, hb, true_and, not_or] at h
    obtain ⟨x, hx⟩ := Option.ne_none_iff_exists'.mp h.1
    obtain ⟨y, hy⟩ := Option.ne_none_iff_exists'.mp h.2
    rcases applyToFloats_of_mem hop x y with hzero | ⟨z, hz⟩
    · right
      refine ⟨.eval .divisionByZero, ?_, ?_⟩
      · simp [operand, hx, hy, hzero, bind, Except.bind]
      · simp [Fault.Expected, EvalError.kind, programErrorKinds]
    · left
      refine ⟨z, ?_⟩
      simp [operand, hx, hy, hz, bind, Except.bind, pure, Except.pure]

/-- An operator gives a number. -/
theorem eq_number_of_applyOperator {operator : Json} {a b v : Value}
    (h : applyOperator operator a b = .ok v) : ∃ z, v = .number z := by
  unfold applyOperator at h
  split at h
  · cases h
  · split at h
    · cases h
    · cases hx : operand a <;> rw [hx] at h <;> try cases h
      cases hy : operand b <;> rw [hy] at h <;> try cases h
      dsimp only [bind, Except.bind] at h
      split at h <;> cases h
      exact ⟨_, rfl⟩
    · cases h

theorem applyOperator_safe {operator : String} {a b : Value}
    (hop : operator ∈ arithmeticOperators) (ha : a.Safe programs size)
    (hb : b.Safe programs size) :
    (∃ z, applyOperator (.text operator) a b = .ok (.number z)) ∨
      ∃ f, applyOperator (.text operator) a b = .error f ∧ f.Expected := by
  refine applyOperator_of_not_oversized hop ?_
  rintro ⟨hanumber, hbnumber, hnone | hnone⟩
  · obtain ⟨x, rfl⟩ := ha.eq_number hanumber
    cases hnone
  · obtain ⟨y, rfl⟩ := hb.eq_number hbnumber
    cases hnone

/-! ## Values in output and traces -/

theorem Value.Safe.display? (h : v.Safe programs size) :
    ∃ text, v.display? = some text := by
  cases h <;> exact ⟨_, rfl⟩

theorem Value.Safe.traceValue (h : v.Safe programs size) :
    ∃ text, traceValue v = .ok text := by
  obtain ⟨text, htext⟩ := h.display?
  refine ⟨text, ?_⟩
  rw [Scriptlet.traceValue, htext]

theorem traceParams_text (index : Nat) (params : List String) :
    traceParams index (params.map .text) = .ok params := by
  induction params generalizing index with
  | nil => rfl
  | cons param rest ih =>
      rw [List.map_cons, traceParams, ih]
      rfl

end

end Scriptlet
