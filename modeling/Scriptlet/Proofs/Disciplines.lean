import Scriptlet.Proofs.Calls
import Scriptlet.Proofs.SafeValues

/-!
# What scopes keep to

Several facts about evaluation are invariants of the scopes: names are bound to
certain values only, so that looking one up gives such a value. Which values
these are differs from fact to fact (`Discipline`). How the invariant goes through
the stages of an evaluation does not, and the rules for that are stated here once,
for every discipline (`Upholds`). There is a rule for each way in which actions
are put together, and one for each stage of a call.
-/

namespace Scriptlet

/-- Which values a name may be bound to, given how many scopes there are, and
the scopes in which it is so. -/
structure Discipline where
  Binds : Name → Value → Nat → Prop
  Holds : Store → Prop
  grow {name : Name} {v : Value} {n n' : Nat} :
    Binds name v n → n ≤ n' → Binds name v n'
  add {store : Store} (parent : Option ScopeId) :
    Holds store → Holds (store.add parent).2
  set {store : Store} {name : Name} {v : Value} (id : ScopeId) :
    Holds store → Binds name v store.size → Holds (store.set id name v)
  get {store : Store} (id : ScopeId) (name : Name) :
    Holds store → Binds name (store.get id name) store.size

/-- Every name is bound to values as in `p` only. -/
def Discipline.ofValues (p : Value → Prop) (hnil : p .nil) : Discipline where
  Binds _ v _ := p v
  Holds := Store.Holds p
  grow h _ := h
  add parent h := h.add parent
  set id h hv := h.set id _ hv
  get id name h := h.get hnil id name

/-- From scopes as they should be, the action ends with such scopes, not fewer
of them, and with a result as in `good`, which may depend on how many scopes
there are; or it fails, with such scopes and a fault as in `bad`. -/
def Upholds {α : Type} (d : Discipline) (bad : Fault → Prop)
    (good : α → Nat → Prop) (action : Eval α) (m : Machine) : Prop :=
  d.Holds m.store → (action m).Ensures
    (fun a m' => d.Holds m'.store ∧ m.store.size ≤ m'.store.size ∧
      good a m'.store.size)
    fun f m' => d.Holds m'.store ∧ bad f

/-- Each node of a row is evaluated to a value as in `good`, if there are at
least `size` scopes. -/
def UpholdsEach (d : Discipline) (bad : Fault → Prop)
    (good : Value → Nat → Prop) (size : Nat)
    (eval : Nat → Node → Eval Value) (index : Nat) (nodes : List Node) :
    Prop :=
  ∀ k node m, nodes[k]? = some node → size ≤ m.store.size →
    Upholds d bad good (eval (index + k) node) m

/-- If values are traced at all, then failing to show one is a fault as in
`bad`. -/
def Traceable (setting : Setting) (bad : Fault → Prop)
    (good : Value → Nat → Prop) : Prop :=
  0 < setting.level → ∀ v n, good v n → v.display? = none →
    bad .integerTooLarge

theorem traceable_of_level {setting : Setting} {bad : Fault → Prop}
    {good : Value → Nat → Prop} (h : setting.level ≤ 0) :
    Traceable setting bad good :=
  fun hlevel => absurd hlevel (Int.not_lt.mpr h)

theorem eq_of_traceValue_error {v : Value} {f : Fault}
    (h : traceValue v = .error f) :
    v.display? = none ∧ f = .integerTooLarge := by
  unfold traceValue at h
  split at h
  · cases h
  · cases h
    exact ⟨by assumption, rfl⟩

theorem exists_of_traceValues_error {vs : List Value} {f : Fault}
    (h : traceValues vs = .error f) :
    ∃ v ∈ vs, v.display? = none ∧ f = .integerTooLarge := by
  induction vs with
  | nil => cases h
  | cons v rest ih =>
      rcases eq_error_of_bind h with h | ⟨text, -, h⟩
      · exact ⟨v, List.mem_cons_self, eq_of_traceValue_error h⟩
      · rcases eq_error_of_bind h with h | ⟨texts, -, h⟩
        · obtain ⟨w, hw, hfault⟩ := ih h
          exact ⟨w, List.mem_cons_of_mem _ hw, hfault⟩
        · cases h

namespace Upholds

variable {α β : Type} {d : Discipline} {bad : Fault → Prop}
  {good : α → Nat → Prop} {good' : β → Nat → Prop} {m : Machine}

/-! ## Actions -/

theorem pure {a : α} (h : good a m.store.size) :
    Upholds d bad good (Pure.pure a) m :=
  fun hm => ⟨hm, Nat.le_refl _, h⟩

theorem fail {f : Fault} (h : bad f) :
    Upholds d bad good (Step.fail f : Eval α) m :=
  fun hm => ⟨hm, h⟩

theorem lift {result : Except Fault α}
    (hbad : ∀ f, result = .error f → bad f)
    (hgood : ∀ a, result = .ok a → good a m.store.size) :
    Upholds d bad good (Step.lift result) m := by
  cases result with
  | error f => exact fail (hbad f rfl)
  | ok a => exact pure (hgood a rfl)

/-- What comes next starts from the state that the action ends with. -/
theorem bind_of_done {action : Eval α} {next : α → Eval β}
    (h : Upholds d bad good action m)
    (hnext : ∀ a m', action m = .done a m' → m.store.size ≤ m'.store.size →
      good a m'.store.size → Upholds d bad good' (next a) m') :
    Upholds d bad good' (action >>= next) m := by
  intro hm
  have haction := h hm
  rw [Step.bind_apply]
  cases hdone : action m with
  | failed f m₁ =>
      rw [hdone] at haction
      exact haction
  | done a m₁ =>
      rw [hdone] at haction
      obtain ⟨hm₁, hle, ha⟩ := haction
      refine (hnext a m₁ hdone hle ha hm₁).imp ?_ fun _ _ => id
      rintro b m₂ ⟨hm₂, hle', hb⟩
      exact ⟨hm₂, Nat.le_trans hle hle', hb⟩

theorem bind {action : Eval α} {next : α → Eval β}
    (h : Upholds d bad good action m)
    (hnext : ∀ a m', m.store.size ≤ m'.store.size → good a m'.store.size →
      Upholds d bad good' (next a) m') :
    Upholds d bad good' (action >>= next) m :=
  bind_of_done h fun a m' _ => hnext a m'

theorem imp {good₁ : α → Nat → Prop} {action : Eval α}
    (h : Upholds d bad good action m) (hgood : ∀ a n, good a n → good₁ a n) :
    Upholds d bad good₁ action m :=
  fun hm => (h hm).imp (fun a _ ha => ⟨ha.1, ha.2.1, hgood a _ ha.2.2⟩)
    fun _ _ => id

theorem get_bind {next : Machine → Eval β}
    (h : Upholds d bad good' (next m) m) :
    Upholds d bad good' (Step.get >>= next) m := h

/-- An action that leaves the scopes alone is looked at for what comes out of
it only. -/
theorem of_leaves {action : Eval α}
    (hstore : (action m).Leaves fun m' => m'.store = m.store)
    (h : (action m).Ensures (fun a _ => good a m.store.size)
      fun f _ => bad f) : Upholds d bad good action m := by
  intro hm
  cases haction : action m with
  | done a m' =>
      rw [haction] at hstore h
      have heq : m'.store = m.store := hstore
      show d.Holds m'.store ∧ m.store.size ≤ m'.store.size ∧
        good a m'.store.size
      rw [heq]
      exact ⟨hm, Nat.le_refl _, h⟩
  | failed f m' =>
      rw [haction] at hstore h
      have heq : m'.store = m.store := hstore
      show d.Holds m'.store ∧ bad f
      rw [heq]
      exact ⟨hm, h⟩

theorem nameOf_bind {json : Json} {next : Name → Eval β}
    (hnone : Name.ofJson? json = none → bad (.unhashable json.typeName))
    (hnext : ∀ name, Name.ofJson? json = some name →
      Upholds d bad good' (next name) m) :
    Upholds d bad good' (Eval.nameOf json >>= next) m := by
  intro hm
  rw [Step.bind_apply]
  cases hjson : Name.ofJson? json with
  | none =>
      rw [Eval.nameOf_of_none hjson]
      exact ⟨hm, hnone hjson⟩
  | some name =>
      rw [Eval.nameOf_of_some hjson]
      exact hnext name hjson hm

/-- An event does not touch the scopes, and can only get in the way if it is
recorded and cannot be put together. -/
theorem record_bind {setting : Setting} {required : Int}
    {event : Unit → Except Fault Event} {next : Unit → Eval β}
    (hbad : required ≤ setting.level → ∀ f, event () = .error f → bad f)
    (hnext : ∀ m', m'.store = m.store → Upholds d bad good' (next ()) m') :
    Upholds d bad good'
      (Eval.record setting required event >>= next) m := by
  have hrecord : Upholds d bad (fun _ _ => True)
      (Eval.record setting required event) m := by
    refine of_leaves (Eval.leaves_record setting required event m) ?_
    unfold Eval.record
    split
    · rename_i hlevel
      rw [Step.bind_apply]
      cases hevent : event () with
      | error f => exact hbad hlevel f hevent
      | ok e => trivial
    · trivial
  refine bind_of_done hrecord fun _ m' hdone _ _ => hnext m' ?_
  have hleaves := Eval.leaves_record setting required event m
  rw [hdone] at hleaves
  exact hleaves

/-! ## Scopes -/

theorem bindName_bind {scope : ScopeId} {name : Name} {value : Value}
    {next : Unit → Eval β} (hvalue : d.Binds name value m.store.size)
    (hnext : ∀ m', m'.store.size = m.store.size →
      Upholds d bad good' (next ()) m') :
    Upholds d bad good' (Eval.bind scope name value >>= next) m := by
  intro hm
  have hsize := m.store.size_set scope name value
  have h := hnext { m with store := m.store.set scope name value } hsize
    (d.set scope hm hvalue)
  rw [hsize] at h
  exact h

theorem lookup (scope : ScopeId) (name : Name) :
    Upholds d bad (d.Binds name) (Eval.lookup scope name) m :=
  fun hm => ⟨hm, Nat.le_refl _, d.get scope name hm⟩

theorem newScope (parent : ScopeId) :
    Upholds d bad (fun id n => id < n) (Eval.newScope parent) m := by
  intro hm
  have hsize := m.store.size_add (some parent)
  refine ⟨d.add (some parent) hm, ?_, ?_⟩
  · exact hsize ▸ Nat.le_succ _
  · exact hsize ▸ Nat.lt_succ_self _

theorem bindParams (scope : ScopeId) {params : List Json} {vs : List Value}
    (hnone : ∀ param ∈ params, Name.ofJson? param = none →
      bad (.unhashable param.typeName))
    (hvs : ∀ name ∈ params.filterMap Name.ofJson?, ∀ v ∈ vs,
      d.Binds name v m.store.size) :
    Upholds d bad (fun _ _ => True) (Scriptlet.bindParams scope params vs)
      m := by
  induction params generalizing vs m with
  | nil => exact pure trivial
  | cons param params ih =>
      cases vs with
      | nil => exact pure trivial
      | cons v vs =>
          obtain ⟨hparam, hparams⟩ := List.forall_mem_cons.mp hnone
          refine nameOf_bind hparam fun name hname => ?_
          rw [List.filterMap_cons_some hname] at hvs
          obtain ⟨hfirst, hrest⟩ := List.forall_mem_cons.mp hvs
          refine bindName_bind (hfirst v List.mem_cons_self) fun m₁ hm₁ => ?_
          refine ih hparams fun other hother w hw => ?_
          rw [hm₁]
          exact hrest other hother w (List.mem_cons_of_mem _ hw)

theorem enterFunction (setting : Setting) {c : Closure} {vs : List Value}
    (scope : ScopeId)
    (hnone : ∀ param ∈ c.params, Name.ofJson? param = none →
      bad (.unhashable param.typeName))
    (hvs : ∀ name ∈ c.params.filterMap Name.ofJson?, ∀ v ∈ vs,
      d.Binds name v m.store.size) :
    Upholds d bad (fun id n => id < n)
      (Scriptlet.enterFunction setting c vs scope) m := by
  refine bind (newScope _) fun frame m₁ hle hframe => ?_
  refine bind (bindParams frame hnone fun name hname v hv =>
    d.grow (hvs name hname v hv) hle) fun _ m₂ hle' _ => ?_
  exact pure (Nat.lt_of_lt_of_le hframe hle')

end Upholds

/-! ## Rows -/

section

variable {d : Discipline} {bad : Fault → Prop} {good : Value → Nat → Prop}
  {size index : Nat} {eval : Nat → Node → Eval Value} {node : Node}
  {nodes : List Node} {m : Machine}

theorem UpholdsEach.of_mem
    (h : ∀ node ∈ nodes, ∀ i m, Upholds d bad good (eval i node) m)
    (index : Nat) : UpholdsEach d bad good 0 eval index nodes :=
  fun k node m hk _ => h node (List.mem_of_getElem? hk) (index + k) m

theorem UpholdsEach.tail
    (h : UpholdsEach d bad good size eval index (node :: nodes)) :
    UpholdsEach d bad good size eval (index + 1) nodes := by
  intro k child m hk hm
  rw [Nat.add_assoc, Nat.add_comm 1 k]
  exact h (k + 1) child m hk hm

theorem UpholdsEach.evalEach
    (h : UpholdsEach d bad good size eval index nodes)
    (hgrow : ∀ v n n', good v n → n ≤ n' → good v n')
    (hm : size ≤ m.store.size) :
    Upholds d bad (fun vs n => ∀ v ∈ vs, good v n)
      (Scriptlet.evalEach eval index nodes) m := by
  induction nodes generalizing index m with
  | nil => exact .pure fun v hv => (List.not_mem_nil hv).elim
  | cons node rest ih =>
      refine .bind (h 0 node m rfl hm) fun v m₁ hle hv => ?_
      refine .bind (ih h.tail (Nat.le_trans hm hle)) fun vs m₂ hle' hvs => ?_
      exact .pure (List.forall_mem_cons.mpr ⟨hgrow v _ _ hv hle', hvs⟩)

theorem UpholdsEach.evalLast
    (h : UpholdsEach d bad good size eval index nodes)
    (hm : size ≤ m.store.size) {last : Value}
    (hlast : good last m.store.size) :
    Upholds d bad good (Scriptlet.evalLast eval index last nodes) m := by
  induction nodes generalizing index last m with
  | nil => exact .pure hlast
  | cons node rest ih =>
      refine .bind (h 0 node m rfl hm) fun v m₁ hle hv => ?_
      exact ih h.tail (Nat.le_trans hm hle) hv

end

namespace Upholds

variable {d : Discipline} {bad : Fault → Prop}
  {good callable : Value → Nat → Prop} {setting : Setting} {limit : Nat}
  {site : Site} {scope : ScopeId} {m : Machine}

/-! ## Functions from outside the language -/

theorem puts (setting : Setting) {vs : List Value}
    (hvs : ∀ v ∈ vs, ∃ text, v.display? = some text)
    (hnil : good .nil m.store.size) :
    Upholds d bad good (callBuiltin setting ⟨"puts", .puts, none⟩ vs) m := by
  have hput : ∀ m, ∃ m', putLines vs m = .done none m' := by
    induction vs with
    | nil => exact fun m => ⟨m, rfl⟩
    | cons v rest ih =>
        obtain ⟨⟨text, htext⟩, hrest⟩ := List.forall_mem_cons.mp hvs
        intro m
        unfold putLines
        rw [htext]
        exact ih hrest { m with output := m.output ++ text ++ "\n" }
  refine of_leaves (leaves_callBuiltin setting _ vs m) ?_
  obtain ⟨m', hput⟩ := hput m
  simp only [callBuiltin, callBuiltin.perform, Step.bind_apply, hput]
  exact hnil

theorem gets (setting : Setting) (vs : List Value)
    (hnil : good .nil m.store.size)
    (hstring : ∀ s, good (.string s) m.store.size) :
    Upholds d bad good (callBuiltin setting ⟨"gets", .gets, none⟩ vs) m := by
  refine of_leaves (leaves_callBuiltin setting _ vs m) ?_
  simp only [callBuiltin, callBuiltin.perform, Step.bind_apply, Eval.readLine]
  cases Text.readLine? m.input with
  | none => exact hnil
  | some found => exact hstring _

/-! ## Calls -/

theorem resolveCallee {callee : Node}
    (herror : ∀ e : EvalError, e.kind ∈ programErrorKinds → bad (.eval e))
    (hnone : ∀ json, callee = .identifier json → Name.ofJson? json = none →
      bad (.unhashable json.typeName))
    (hgood : ∀ json name, callee = .identifier json →
      Name.ofJson? json = some name → ∀ v n, d.Binds name v n → good v n) :
    Upholds d bad good (Scriptlet.resolveCallee callee scope) m := by
  cases callee with
  | identifier json =>
      refine nameOf_bind (hnone json rfl) fun name hname => get_bind ?_
      split
      · exact (lookup scope name).imp (hgood json name rfl hname)
      · exact fail (herror _ (by simp [EvalError.kind, programErrorKinds]))
  | _ => exact fail (herror _ (by simp [EvalError.kind, programErrorKinds]))

section

variable {callee : Node} {args : List Node} {size : Nat}

theorem prepareCall (htrace : Traceable setting bad good)
    (hgrow : ∀ v n n', good v n → n ≤ n' → good v n')
    (hargs : Upholds d bad (fun vs n => ∀ v ∈ vs, good v n)
      (evalArgs setting limit args site scope) m)
    (hcallee : ∀ m, Upholds d bad callable
      (Scriptlet.resolveCallee callee scope) m) :
    Upholds d bad
      (fun call n => callable call.1 n ∧ ∀ v ∈ call.2, good v n)
      (Scriptlet.prepareCall setting limit callee args site scope) m := by
  refine bind hargs fun vs m₁ _ hvs => ?_
  refine bind (hcallee m₁) fun f m₂ hle hf => ?_
  -- The arguments are older than the look-up of the callee.
  have hvs : ∀ v ∈ vs, good v m₂.store.size :=
    fun v hv => hgrow v _ _ (hvs v hv) hle
  refine record_bind (fun hlevel fault hfault => ?_) fun m₃ hm₃ => ?_
  · rcases eq_error_of_bind hfault with hfault | ⟨texts, -, hfault⟩
    · obtain ⟨v, hv, hnone, rfl⟩ := exists_of_traceValues_error hfault
      exact htrace (by omega) v _ (hvs v hv) hnone
    · cases hfault
  · rw [← hm₃] at hf hvs
    exact pure ⟨hf, hvs⟩

/-- Tracing a value behind an action does not change what is known of it. -/
theorem record_value {required : Int} {event : String → Event} {v : Value}
    (htrace : Traceable setting bad good) (hrequired : 0 < required)
    (hv : good v m.store.size) :
    Upholds d bad good (do
      Eval.record setting required fun _ => do
        return event (← traceValue v)
      return v) m := by
  refine record_bind (fun hlevel fault hfault => ?_) fun m₁ hm₁ => ?_
  · rcases eq_error_of_bind hfault with hfault | ⟨text, -, hfault⟩
    · obtain ⟨hnone, rfl⟩ := eq_of_traceValue_error hfault
      exact htrace (by omega) v _ hv hnone
    · cases hfault
  · rw [← hm₁] at hv
    exact pure hv

theorem call (htrace : Traceable setting bad good)
    (hgrow : ∀ v n n', good v n → n ≤ n' → good v n')
    (hargs : UpholdsEach d bad good size
      (fun i arg => evaluate setting limit arg (site.child i) scope) 0 args)
    (hcallee : ∀ m, Upholds d bad callable
      (Scriptlet.resolveCallee callee scope) m)
    (hcall : ∀ f vs m, callable f m.store.size →
      (∀ v ∈ vs, good v m.store.size) →
      Upholds d bad good (callValue setting limit f vs scope) m)
    (hm : size ≤ m.store.size) :
    Upholds d bad good
      (evaluate setting (limit + 1) (.call callee args) site scope) m := by
  rw [evaluate_call]
  refine bind (prepareCall htrace hgrow (hargs.evalEach hgrow hm) hcallee) ?_
  rintro ⟨f, vs⟩ m₁ _ ⟨hf, hvs⟩
  refine bind (hcall f vs m₁ hf hvs) fun v m₂ _ hv => ?_
  exact record_value htrace (by decide) hv

end

/-! ## Statements -/

theorem assign {json : Json} {value : Node}
    (htrace : Traceable setting bad good)
    (hvalue : Upholds d bad good
      (evaluate setting limit value (site.child 0) scope) m)
    (hnone : Name.ofJson? json = none → bad (.unhashable json.typeName))
    (hbinds : ∀ name, Name.ofJson? json = some name → ∀ v n, good v n →
      d.Binds name v n) :
    Upholds d bad good
      (evaluate setting (limit + 1) (.assign json value) site scope) m := by
  rw [evaluate]
  refine bind hvalue fun v m₁ _ hv => ?_
  refine nameOf_bind hnone fun name hname => ?_
  refine bindName_bind (hbinds name hname v _ hv) fun m₂ hm₂ => ?_
  rw [← hm₂] at hv
  exact get_bind (record_value htrace (by decide) hv)

theorem define {json : Json} {params : List Json} {body : List Node}
    (htrace : 0 < setting.level → ∀ f, traceParams 0 params = .error f →
      bad f)
    (hnone : Name.ofJson? json = none → bad (.unhashable json.typeName))
    (hbinds : ∀ name, Name.ofJson? json = some name → d.Binds name
      (.function ⟨json, params, body, scope, site⟩) m.store.size)
    (hgood : good (.function ⟨json, params, body, scope, site⟩)
      m.store.size) :
    Upholds d bad good
      (evaluate setting (limit + 1) (.define json params body) site scope)
      m := by
  rw [evaluate]
  refine nameOf_bind hnone fun name hname => ?_
  refine bindName_bind (hbinds name hname) fun m₁ hm₁ => ?_
  refine record_bind (fun hlevel fault hfault => ?_) fun m₂ hm₂ => ?_
  · rcases eq_error_of_bind hfault with hfault | ⟨names, -, hfault⟩
    · exact htrace (by omega) fault hfault
    · cases hfault
  · rw [← hm₁, ← hm₂] at hgood
    exact pure hgood

theorem runStatement {tree : Tree} (htrace : Traceable setting bad good)
    (h : Upholds d bad good
      (evaluate setting setting.limit tree.node tree.site scope) m) :
    Upholds d bad good (Scriptlet.runStatement setting scope tree) m :=
  bind h fun _ _ _ hv => record_value htrace (by decide) hv

end Upholds

end Scriptlet
