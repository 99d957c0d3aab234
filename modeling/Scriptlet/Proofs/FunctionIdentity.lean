import Scriptlet.Proofs.Deeds

/-!
# The identity of functions

Functions compare by the site of their definition. That this is the right
thing to compare is not a matter of course: sites are handed down through
evaluation, and a function carries the site of its body with it wherever it is
called. So the places of evaluations are described once more, without sites
(`EvaluatedAt`): the place that was named when a node was run, the second
operand of what is evaluated at a place, the third statement of the body of a
definition at a place. Every evaluation of a session has exactly one place,
and at this place of what was loaded its node stands.

Every function that there is, bound in a scope or returned, was made by the
evaluation of a definition (`Value.Made`). Two functions are the same exactly
if the two definitions have the same place (`functions_are_their_definitions`),
however alike they look and however often they were evaluated.
-/

namespace Scriptlet

/-- The number under which a function is kept in tables: that of its
definition, where nodes are numbered by `address`. -/
def Closure.hash (address : Site → Nat) (c : Closure) : Nat := address c.site

/-! ## Places of evaluations -/

def Visit.function? (v : Visit) : Option Closure :=
  match v.limit, v.node with
  | _ + 1, .define name params body =>
    some ⟨name, params, body, v.scope, v.site⟩
  | _, _ => none

/-- Where the node of an evaluation stands in what was loaded: in which text
or tree, and which nodes lead there, the innermost first. -/
inductive EvaluatedAt (setting : Setting) (turns : List Turn) :
    Visit → Site → Prop
  /-- What has a turn is evaluated at the place that was named. -/
  | top {t : Turn} : t ∈ turns →
      EvaluatedAt setting turns (t.visit setting) t.place
  | operand {v x : Visit} {place : Site} {i : Nat} :
      EvaluatedAt setting turns v place →
      (v.operandParts setting)[i]? = some x →
      EvaluatedAt setting turns x (place.child i)
  /-- A statement of a function, which was made by the evaluation of a
  definition. -/
  | body {v d x : Visit} {place origin : Site} {c : Closure}
      {frame : ScopeId} {m : Machine} {i : Nat} :
      EvaluatedAt setting turns v place → v.Enters setting c frame m →
      EvaluatedAt setting turns d origin → d.function? = some c →
      (v.bodyParts setting)[i]? = some x →
      EvaluatedAt setting turns x (origin.child i)

section

variable {setting : Setting} {turns : List Turn}

theorem of_getElem?_rowVisits {eval : Nat → Node → Eval Value} {limit : Nat}
    {site : Site} {scope : ScopeId} {index i : Nat} {nodes : List Node}
    {m : Machine} {x : Visit}
    (h : (rowVisits eval limit site scope index nodes m)[i]? = some x) :
    nodes[i]? = some x.node ∧
      x = ⟨limit, x.node, site.child (index + i), scope, x.machine⟩ := by
  induction nodes generalizing index i m with
  | nil => cases h
  | cons node rest ih =>
      unfold rowVisits at h
      cases i with
      | zero =>
          obtain rfl := Option.some.inj h
          exact ⟨rfl, rfl⟩
      | succ i =>
          rw [List.getElem?_cons_succ] at h
          split at h
          · obtain ⟨hnode, hx⟩ := ih h
            rw [Nat.add_right_comm] at hx
            exact ⟨hnode, hx⟩
          · cases h

theorem of_getElem?_operandParts {v x : Visit} {i : Nat}
    (h : (v.operandParts setting)[i]? = some x) :
    v.node.children[i]? = some x.node ∧ x.site = v.site.child i := by
  obtain ⟨limit, node, site, scope, m⟩ := v
  cases limit with
  | zero => cases h
  | succ limit =>
      obtain ⟨hnode, hx⟩ := of_getElem?_rowVisits h
      rw [Nat.zero_add] at hx
      refine ⟨?_, congrArg Visit.site hx⟩
      cases node with
      | binary | assign | call => exact hnode
      | _ => cases hnode

theorem Visit.Enters.bodyParts_eq {v : Visit} {c : Closure}
    {frame : ScopeId} {m : Machine} (h : v.Enters setting c frame m) :
    ∃ limit, v.bodyParts setting =
      nestedVisits setting limit c.site frame c.body m := by
  obtain ⟨limit', node, site, scope, machine⟩ := v
  obtain ⟨limit, callee, args, rfl, rfl, henter⟩ := h
  refine ⟨limit, ?_⟩
  show bodyVisits setting limit callee args site scope machine = _
  rw [bodyVisits, henter]

theorem Visit.of_function? {v : Visit} {c : Closure}
    (h : v.function? = some c) :
    c.site = v.site ∧ v.node = .define c.name c.params c.body := by
  obtain ⟨limit, node, site, scope, m⟩ := v
  cases limit with
  | zero => cases h
  | succ limit =>
      cases node with
      | define name params body =>
          cases h
          exact ⟨rfl, rfl⟩
      | _ => cases h

/-- What is evaluated at a place is what stands there. -/
theorem EvaluatedAt.at? {loaded : List Tree}
    (hturns : ∀ t ∈ turns, Tree.at? loaded t.place = some t.tree)
    {v : Visit} {place : Site} (h : EvaluatedAt setting turns v place) :
    Tree.at? loaded place = some ⟨v.site, v.node⟩ := by
  induction h with
  | top ht => exact hturns _ ht
  | operand _ hx ih =>
      obtain ⟨hnode, hsite⟩ := of_getElem?_operandParts hx
      rw [hsite]
      exact Tree.at?_child ih hnode
  | body _ henters _ hc hx _ ih =>
      obtain ⟨limit, hparts⟩ := henters.bodyParts_eq
      rw [hparts] at hx
      obtain ⟨hnode, hx⟩ := of_getElem?_rowVisits hx
      obtain ⟨hsite, hdefine⟩ := Visit.of_function? hc
      rw [hdefine, ← hsite] at ih
      rw [hx, Nat.zero_add]
      exact Tree.at?_child ih hnode

end

/-! ## Functions are made by definitions -/

/-- The value is a function only if the evaluation of a definition made it. -/
def Value.Made (setting : Setting) (turns : List Turn) (r : Value) : Prop :=
  ∀ c, r = .function c → ∃ d place,
    EvaluatedAt setting turns d place ∧ d.function? = some c

theorem Value.Made.of_ne {setting : Setting} {turns : List Turn} {r : Value}
    (h : ∀ c, r ≠ .function c) : r.Made setting turns :=
  fun c hc => absurd hc (h c)

def Discipline.made (setting : Setting) (turns : List Turn) : Discipline :=
  .ofValues (Value.Made setting turns) (.of_ne fun _ => Value.noConfusion)

/-- The action keeps to functions that definitions have made. -/
abbrev KeepsMade {α : Type} (setting : Setting) (turns : List Turn)
    (good : α → Prop) (action : Eval α) (m : Machine) : Prop :=
  Upholds (.made setting turns) (fun _ => True) (fun a _ => good a) action m

def Visit.KeepsMade (setting : Setting) (turns : List Turn) (v : Visit) :
    Prop :=
  Scriptlet.KeepsMade setting turns (Value.Made setting turns)
    (evaluate setting v.limit v.node v.site v.scope) v.machine

/-- The evaluation has a place, and when it begins there are only functions
that definitions have made. -/
structure Visit.Known (setting : Setting) (turns : List Turn) (v : Visit) :
    Prop where
  made : v.before.Holds (Value.Made setting turns)
  place : ∃ place, EvaluatedAt setting turns v place

section

variable {setting : Setting} {turns : List Turn} {limit : Nat}
  {scope : ScopeId} {vs : List Value} {m : Machine}

theorem KeepsMade.state {α : Type} {good : α → Prop} {action : Eval α}
    (h : KeepsMade setting turns good action m)
    (hm : m.store.Holds (Value.Made setting turns)) :
    (action m).state.store.Holds (Value.Made setting turns) := by
  have hrun := h hm
  cases haction : action m <;> rw [haction] at hrun <;> exact hrun.1

theorem traceable_made (setting : Setting) (turns : List Turn) :
    Traceable setting (fun _ => True)
      fun v _ => Value.Made setting turns v :=
  fun _ _ _ _ _ => trivial

/-- A node that is no call makes a function if it is a definition, and in no
other case. -/
theorem keepsMade_finish {site : Site} {node : Node}
    (hcall : ∀ callee args, node ≠ .call callee args)
    (hmade : ∀ name params body, node = .define name params body →
      (Value.function ⟨name, params, body, scope, site⟩).Made setting turns)
    (hvs : ∀ r ∈ vs, Value.Made setting turns r) :
    KeepsMade setting turns (Value.Made setting turns)
      (node.finish setting limit site scope vs) m := by
  have hnumber : ∀ x, (Value.number x).Made setting turns := fun x =>
    .of_ne fun _ => Value.noConfusion
  cases node with
  | number text =>
      refine .lift (fun _ _ => trivial) fun r hr => ?_
      obtain ⟨x, rfl⟩ := eq_number_of_evalLiteral hr
      exact hnumber x
  | identifier json =>
      exact .nameOf_bind (fun _ => trivial) fun name _ => .lookup scope name
  | binary operator left right =>
      refine .lift (fun _ _ => trivial) fun r hr => ?_
      obtain ⟨x, rfl⟩ := eq_number_of_applyOperator hr
      exact hnumber x
  | assign json value =>
      have hv : (vs.getD 0 .nil).Made setting turns := by
        cases vs with
        | nil => exact .of_ne fun _ => Value.noConfusion
        | cons r rest => exact hvs r List.mem_cons_self
      refine .nameOf_bind (fun _ => trivial) fun name _ => ?_
      refine .bindName_bind hv fun m₁ _ => .get_bind ?_
      exact .record_value (traceable_made setting turns) (by decide) hv
  | define json params body =>
      have hf := hmade json params body rfl
      refine .nameOf_bind (fun _ => trivial) fun name _ => ?_
      refine .bindName_bind hf fun m₁ _ => ?_
      exact .record_bind (fun _ _ _ => trivial) fun m₂ _ => .pure hf
  | call callee args => exact absurd rfl (hcall callee args)
  | sequence items => exact .fail trivial

/-- A row keeps to functions that were made if each of its evaluations does,
and then there are only such functions when any of them begins. -/
theorem keepsMade_row {eval : Nat → Node → Eval Value} {site : Site}
    {index : Nat} {nodes : List Node}
    (h : ∀ i x, (rowVisits eval limit site scope index nodes m)[i]? = some x →
      KeepsMade setting turns (Value.Made setting turns)
        (eval (index + i) x.node) x.machine) :
    KeepsMade setting turns (fun vs => ∀ r ∈ vs, Value.Made setting turns r)
        (evalEach eval index nodes) m ∧
      (m.store.Holds (Value.Made setting turns) →
        ∀ x ∈ rowVisits eval limit site scope index nodes m,
          x.before.Holds (Value.Made setting turns)) := by
  induction nodes generalizing index m with
  | nil => exact ⟨.pure fun r hr => absurd hr List.not_mem_nil,
      fun _ x hx => absurd hx List.not_mem_nil⟩
  | cons node rest ih =>
      unfold rowVisits at h ⊢
      have hfirst : KeepsMade setting turns (Value.Made setting turns)
          (eval index node) m := h 0 _ rfl
      have hrest : ∀ r m₁, eval index node m = .done r m₁ → _ :=
        fun r m₁ hnode => ih (m := m₁) fun i x hx => by
          rw [Nat.add_right_comm]
          rw [hnode] at h
          exact h (i + 1) x hx
      refine ⟨?_, fun hm x hx => ?_⟩
      · refine .bind_of_done hfirst fun r m₁ hnode _ hr => ?_
        refine .bind (hrest r m₁ hnode).1 fun vs m₂ _ hvs => ?_
        exact .pure (List.forall_mem_cons.mpr ⟨hr, hvs⟩)
      · rcases List.mem_cons.mp hx with rfl | hx
        · exact hm
        · have hm₁ := hfirst.state hm
          cases hnode : eval index node m with
          | done r m₁ =>
              rw [hnode] at hx hm₁
              exact (hrest r m₁ hnode).2 hm₁ x hx
          | failed f m₁ =>
              rw [hnode] at hx
              exact absurd hx List.not_mem_nil

/-- The evaluations of a row keep to such functions if those at places do. -/
theorem keepsMade_nested {site place : Site} {nodes : List Node}
    (h : ∀ (i : Nat) x,
      (nestedVisits setting limit site scope nodes m)[i]? = some x →
      EvaluatedAt setting turns x (place.child i) ∧
        x.KeepsMade setting turns) :
    KeepsMade setting turns (fun vs => ∀ r ∈ vs, Value.Made setting turns r)
        (evalArgs setting limit nodes site scope) m ∧
      (m.store.Holds (Value.Made setting turns) →
        ∀ x ∈ nestedVisits setting limit site scope nodes m,
          x.Known setting turns) := by
  have hrow : ∀ i x, (rowVisits (fun i node =>
      evaluate setting limit node (site.child i) scope) limit site scope 0
        nodes m)[i]? = some x →
      KeepsMade setting turns (Value.Made setting turns)
        (evaluate setting limit x.node (site.child (0 + i)) scope)
        x.machine := by
    intro i x hx
    have hkeeps := (h i x hx).2
    unfold Visit.KeepsMade at hkeeps
    rw [(of_getElem?_rowVisits hx).2] at hkeeps
    exact hkeeps
  obtain ⟨hkeeps, hbefore⟩ := keepsMade_row hrow
  refine ⟨hkeeps, fun hm x hx => ⟨hbefore hm x hx, ?_⟩⟩
  obtain ⟨i, hi⟩ := List.mem_iff_getElem?.mp hx
  exact ⟨place.child i, (h i x hi).1⟩

/-- Calling a value that was made keeps to such functions, and so do the
statements of the function. -/
theorem keepsMade_callValue (hhost : setting.host = []) (limit : Nat)
    (scope : ScopeId) {f : Value} (hf : f.Made setting turns)
    (hvs : ∀ r ∈ vs, Value.Made setting turns r)
    (hbody : ∀ c frame m' d origin, f = .function c →
      enterFunction setting c vs scope m = .done frame m' →
      EvaluatedAt setting turns d origin → d.function? = some c →
      ∀ (i : Nat) x,
        (nestedVisits setting limit c.site frame c.body m')[i]? = some x →
        EvaluatedAt setting turns x (origin.child i) ∧
          x.KeepsMade setting turns) :
    KeepsMade setting turns (Value.Made setting turns)
        (callValue setting limit f vs scope) m ∧
      (m.store.Holds (Value.Made setting turns) →
        ∀ x ∈ Call.visits setting limit scope ⟨f, vs, m⟩,
          x.Known setting turns) := by
  cases f with
  | function c =>
      have henter : KeepsMade setting turns (fun _ => True)
          (enterFunction setting c vs scope) m :=
        (Upholds.enterFunction setting scope (fun _ _ _ => trivial)
          fun _ _ => hvs).imp fun _ _ _ => trivial
      obtain ⟨d, origin, hd, hc⟩ := hf c rfl
      refine ⟨?_, fun hm x hx => ?_⟩
      · refine .bind_of_done henter fun frame m₁ hframe _ _ => ?_
        rw [runBody, evalLast_eq]
        refine .bind (keepsMade_nested (hbody c frame m₁ d origin rfl hframe
          hd hc)).1 fun rs m₂ _ hrs => .pure ?_
        rw [List.getLastD_eq_getLast?]
        cases hlast : rs.getLast? with
        | none => exact .of_ne fun _ => Value.noConfusion
        | some r => exact hrs r (List.mem_of_getLast? hlast)
      · have hm₁ := henter.state hm
        cases hframe : enterFunction setting c vs scope m with
        | failed fault m₁ =>
            simp only [Call.visits, hframe] at hx
            exact absurd hx List.not_mem_nil
        | done frame m₁ =>
            simp only [Call.visits, hframe] at hx
            rw [hframe] at hm₁
            exact (keepsMade_nested (hbody c frame m₁ d origin rfl hframe hd
              hc)).2 hm₁ x hx
  | builtin b =>
      refine ⟨?_, fun _ x hx => absurd hx List.not_mem_nil⟩
      refine .of_leaves (leaves_callBuiltin setting b vs m) ?_
      exact (ensures_callBuiltin hhost b vs m).imp
        (fun _ _ h => .of_ne h) fun _ _ _ => trivial
  | _ => exact ⟨.fail trivial, fun _ x hx => absurd hx List.not_mem_nil⟩

/-- A call keeps to such functions. -/
theorem keepsMade_call (hhost : setting.host = []) {callee : Node}
    {args : List Node} {site place : Site}
    (hat : EvaluatedAt setting turns
      ⟨limit + 1, .call callee args, site, scope, m⟩ place)
    (hargs : KeepsMade setting turns
      (fun vs => ∀ r ∈ vs, Value.Made setting turns r)
      (evalArgs setting limit args site scope) m)
    (hbody : ∀ x ∈ bodyVisits setting limit callee args site scope m,
      ∀ place, EvaluatedAt setting turns x place →
        x.KeepsMade setting turns) :
    KeepsMade setting turns (Value.Made setting turns)
        (evaluate setting (limit + 1) (.call callee args) site scope) m ∧
      (m.store.Holds (Value.Made setting turns) →
        ∀ x ∈ bodyVisits setting limit callee args site scope m,
          x.Known setting turns) := by
  have hprepare : KeepsMade setting turns
      (fun call => call.1.Made setting turns ∧
        ∀ r ∈ call.2, Value.Made setting turns r)
      (prepareCall setting limit callee args site scope) m :=
    .prepareCall (traceable_made setting turns) (fun _ _ _ hv _ => hv) hargs
      fun _ => .resolveCallee (fun _ _ => trivial) (fun _ _ _ => trivial)
        fun _ _ _ _ _ _ => id
  have hcall : ∀ f vs m₁, prepareCall setting limit callee args site scope m =
      .done (f, vs) m₁ → f.Made setting turns →
      (∀ r ∈ vs, Value.Made setting turns r) → _ :=
    fun f vs m₁ hdone hf hvs => keepsMade_callValue (m := m₁) hhost limit
      scope hf hvs fun c frame m₂ d origin heq hframe hd hc i x hx => by
        subst heq
        have hparts : bodyVisits setting limit callee args site scope m =
            nestedVisits setting limit c.site frame c.body m₂ := by
          rw [Visit.bodyVisits_of_done hdone]
          simp only [Call.visits, hframe]
        have henters : Visit.Enters setting
            ⟨limit + 1, .call callee args, site, scope, m⟩ c frame m₂ := by
          refine ⟨limit, callee, args, rfl, rfl, ?_⟩
          simp only [enterCall, Step.bind_apply, hdone, hframe]
          rfl
        rw [← hparts] at hx
        have hx' := hat.body henters hd hc hx
        exact ⟨hx', hbody x (List.mem_of_getElem? hx) _ hx'⟩
  refine ⟨?_, fun hm x hx => ?_⟩
  · rw [evaluate_call]
    refine .bind_of_done hprepare fun call m₁ hdone _ hmade => ?_
    refine .bind (hcall call.1 call.2 m₁ hdone hmade.1 hmade.2).1
      fun r m₂ _ hr => ?_
    exact .record_value (traceable_made setting turns) (by decide) hr
  · have hrun := hprepare hm
    cases hdone : prepareCall setting limit callee args site scope m with
    | failed f m₁ =>
        rw [Visit.bodyVisits_of_failed hdone] at hx
        exact absurd hx List.not_mem_nil
    | done call m₁ =>
        rw [hdone] at hrun
        obtain ⟨hm₁, -, hf, hvs⟩ := hrun
        rw [Visit.bodyVisits_of_done hdone] at hx
        exact (hcall call.1 call.2 m₁ hdone hf hvs).2 hm₁ x hx

/-- Every evaluation that has a place keeps to functions that definitions have
made, and all that is evaluated within it has a place. -/
theorem EvaluatedAt.keepsMade (hhost : setting.host = []) {v : Visit}
    {place : Site} (hat : EvaluatedAt setting turns v place) :
    v.KeepsMade setting turns ∧
      (v.before.Holds (Value.Made setting turns) →
        ∀ x ∈ v.parts setting, x.Known setting turns) := by
  -- That a statement of a function has a place needs that the function was
  -- made, and that functions are made needs the places of all that is
  -- evaluated within: one induction carries both.
  induction v using Visit.induction setting generalizing place with
  | h v ih =>
      obtain ⟨limit, node, site, scope, m⟩ := v
      cases limit with
      | zero => exact ⟨fun hm => ⟨hm, trivial⟩,
          fun _ x hx => absurd hx List.not_mem_nil⟩
      | succ limit =>
          obtain ⟨hargs, hbefore⟩ := keepsMade_nested fun i x hx =>
            have hx' := hat.operand hx
            ⟨hx', (ih x (Visit.mem_parts.mpr (.inl
              (List.mem_of_getElem? hx))) hx').1⟩
          have hmade : ∀ name params body, node = .define name params body →
              (Value.function ⟨name, params, body, scope, site⟩).Made setting
                turns := by
            rintro name params body rfl c hc
            cases hc
            exact ⟨_, place, hat, rfl⟩
          cases node with
          | call callee args =>
              obtain ⟨hcall, hbody⟩ := keepsMade_call hhost hat hargs
                fun x hx _ hx' => (ih x (Visit.mem_parts.mpr (.inr hx)) hx').1
              refine ⟨hcall, fun hm x hx => ?_⟩
              rcases Visit.mem_parts.mp hx with hx | hx
              · exact hbefore hm x hx
              · exact hbody hm x hx
          | _ =>
              refine ⟨?_, fun hm x hx => ?_⟩
              · show KeepsMade setting turns _
                  (evaluate setting (limit + 1) _ site scope) m
                rw [evaluate_eq]
                exact .bind hargs fun vs m₁ _ hvs =>
                  keepsMade_finish (fun _ _ => Node.noConfusion) hmade hvs
              · rcases Visit.mem_parts.mp hx with hx | hx
                · exact hbefore hm x hx
                · exact absurd hx List.not_mem_nil

/-- What holds at an evaluation holds at those that are made within it. -/
theorem Visits.known (hhost : setting.host = []) {v b : Visit}
    (h : Visits setting v b) (hv : v.Known setting turns) :
    b.Known setting turns := by
  induction h with
  | refl v => exact hv
  | part hx _ ih =>
      obtain ⟨hmade, place, hat⟩ := hv
      exact ih ((hat.keepsMade hhost).2 hmade _ hx)

/-! ## Sessions -/

/-- Through all turns there are only functions that definitions have made. -/
theorem Turns.known (hhost : setting.host = []) {m' : Machine}
    {taken : List Turn} (h : Turns setting m taken m')
    (htaken : ∀ t ∈ taken, t ∈ turns)
    (hm : m.store.Holds (Value.Made setting turns)) :
    (∀ t ∈ taken, (t.visit setting).Known setting turns) ∧
      m'.store.Holds (Value.Made setting turns) := by
  induction h with
  | nil m => exact ⟨fun t ht => absurd ht List.not_mem_nil, hm⟩
  | idle hidle _ ih =>
      refine ih htaken ?_
      rcases hidle.store with hstore | ⟨parent, hstore⟩ <;> rw [hstore]
      · exact hm
      · exact hm.add (some parent)
  | @turn t rest m' _ ih =>
      obtain ⟨ht, hrest⟩ := List.forall_mem_cons.mp htaken
      have hat : EvaluatedAt setting turns (t.visit setting) t.place := .top ht
      obtain ⟨hknown, hend⟩ := ih hrest ((hat.keepsMade hhost).1.state hm)
      exact ⟨List.forall_mem_cons.mpr ⟨⟨hm, _, hat⟩, hknown⟩, hend⟩

end

def Store.BindsFunction (store : Store) (c : Closure) : Prop :=
  ∃ id scope name, store.scope? id = some scope ∧
    (name, .function c) ∈ scope.bindings

/-- The function turns up when the deeds are done: it is bound when an
evaluation begins or ends, or at the end of all, or an evaluation returns
it. -/
def Client.TurnsUp (client : Client) (deeds : List Deed) (c : Closure) :
    Prop :=
  (∃ v, client.Evaluates deeds v ∧
    (v.before.BindsFunction c ∨
      (v.after client.session.setting).BindsFunction c ∨
      (v.outcome client.session.setting).result = .ok (.function c))) ∨
  (client.doingAll deeds).session.machine.store.BindsFunction c

theorem Store.Holds.of_bindsFunction {store : Store} {setting : Setting}
    {turns : List Turn} (h : store.Holds (Value.Made setting turns))
    {c : Closure} (hc : store.BindsFunction c) :
    ∃ place d, EvaluatedAt setting turns d place ∧
      d.function? = some c := by
  obtain ⟨id, scope, name, hscope, hbinding⟩ := hc
  obtain ⟨d, place, hd⟩ := h id scope hscope _ hbinding c rfl
  exact ⟨place, d, hd⟩

theorem Value.same_function (c c' : Closure) :
    Value.same (.function c) (.function c') = true ↔ c.site = c'.site :=
  beq_iff_eq

/-- If the evaluation of a definition returns, it returns the function that it
has made. -/
theorem Visit.result_of_function? {setting : Setting} {v : Visit}
    {c : Closure} {r : Value} (hc : v.function? = some c)
    (hr : (v.outcome setting).result = .ok r) : r = .function c := by
  obtain ⟨limit, node, site, scope, m⟩ := v
  cases limit with
  | zero => cases hc
  | succ limit =>
      cases node with
      | define name params body =>
          cases hc
          unfold outcome at hr
          cases hrun : evaluate setting (limit + 1) (.define name params body)
            site scope m with
          | failed f m₁ =>
              rw [hrun] at hr
              cases hr
          | done r' m₁ =>
              rw [hrun] at hr
              cases hr
              rw [evaluate] at hrun
              obtain ⟨_, m₂, -, hbind⟩ := Step.bind_eq_done_iff.mp hrun
              obtain ⟨_, m₃, -, hrecord⟩ := Step.bind_eq_done_iff.mp hbind
              obtain ⟨_, m₄, -, hdone⟩ := Step.bind_eq_done_iff.mp hrecord
              cases hdone
              rfl
      | _ => cases hc

/-- **Functions are their definitions.** Whatever is done in a session, the
texts and trees that were loaded are numbered in their order, each evaluation
has exactly one place in them, and its node stands there. Every function that
turns up comes from a place, where the evaluation of a definition made it, and
the definition stands there with the name, the parameters and the body of the
function. Two functions are equal exactly if they come from the same place of
the same text or tree, however often it was run and in whatever scopes the
definition was evaluated; and equal functions have equal numbers in tables,
and only they if different nodes have different numbers. -/
theorem functions_are_their_definitions (limit : Nat) (lexical : Bool)
    (level : Int) (input : List Char) (deeds : List Deed) :
    let client := Client.start (Session.startWithin limit lexical level input)
    let setting := client.session.setting
    let turns := client.turns deeds
    let loaded := (client.doingAll deeds).loaded
    let comesFrom := fun (c : Closure) (place : Site) =>
      ∃ d, EvaluatedAt setting turns d place ∧ d.function? = some c
    loaded.map Tree.node = deeds.filterMap (Deed.load? limit) ∧
    (∀ v, client.Evaluates deeds v → ∃ place,
      (∀ other, EvaluatedAt setting turns v other ↔ other = place) ∧
        Tree.at? loaded place = some ⟨place, v.node⟩) ∧
    (∀ (v : Visit) c r, v.function? = some c →
      (v.outcome setting).result = .ok r → r = .function c) ∧
    (∀ c, client.TurnsUp deeds c → ∃ place, comesFrom c place) ∧
    (∀ c place, comesFrom c place → Tree.at? loaded place =
      some ⟨place, .define c.name c.params c.body⟩) ∧
    ∀ c c' place place', comesFrom c place → comesFrom c' place' →
      (Value.same (.function c) (.function c') = true ↔ place = place') ∧
      ∀ address,
        (Value.same (.function c) (.function c') = true →
          c.hash address = c'.hash address) ∧
        (Function.Injective address →
          c.hash address = c'.hash address →
          Value.same (.function c) (.function c') = true) := by
  intro client setting turns loaded comesFrom
  have hat : ∀ v place, EvaluatedAt setting turns v place →
      Tree.at? loaded place = some ⟨v.site, v.node⟩ := fun v place h =>
    h.at? fun t => Client.at?_of_turns
  have hsite : ∀ v place, EvaluatedAt setting turns v place →
      v.site = place := fun v place h =>
    Tree.site_of_at? ((Client.numbered_start rfl).doingAll deeds).sites
      (hat v place h)
  have hinitial : client.session.machine.store.Holds
      (Value.Made setting turns) :=
    Store.Holds.initial (.of_ne fun _ => Value.noConfusion)
      (.of_ne fun _ => Value.noConfusion)
  obtain ⟨htops, hend⟩ := (client.turns_doingAll deeds).known rfl
    (fun _ => id) hinitial
  have hknown : ∀ v, client.Evaluates deeds v → v.Known setting turns := by
    rintro v ⟨t, ht, hv⟩
    exact hv.known rfl (htops t ht)
  have hfrom : ∀ c place, comesFrom c place → c.site = place := by
    rintro c place ⟨d, hd, hc⟩
    rw [(Visit.of_function? hc).1]
    exact hsite d place hd
  refine ⟨?_, ?_, fun v c r => Visit.result_of_function?, ?_, ?_, ?_⟩
  · obtain ⟨more, hmore, hnodes⟩ := client.loaded_doingAll deeds
    show (client.doingAll deeds).loaded.map Tree.node = _
    rw [hmore]
    exact hnodes
  · intro v hv
    obtain ⟨-, place, hplace⟩ := hknown v hv
    have hv := hsite v place hplace
    refine ⟨place, fun other => ⟨fun h => ?_, fun h => h ▸ hplace⟩, ?_⟩
    · rw [← hsite v other h, hv]
    · rw [hat v place hplace, hv]
  · rintro c (⟨v, hv, hcase⟩ | hc)
    · obtain ⟨hbefore, place, hplace⟩ := hknown v hv
      have hkeeps := (hplace.keepsMade rfl).1
      rcases hcase with hc | hc | hc
      · exact hbefore.of_bindsFunction hc
      · exact (hkeeps.state hbefore).of_bindsFunction hc
      · rcases (hkeeps hbefore).result with ⟨r, hr, -, -, hr'⟩ | ⟨f, hf, -⟩
        · cases hc.symm.trans hr
          obtain ⟨d, origin, hd⟩ := hr' c rfl
          exact ⟨origin, d, hd⟩
        · cases hc.symm.trans hf
    · exact hend.of_bindsFunction hc
  · rintro c place ⟨d, hd, hc⟩
    rw [hat d place hd, hsite d place hd, (Visit.of_function? hc).2]
  · intro c c' place place' hc hc'
    rw [Value.same_function, hfrom c place hc, hfrom c' place' hc']
    refine ⟨Iff.rfl, fun address => ⟨fun h => ?_, fun hinj h => ?_⟩⟩
    · rw [Closure.hash, Closure.hash, hfrom c place hc, hfrom c' place' hc', h]
    · rw [← hfrom c place hc, ← hfrom c' place' hc']
      exact hinj h

/-- What a name is bound to in the global scope when deeds are done in a new
session. -/
def Client.globalAfter (name : String) (deeds : List Deed) : Value :=
  ((start (Session.startWithin 10 true 0 [])).doingAll
    deeds).session.machine.store.get Machine.globalScope (.text name)

-- A program that was parsed once makes the same function in every run.
example :
    let once := [Deed.parse "def f() 1 end",
      .run [⟨0, [0]⟩] Machine.globalScope]
    let again := once ++ [.run [⟨0, [0]⟩] Machine.globalScope]
    Value.same (Client.globalAfter "f" once) (Client.globalAfter "f" again) =
      true := by cbv

-- If it is parsed again, it makes another one.
example :
    let once := [Deed.parse "def f() 1 end",
      .run [⟨0, [0]⟩] Machine.globalScope]
    let again := once ++ [.parse "def f() 1 end",
      .run [⟨1, [0]⟩] Machine.globalScope]
    Value.same (Client.globalAfter "f" once) (Client.globalAfter "f" again) =
      false := by cbv

end Scriptlet
