import Scriptlet.Proofs.Disciplines
import Scriptlet.Proofs.Visits

/-!
# Evaluating parsed programs

From scopes whose values are all safe, a statement of a loaded program is
evaluated to a safe value, or it fails in one of the expected ways; and
the scopes are safe again in either case (`safeLaw`). The same holds at
the beginning and at the end of every evaluation on the way
(`Visit.Ready.of_visits`).

That every value is safe is a discipline of the scopes (`Discipline.safe`).
What makes the fallback branches of the evaluator dead is that the node stands
in a program, which a function that is called brings along for its body.
-/

namespace Scriptlet

/-! ## Actions on safe scopes -/

def Discipline.safe (programs : Programs) : Discipline where
  Binds _ v n := v.Safe programs n
  Holds := Store.Safe programs
  grow h hle := h.grow hle
  add parent h := h.add parent
  set id h hv := h.set id _ hv
  get id name h := h.get id name

/-- From safe scopes, the action ends with safe scopes, not fewer of them,
and with a result as in `good`; or it fails in an expected way. -/
abbrev Safely {α : Type} (programs : Programs) (good : α → Nat → Prop)
    (action : Eval α) (m : Machine) : Prop :=
  Upholds (.safe programs) Fault.Expected good action m

def SafeValue (programs : Programs) (v : Value) (size : Nat) : Prop :=
  v.Safe programs size

def SafeValues (programs : Programs) (vs : List Value) (size : Nat) : Prop :=
  ∀ v ∈ vs, v.Safe programs size

theorem traceable_safeValue (programs : Programs) (setting : Setting) :
    Traceable setting Fault.Expected (SafeValue programs) := by
  intro _ v n hv hnone
  obtain ⟨text, htext⟩ := Value.Safe.display? hv
  rw [hnone] at htext
  cases htext

/-- Names that are words are there. -/
theorem ofJson?_text_ne_none (word : String) :
    Name.ofJson? (.text word) ≠ none := Option.some_ne_none _

/-! ## Nodes of a program -/

/-- A statement of a loaded program at its site. -/
structure Stands (programs : Programs) (site : Site) (node : Node) : Prop where
  isStatement : IsStatement node
  node?_eq : site.node? programs = some node

/-- A row of statements at the sites from `index` on. -/
def RowStands (programs : Programs) (site : Site) (index : Nat)
    (nodes : List Node) : Prop :=
  ∀ k node, nodes[k]? = some node →
    Stands programs (site.child (index + k)) node

section

variable {programs : Programs} {site : Site} {node : Node}

theorem RowStands.head {index : Nat} {nodes : List Node}
    (h : RowStands programs site index (node :: nodes)) :
    Stands programs (site.child index) node := h 0 node rfl

theorem RowStands.tail {index : Nat} {nodes : List Node}
    (h : RowStands programs site index (node :: nodes)) :
    RowStands programs site (index + 1) nodes := by
  intro k child hk
  rw [Nat.add_assoc, Nat.add_comm 1 k]
  exact h (k + 1) child hk

theorem Stands.children (h : Stands programs site node) :
    RowStands programs site 0 node.children := by
  intro k child hk
  rw [Nat.zero_add]
  exact ⟨h.isStatement.children (List.mem_of_getElem? hk),
    Site.node?_child h.node?_eq hk⟩

/-- The statements in the body of a function stand in its program, and its
parameters are words. -/
theorem Value.Safe.body {c : Closure} {size : Nat}
    (h : (Value.function c).Safe programs size) :
    RowStands programs c.site 0 c.body ∧
      ∃ params : List String, c.params = params.map .text := by
  cases h with
  | function _ hsite =>
      have hdefine := Site.isStatement_of_define hsite
      exact ⟨Stands.children ⟨hdefine, hsite⟩, hdefine.params_eq⟩

end

/-! ## Rows -/

/-- The evaluator of a row is safe on the nodes of a program. -/
def SafeEvaluator (programs : Programs) (site : Site) (scope : ScopeId)
    (eval : Nat → Node → Eval Value) : Prop :=
  ∀ i node m, Stands programs (site.child i) node → scope < m.store.size →
    Safely programs (SafeValue programs) (eval i node) m

theorem SafeEvaluator.each {programs : Programs} {site : Site}
    {scope : ScopeId} {eval : Nat → Node → Eval Value}
    (heval : SafeEvaluator programs site scope eval) {index : Nat}
    {nodes : List Node} (hrow : RowStands programs site index nodes) :
    UpholdsEach (.safe programs) Fault.Expected (SafeValue programs)
      (scope + 1) eval index nodes :=
  fun k node m hk hscope => heval (index + k) node m (hrow k node hk) hscope

/-! ## Evaluation -/

/-- Every node of a program is evaluated safely when evaluations nest at
most `limit` deep. -/
def SafeLaw (programs : Programs) (setting : Setting) (limit : Nat) : Prop :=
  ∀ (node : Node) (site : Site) (scope : ScopeId) (m : Machine),
    Stands programs site node → scope < m.store.size →
    Safely programs (SafeValue programs)
      (evaluate setting limit node site scope) m

section

variable {programs : Programs} {setting : Setting} {limit : Nat}

theorem SafeLaw.evaluator (h : SafeLaw programs setting limit) (site : Site)
    (scope : ScopeId) : SafeEvaluator programs site scope
      fun i node => evaluate setting limit node (site.child i) scope :=
  fun i node => h node (site.child i) scope

theorem safely_enterFunction (setting : Setting) {c : Closure}
    {vs : List Value} (scope : ScopeId) {m : Machine} {params : List String}
    (hparams : c.params = params.map .text)
    (hvs : SafeValues programs vs m.store.size) :
    Safely programs (fun id size => id < size)
      (enterFunction setting c vs scope) m := by
  refine .enterFunction setting scope (fun param hparam hnone => ?_)
    fun _ _ => hvs
  rw [hparams] at hparam
  obtain ⟨word, -, rfl⟩ := List.mem_map.mp hparam
  exact absurd hnone (ofJson?_text_ne_none word)

theorem safely_callValue (ih : SafeLaw programs setting limit) {f : Value}
    {vs : List Value} (scope : ScopeId) {m : Machine}
    (hf : f.Safe programs m.store.size)
    (hvs : SafeValues programs vs m.store.size) :
    Safely programs (SafeValue programs)
      (callValue setting limit f vs scope) m := by
  cases f with
  | function c =>
      obtain ⟨hbody, params, hparams⟩ := hf.body
      refine .bind (safely_enterFunction setting scope hparams hvs)
        fun frame m₁ _ hframe => ?_
      exact ((ih.evaluator c.site frame).each hbody).evalLast hframe .nil
  | builtin b =>
      cases hf with
      | puts => exact .puts setting (fun v hv => (hvs v hv).display?) .nil
      | gets => exact .gets setting vs .nil .string
  | _ => exact .fail (by simp [Fault.Expected, EvalError.kind, programErrorKinds])

theorem safely_resolveCallee (name : String) (scope : ScopeId) (m : Machine) :
    Safely programs (SafeValue programs)
      (resolveCallee (.identifier (.text name)) scope) m := by
  refine .resolveCallee (fun _ => id) ?_ fun _ _ _ _ _ _ => id
  rintro _ ⟨⟩ hnone
  exact absurd hnone (ofJson?_text_ne_none name)

theorem safely_prepareCall (law : SafeLaw programs setting limit)
    {name : String} {args : List Node} {site : Site} {scope : ScopeId}
    {m : Machine} (hargs : RowStands programs site 0 args)
    (hscope : scope < m.store.size) :
    Safely programs
      (fun call size => call.1.Safe programs size ∧
        SafeValues programs call.2 size)
      (prepareCall setting limit (.identifier (.text name)) args site scope)
      m := by
  have hgrow : ∀ v n n', SafeValue programs v n → n ≤ n' →
      SafeValue programs v n' := fun _ _ _ hv hle => Value.Safe.grow hv hle
  exact .prepareCall (traceable_safeValue programs setting) hgrow
    (((law.evaluator site scope).each hargs).evalEach hgrow hscope)
    (safely_resolveCallee name scope)

theorem safely_call (ih : SafeLaw programs setting limit) {name : String}
    {args : List Node} {site : Site} {scope : ScopeId} {m : Machine}
    (hargs : RowStands programs site 0 args) (hscope : scope < m.store.size) :
    Safely programs (SafeValue programs)
      (evaluate setting (limit + 1) (.call (.identifier (.text name)) args)
        site scope) m :=
  .call (traceable_safeValue programs setting)
    (fun _ _ _ hv hle => Value.Safe.grow hv hle)
    ((ih.evaluator site scope).each hargs) (safely_resolveCallee name scope)
    (fun _ _ _ hf hvs => safely_callValue ih scope hf hvs) hscope

theorem safely_expression (ih : SafeLaw programs setting limit) {e : Node}
    (he : IsExpression e) {site : Site} {scope : ScopeId} {m : Machine}
    (hrow : RowStands programs site 0 e.children)
    (hscope : scope < m.store.size) :
    Safely programs (SafeValue programs)
      (evaluate setting (limit + 1) e site scope) m := by
  cases he with
  | number htext =>
      obtain ⟨x, hx⟩ := evalLiteral_of_isNumeral htext
      rw [evaluate, hx]
      exact .pure (.number x)
  | @identifier name _ =>
      rw [evaluate]
      refine .nameOf_bind (fun hnone => ?_) fun _ _ => .lookup scope _
      exact absurd hnone (ofJson?_text_ne_none name)
  | @binary operator left right hop _ _ =>
      rw [evaluate]
      refine .bind (ih left _ scope m hrow.head hscope)
        fun a m₁ hle ha => ?_
      refine .bind (ih right _ scope m₁ hrow.tail.head
        (Nat.lt_of_lt_of_le hscope hle)) fun b m₂ hle' hb => ?_
      rcases applyOperator_safe hop (Value.Safe.grow ha hle') hb with
        ⟨z, hz⟩ | ⟨f, hf, hexpected⟩
      · rw [hz]
        exact .pure (.number z)
      · rw [hf]
        exact .fail hexpected
  | call _ _ => exact safely_call ih hrow hscope

theorem safely_define {name : String} {params : List String}
    {body : List Node} {site : Site} {scope : ScopeId} {m : Machine}
    (hsite : site.node? programs =
      some (.define (.text name) (params.map .text) body))
    (hscope : scope < m.store.size) :
    Safely programs (SafeValue programs)
      (evaluate setting (limit + 1)
        (.define (.text name) (params.map .text) body) site scope) m := by
  have hf : (Value.function ⟨.text name, params.map .text, body, scope,
      site⟩).Safe programs m.store.size := .function hscope hsite
  refine .define (fun _ fault hfault => ?_)
    (fun hnone => absurd hnone (ofJson?_text_ne_none name)) (fun _ _ => hf) hf
  rw [traceParams_text] at hfault
  cases hfault

/-- The statements of loaded programs are evaluated safely. -/
theorem safeLaw (programs : Programs) (setting : Setting) (limit : Nat) :
    SafeLaw programs setting limit := by
  induction limit with
  | zero => exact fun _ _ _ _ _ _ => .fail trivial
  | succ limit ih =>
      intro node site scope m hstands hscope
      have hrow := hstands.children
      obtain ⟨hstatement, hsite⟩ := hstands
      cases hstatement with
      | expression he => exact safely_expression ih he hrow hscope
      | @assign name _ _ _ =>
          exact .assign (traceable_safeValue programs setting)
            (ih _ _ scope m hrow.head hscope)
            (fun hnone => absurd hnone (ofJson?_text_ne_none name))
            fun _ _ _ _ => id
      | define _ _ _ => exact safely_define hsite hscope

end

/-! ## Evaluations on the way -/

/-- The evaluation of a statement of a program begins with safe scopes. -/
structure Visit.Ready (programs : Programs) (v : Visit) : Prop where
  stands : Stands programs v.site v.node
  scope_lt : v.scope < v.before.size
  store : v.before.Safe programs

section

variable {programs : Programs} {setting : Setting}

theorem Visit.Ready.after {v : Visit} (h : v.Ready programs) :
    (v.after setting).Safe programs := by
  have hsafe := safeLaw programs setting v.limit v.node v.site v.scope
    v.machine h.stands h.scope_lt h.store
  have hleaves : (v.outcome setting).Leaves (·.store.Safe programs) :=
    hsafe.imp (fun _ _ hdone => hdone.1) fun _ _ hfailed => hfailed.1
  exact Outcome.leaves_iff.mp hleaves

theorem ready_of_mem_rowVisits {site : Site} {scope : ScopeId}
    {eval : Nat → Node → Eval Value}
    (heval : SafeEvaluator programs site scope eval) {limit index : Nat}
    {nodes : List Node} {m : Machine} {x : Visit}
    (hrow : RowStands programs site index nodes)
    (hscope : scope < m.store.size) (hm : m.store.Safe programs)
    (hx : x ∈ rowVisits eval limit site scope index nodes m) :
    x.Ready programs := by
  induction nodes generalizing index m with
  | nil => exact absurd hx List.not_mem_nil
  | cons node rest ih =>
      unfold rowVisits at hx
      rcases List.mem_cons.mp hx with rfl | hx
      · exact ⟨hrow.head, hscope, hm⟩
      · have hsafe := heval index node m hrow.head hscope hm
        cases hnode : eval index node m with
        | done v m₁ =>
            rw [hnode] at hx hsafe
            obtain ⟨hm₁, hle, -⟩ := hsafe
            exact ih hrow.tail (Nat.lt_of_lt_of_le hscope hle) hm₁ hx
        | failed f m₁ =>
            rw [hnode] at hx
            exact absurd hx List.not_mem_nil

/-- A call enters a safe function in a scope that exists. -/
theorem safely_enterCall (setting : Setting) (limit : Nat) (name : String)
    {args : List Node} {site : Site} {scope : ScopeId} {m : Machine}
    (hargs : RowStands programs site 0 args) (hscope : scope < m.store.size) :
    Safely programs
      (fun entered size => ∀ c frame, entered = some (c, frame) →
        (Value.function c).Safe programs size ∧ frame < size)
      (enterCall setting limit (.identifier (.text name)) args site scope)
      m := by
  unfold enterCall
  refine .bind (safely_prepareCall (safeLaw programs setting limit) hargs
    hscope) ?_
  rintro ⟨f, vs⟩ m₁ _ ⟨hf, hvs⟩
  cases f with
  | function closure =>
      obtain ⟨-, params, hparams⟩ := hf.body
      refine .bind (safely_enterFunction setting scope hparams hvs)
        fun id m₂ hle hid => ?_
      refine .pure fun c frame heq => ?_
      cases heq
      exact ⟨hf.grow hle, hid⟩
  | _ => exact .pure fun c frame heq => nomatch heq

theorem Visit.Ready.operands {limit : Nat} {node : Node} {site : Site}
    {scope : ScopeId} {m : Machine} {x : Visit}
    (h : Visit.Ready programs ⟨limit + 1, node, site, scope, m⟩)
    (hx : x ∈ nestedVisits setting limit site scope node.operands m) :
    x.Ready programs := by
  have hrow := h.stands.children
  have hoperands : node.operands = node.children ∨ node.operands = [] := by
    cases node <;> first | exact Or.inl rfl | exact Or.inr rfl
  rcases hoperands with heq | heq
  · rw [heq] at hx
    exact ready_of_mem_rowVisits ((safeLaw programs setting limit).evaluator
      site scope) hrow h.scope_lt h.store hx
  · rw [heq] at hx
    exact absurd hx List.not_mem_nil

theorem Visit.Ready.body {limit : Nat} {callee : Node} {args : List Node}
    {site : Site} {scope : ScopeId} {m : Machine} {x : Visit}
    (h : Visit.Ready programs
      ⟨limit + 1, .call callee args, site, scope, m⟩)
    (hx : x ∈ bodyVisits setting limit callee args site scope m) :
    x.Ready programs := by
  obtain ⟨c, frame, m', henter, hbody⟩ := mem_bodyVisits hx
  obtain ⟨name, rfl⟩ : ∃ name, callee = .identifier (.text name) := by
    cases h.stands.isStatement with
    | expression he =>
        cases he with
        | call _ _ => exact ⟨_, rfl⟩
  have hargs : RowStands programs site 0 args := h.stands.children
  have hscope : scope < m.store.size := h.scope_lt
  have hsafe := safely_enterCall setting limit name hargs hscope h.store
  rw [henter] at hsafe
  obtain ⟨hm', -, hentered⟩ := hsafe
  obtain ⟨hf, hframe⟩ := hentered c frame rfl
  exact ready_of_mem_rowVisits ((safeLaw programs setting limit).evaluator
    c.site frame) hf.body.1 hframe hm' hbody

theorem Visit.Ready.part {v x : Visit} (h : v.Ready programs)
    (hx : x ∈ v.parts setting) : x.Ready programs := by
  obtain ⟨limit, node, site, scope, m⟩ := v
  cases limit with
  | zero => exact absurd hx List.not_mem_nil
  | succ limit =>
      rcases List.mem_append.mp hx with hx | hx
      · exact h.operands hx
      · cases node with
        | call callee args => exact h.body hx
        | _ => exact absurd hx List.not_mem_nil

/-- Safety holds all the way down. -/
theorem Visit.Ready.of_visits {v b : Visit} (h : v.Ready programs)
    (hb : Visits setting v b) : b.Ready programs := by
  induction hb with
  | refl v => exact h
  | part hx _ ih => exact ih (h.part hx)

end

end Scriptlet
