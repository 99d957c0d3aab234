import Scriptlet.Proofs.Frame
import Scriptlet.Proofs.WellFormed

/-!
# The evaluations within an evaluation

Evaluating a node evaluates others on the way: operands, arguments, and the
statements of the functions that are called. A `Visit` is one such
evaluation with the state it starts from, and `Visit.parts` lists those that
an evaluation makes directly, in the order in which they are made. `Visits`
follows the parts down, so it reaches every evaluation of a run, and
`Follows` orders the evaluations of a run in time: the first has ended when
the second begins.

The stores of an evaluation and of its parts are related by frames
(`partOf_of_mem_parts`, `pairwise_parts`). Every part works in the scope of the
whole or in one that is new, so the scopes that an evaluation has created
are settled as soon as it ends: nothing that follows it in the run changes
them any more (`Follows.settled`).
-/

namespace Scriptlet

structure Visit where
  limit : Nat
  node : Node
  site : Site
  scope : ScopeId
  machine : Machine

namespace Visit

def outcome (setting : Setting) (v : Visit) : Outcome Fault Machine Value :=
  evaluate setting v.limit v.node v.site v.scope v.machine

def before (v : Visit) : Store := v.machine.store

/-- The scopes when the evaluation has ended, with a value or not. -/
def after (setting : Setting) (v : Visit) : Store :=
  (v.outcome setting).state.store

/-- The scopes that the evaluation added: the frames of its calls. -/
def Created (setting : Setting) (v : Visit) (id : ScopeId) : Prop :=
  v.before.size ≤ id ∧ id < (v.after setting).size

end Visit

/-! ## Rows -/

/-- The evaluations of a row of nodes, each from the state that the one
before it left. Behind a failure there are none. -/
def rowVisits (eval : Nat → Node → Eval Value) (limit : Nat) (site : Site)
    (scope : ScopeId) : Nat → List Node → Machine → List Visit
  | _, [], _ => []
  | index, node :: rest, m =>
    ⟨limit, node, site.child index, scope, m⟩ ::
      match eval index node m with
      | .done _ m' => rowVisits eval limit site scope (index + 1) rest m'
      | .failed _ _ => []

section

variable {setting : Setting} {limit : Nat} {site : Site} {scope : ScopeId}
  {eval : Nat → Node → Eval Value}

/-- The evaluator of a row evaluates its nodes in one scope; what it does
besides does not touch the scopes. -/
def EvaluatesIn (setting : Setting) (limit : Nat) (site : Site)
    (scope : ScopeId) (eval : Nat → Node → Eval Value) : Prop :=
  ∀ i node m, (eval i node m).state.store =
    Visit.after setting ⟨limit, node, site.child i, scope, m⟩

theorem frame_visit (setting : Setting) (v : Visit) :
    Store.Frame v.scope v.node.Binds v.before (v.after setting) :=
  Outcome.leaves_iff.mp (frameLaw setting v.limit v.node v.site v.scope _)

theorem EvaluatesIn.frame (h : EvaluatesIn setting limit site scope eval)
    (i : Nat) (node : Node) (m : Machine) :
    Store.Frame scope (fun _ => True) m.store
      (eval i node m).state.store := by
  rw [h]
  exact (frame_visit setting ⟨limit, node, site.child i, scope, m⟩).weaken
    fun _ _ => trivial

theorem rowVisits_before (heval : EvaluatesIn setting limit site scope eval)
    {index : Nat} {nodes : List Node} {m : Machine} {x : Visit}
    (hx : x ∈ rowVisits eval limit site scope index nodes m) :
    x.scope = scope ∧ Store.Frame scope (fun _ => True) m.store x.before := by
  induction nodes generalizing index m with
  | nil => exact absurd hx List.not_mem_nil
  | cons node rest ih =>
      unfold rowVisits at hx
      rcases List.mem_cons.mp hx with rfl | hx
      · exact ⟨rfl, .refl _ _ _⟩
      · have hframe := heval.frame index node m
        cases hnode : eval index node m with
        | done v m₁ =>
            rw [hnode] at hx hframe
            obtain ⟨hscope, hrest⟩ := ih hx
            exact ⟨hscope, hframe.trans hrest⟩
        | failed f m₁ =>
            rw [hnode] at hx
            exact absurd hx List.not_mem_nil

theorem frame_evalEach (heval : EvaluatesIn setting limit site scope eval)
    (index : Nat) (nodes : List Node) (m : Machine) :
    Store.Frame scope (fun _ => True) m.store
      (evalEach eval index nodes m).state.store :=
  Outcome.leaves_iff.mp (Within.evalEach (fun node _ i m =>
    Outcome.leaves_iff.mpr (heval.frame i node m)) index m)

theorem evalEach_state_of_done {node : Node} {rest : List Node} {v : Value}
    {index : Nat} {m m₁ : Machine} (h : eval index node m = .done v m₁) :
    (evalEach eval index (node :: rest) m).state =
      (evalEach eval (index + 1) rest m₁).state := by
  rw [evalEach, Step.bind_apply, h]
  dsimp only
  rw [Step.bind_apply]
  cases evalEach eval (index + 1) rest m₁ <;> rfl

theorem evalEach_state_of_failed {node : Node} {rest : List Node} {f : Fault}
    {index : Nat} {m m₁ : Machine} (h : eval index node m = .failed f m₁) :
    (evalEach eval index (node :: rest) m).state = m₁ := by
  rw [evalEach, Step.bind_apply, h]
  rfl

theorem rowVisits_after (heval : EvaluatesIn setting limit site scope eval)
    {index : Nat} {nodes : List Node} {m : Machine} {x : Visit}
    (hx : x ∈ rowVisits eval limit site scope index nodes m) :
    Store.Frame scope (fun _ => True) (x.after setting)
      (evalEach eval index nodes m).state.store := by
  induction nodes generalizing index m with
  | nil => exact absurd hx List.not_mem_nil
  | cons node rest ih =>
      unfold rowVisits at hx
      have hafter := heval index node m
      cases hnode : eval index node m with
      | done v m₁ =>
          rw [evalEach_state_of_done hnode]
          rw [hnode] at hx hafter
          rcases List.mem_cons.mp hx with rfl | hx
          · rw [← hafter]
            exact frame_evalEach heval (index + 1) rest m₁
          · exact ih hx
      | failed f m₁ =>
          rw [evalEach_state_of_failed hnode]
          rw [hnode] at hx hafter
          rcases List.mem_cons.mp hx with rfl | hx
          · rw [← hafter]
            exact .refl _ _ _
          · exact absurd hx List.not_mem_nil

/-- Two parts of one evaluation, in the order of time: the second begins
with the scopes that the first left, but for the scope of the first, and
does not work in one that the first created. -/
def Precedes (setting : Setting) (x y : Visit) : Prop :=
  Store.Frame x.scope (fun _ => True) (x.after setting) y.before ∧
    (y.scope = x.scope ∨ (x.after setting).size ≤ y.scope)

theorem rowVisits_pairwise
    (heval : EvaluatesIn setting limit site scope eval) (index : Nat)
    (nodes : List Node) (m : Machine) :
    (rowVisits eval limit site scope index nodes m).Pairwise
      (Precedes setting) := by
  induction nodes generalizing index m with
  | nil => exact .nil
  | cons node rest ih =>
      unfold rowVisits
      refine List.Pairwise.cons ?_ ?_
      · intro y hy
        have hafter := heval index node m
        cases hnode : eval index node m with
        | done v m₁ =>
            rw [hnode] at hy hafter
            obtain ⟨hscope, hframe⟩ := rowVisits_before heval hy
            refine ⟨?_, Or.inl hscope⟩
            rw [← hafter]
            exact hframe
        | failed f m₁ =>
            rw [hnode] at hy
            exact absurd hy List.not_mem_nil
      · cases eval index node m with
        | done v m₁ => exact ih (index + 1) m₁
        | failed f m₁ => exact .nil

end

/-- The two ways of evaluating a row end in the same state. -/
theorem evalLast_state (eval : Nat → Node → Eval Value) (index : Nat)
    (last : Value) (nodes : List Node) (m : Machine) :
    (evalLast eval index last nodes m).state =
      (evalEach eval index nodes m).state := by
  induction nodes generalizing index last m with
  | nil => rfl
  | cons node rest ih =>
      rw [evalLast, Step.bind_apply]
      cases hnode : eval index node m with
      | done v m₁ =>
          rw [evalEach_state_of_done hnode]
          exact ih (index + 1) v m₁
      | failed f m₁ =>
          rw [evalEach_state_of_failed hnode]
          rfl

/-! ## Parts -/

/-- The nodes that are evaluated first, in the scope at hand. -/
def Node.operands : Node → List Node
  | .binary _ left right => [left, right]
  | .assign _ value => [value]
  | .call _ args => args
  | _ => []

def nestedVisits (setting : Setting) (limit : Nat) (site : Site)
    (scope : ScopeId) (nodes : List Node) (m : Machine) : List Visit :=
  rowVisits (fun i node => evaluate setting limit node (site.child i) scope)
    limit site scope 0 nodes m

/-- A call up to the body of the function: the function and the scope that
was made for the call, or nothing when another value is called. -/
def enterCall (setting : Setting) (limit : Nat) (callee : Node)
    (args : List Node) (site : Site) (scope : ScopeId) :
    Eval (Option (Closure × ScopeId)) := do
  let call ← prepareCall setting limit callee args site scope
  match call.1 with
  | .function c => do
    let frame ← enterFunction setting c call.2 scope
    return some (c, frame)
  | _ => return none

def bodyVisits (setting : Setting) (limit : Nat) (callee : Node)
    (args : List Node) (site : Site) (scope : ScopeId) (m : Machine) :
    List Visit :=
  match enterCall setting limit callee args site scope m with
  | .done (some (c, frame)) m' =>
    nestedVisits setting limit c.site frame c.body m'
  | _ => []

/-- The evaluations that an evaluation makes itself, in their order. -/
def Visit.parts (setting : Setting) (v : Visit) : List Visit :=
  match v.limit with
  | 0 => []
  | limit + 1 =>
    nestedVisits setting limit v.site v.scope v.node.operands v.machine ++
      match v.node with
      | .call callee args =>
        bodyVisits setting limit callee args v.site v.scope v.machine
      | _ => []

namespace Visit

/-- The parts of an evaluation that are made in its own scope. -/
def operandParts (setting : Setting) (v : Visit) : List Visit :=
  match v.limit with
  | 0 => []
  | limit + 1 =>
    nestedVisits setting limit v.site v.scope v.node.operands v.machine

/-- The parts of an evaluation that are statements of the function that it
calls. -/
def bodyParts (setting : Setting) (v : Visit) : List Visit :=
  match v.limit, v.node with
  | limit + 1, .call callee args =>
    bodyVisits setting limit callee args v.site v.scope v.machine
  | _, _ => []

theorem parts_eq (setting : Setting) (v : Visit) :
    v.parts setting = v.operandParts setting ++ v.bodyParts setting := by
  obtain ⟨limit, node, site, scope, m⟩ := v
  cases limit with
  | zero => rfl
  | succ limit => cases node <;> rfl

theorem mem_parts {setting : Setting} {v x : Visit} :
    x ∈ v.parts setting ↔
      x ∈ v.operandParts setting ∨ x ∈ v.bodyParts setting := by
  rw [parts_eq, List.mem_append]

end Visit

/-- The evaluation is a call that has entered a function, with this scope
for the call. -/
def Visit.Enters (setting : Setting) (v : Visit) (c : Closure)
    (frame : ScopeId) (m : Machine) : Prop :=
  ∃ limit callee args, v.limit = limit + 1 ∧ v.node = .call callee args ∧
    enterCall setting limit callee args v.site v.scope v.machine =
      .done (some (c, frame)) m

section

variable {setting : Setting} {limit : Nat} {site : Site} {scope : ScopeId}

theorem evaluatesIn_evaluate : EvaluatesIn setting limit site scope
    fun i node => evaluate setting limit node (site.child i) scope :=
  fun _ _ _ => rfl

theorem Within.frame_bind {α β : Type} {step : Eval α} {next : α → Eval β}
    {m : Machine}
    (hnext : ∀ a m', Within scope (fun _ => True) (next a) m') :
    Store.Frame scope (fun _ => True) (step m).state.store
      ((step >>= next) m).state.store := by
  rw [Step.bind_apply]
  cases step m with
  | done a m₁ => exact Outcome.leaves_iff.mp (hnext a m₁)
  | failed f m₁ => exact .refl _ _ _

/-- Every evaluation begins with its operands, and what it does behind them
stays within the frame. -/
theorem frame_operands (node : Node) (m : Machine) :
    Store.Frame scope (fun _ => True)
      (evalArgs setting limit node.operands site scope m).state.store
      (evaluate setting (limit + 1) node site scope m).state.store := by
  have hlaw := (frame_visit setting
    ⟨limit + 1, node, site, scope, m⟩).weaken fun _ _ => trivial
  cases node with
  | binary operator left right =>
      simp only [evaluate, evalArgs, Node.operands, evalEach, Step.bind_apply,
        Step.pure_apply]
      cases evaluate setting limit left (site.child 0) scope m with
      | failed f m₁ => exact .refl _ _ _
      | done a m₁ =>
          dsimp only
          cases evaluate setting limit right (site.child 1) scope m₁ with
          | failed f m₂ => exact .refl _ _ _
          | done b m₂ =>
              dsimp only
              cases applyOperator operator a b <;> exact .refl _ _ _
  | assign json value =>
      have hstate : (evalArgs setting limit [value] site scope m).state =
          (evaluate setting limit value (site.child 0) scope m).state := by
        simp only [evalArgs, evalEach, Step.bind_apply, Step.pure_apply]
        cases evaluate setting limit value (site.child 0) scope m <;> rfl
      rw [evaluate, Node.operands, hstate]
      refine Within.frame_bind fun v m₁ => ?_
      refine .nameOf_bind fun name _ => ?_
      refine .bind (.bindName v trivial) fun _ m₂ => ?_
      refine .bind (.of_store_eq rfl) fun m₃ _ => ?_
      exact .bind (.record setting 2 _) fun _ _ => .pure v
  | call callee args =>
      rw [evaluate_call, prepareCall, Step.bind_assoc]
      refine Within.frame_bind fun vs m₁ => ?_
      refine .bind (within_resolve setting callee vs scope _ m₁)
        fun call m₂ => ?_
      exact within_callAndLeave (frameLaw setting limit) call scope _ m₂
  | _ => exact hlaw

theorem of_prepareCall {callee : Node} {args : List Node} {m m' : Machine}
    {call : Value × List Value}
    (h : prepareCall setting limit callee args site scope m =
      .done call m') :
    ∃ m₁, evalArgs setting limit args site scope m = .done call.2 m₁ ∧
      m'.store = m₁.store := by
  obtain ⟨vs, m₁, hargs, hrest⟩ := Step.bind_eq_done_iff.mp h
  obtain ⟨f, m₂, hcallee, hrest⟩ := Step.bind_eq_done_iff.mp hrest
  obtain ⟨_, m₃, hrecord, hdone⟩ := Step.bind_eq_done_iff.mp hrest
  obtain rfl : m₂ = m₁ := (leaves_resolveCallee callee scope m₁).of_done hcallee
  cases hdone
  exact ⟨m₂, hargs, (Eval.leaves_record setting 3 _ m₂).of_done hrecord⟩

/-- How a call enters a function: behind its arguments it makes the next
scope, and then it is the body that decides how the stores end. -/
theorem of_enterCall {callee : Node} {args : List Node} {m m' : Machine}
    {c : Closure} {frame : ScopeId}
    (h : enterCall setting limit callee args site scope m =
      .done (some (c, frame)) m') :
    ∃ vs m₁, evalArgs setting limit args site scope m = .done vs m₁ ∧
      frame = m₁.store.size ∧ frame < m'.store.size ∧
      Store.Frame frame (fun _ => True) m₁.store m'.store ∧
      Visit.after setting ⟨limit + 1, .call callee args, site, scope, m⟩ =
        (runBody setting limit c frame m').state.store := by
  obtain ⟨⟨f, vs⟩, m₂, hprepare, h⟩ := Step.bind_eq_done_iff.mp h
  obtain ⟨m₁, hargs, h₂⟩ := of_prepareCall hprepare
  cases f with
  | function closure =>
      obtain ⟨id, m₃, henter, h⟩ := Step.bind_eq_done_iff.mp h
      cases h
      have hnew := ensures_enterFunction setting c vs scope m₂
      rw [henter] at hnew
      obtain ⟨rfl, hlt, hframe⟩ := hnew
      rw [h₂] at hframe hlt henter ⊢
      refine ⟨vs, m₁, hargs, rfl, hlt, hframe, ?_⟩
      unfold Visit.after Visit.outcome
      rw [evaluate_call]
      simp only [Step.bind_apply, hprepare, callValue, henter]
      cases runBody setting limit c m₁.store.size m' with
      | failed f m₄ => rfl
      | done v m₄ => exact Eval.store_record_return setting 3 _ v m₄
  | _ => cases h

/-- How the stores and scopes of an evaluation and of a part of it are
related. -/
structure PartOf (setting : Setting) (v x : Visit) : Prop where
  scope : x.scope = v.scope ∨
    v.before.size ≤ x.scope ∧ x.scope < x.before.size
  before : Store.Frame v.scope (fun _ => True) v.before x.before
  after : Store.Frame x.scope (fun _ => True) (x.after setting)
    (v.after setting)

theorem partOf_operand {node : Node} {m : Machine} {x : Visit}
    (hx : x ∈ nestedVisits setting limit site scope node.operands m) :
    PartOf setting ⟨limit + 1, node, site, scope, m⟩ x := by
  obtain ⟨hscope, hbefore⟩ := rowVisits_before evaluatesIn_evaluate hx
  have hafter := rowVisits_after evaluatesIn_evaluate hx
  refine ⟨Or.inl hscope, hbefore, ?_⟩
  rw [hscope]
  exact hafter.trans (frame_operands node m)

theorem mem_bodyVisits {callee : Node} {args : List Node} {m : Machine}
    {x : Visit}
    (hx : x ∈ bodyVisits setting limit callee args site scope m) :
    ∃ c frame m', enterCall setting limit callee args site scope m =
        .done (some (c, frame)) m' ∧
      x ∈ nestedVisits setting limit c.site frame c.body m' := by
  unfold bodyVisits at hx
  split at hx
  · rename_i c frame m' henter
    exact ⟨c, frame, m', henter, hx⟩
  · exact absurd hx List.not_mem_nil

theorem frame_evalArgs (setting : Setting) (limit : Nat) (args : List Node)
    (site : Site) (scope : ScopeId) (m : Machine) :
    Store.Frame scope (fun _ => True) m.store
      (evalArgs setting limit args site scope m).state.store :=
  frame_evalEach evaluatesIn_evaluate 0 args m

theorem partOf_body {callee : Node} {args : List Node} {m : Machine}
    {x : Visit}
    (hx : x ∈ bodyVisits setting limit callee args site scope m) :
    PartOf setting ⟨limit + 1, .call callee args, site, scope, m⟩ x := by
  obtain ⟨c, frame, m', henter, hx⟩ := mem_bodyVisits hx
  obtain ⟨vs, m₁, hargs, rfl, hlt, hframe, hstore⟩ := of_enterCall henter
  obtain ⟨hscope, hbefore⟩ := rowVisits_before evaluatesIn_evaluate hx
  have hafter := rowVisits_after evaluatesIn_evaluate hx
  have hm₁ := frame_evalArgs setting limit args site scope m
  rw [hargs] at hm₁
  refine ⟨Or.inr ⟨?_, ?_⟩, ?_, ?_⟩
  · rw [hscope]
    exact hm₁.size_le
  · rw [hscope]
    exact Nat.lt_of_lt_of_le hlt hbefore.size_le
  · exact hm₁.trans_fresh (hframe.trans hbefore) hm₁.size_le
  · rw [hscope, hstore, runBody, evalLast_state]
    exact hafter

theorem partOf_of_mem_parts {v x : Visit} (hx : x ∈ v.parts setting) :
    PartOf setting v x := by
  obtain ⟨limit, node, site, scope, m⟩ := v
  cases limit with
  | zero => exact absurd hx List.not_mem_nil
  | succ limit =>
      rcases List.mem_append.mp hx with hx | hx
      · exact partOf_operand hx
      · cases node with
        | call callee args => exact partOf_body hx
        | _ => exact absurd hx List.not_mem_nil

theorem operand_precedes_body {callee : Node} {args : List Node}
    {m : Machine} {x y : Visit}
    (hx : x ∈ nestedVisits setting limit site scope args m)
    (hy : y ∈ bodyVisits setting limit callee args site scope m) :
    Precedes setting x y := by
  obtain ⟨c, frame, m', henter, hy⟩ := mem_bodyVisits hy
  obtain ⟨vs, m₁, hargs, rfl, hlt, hframe, -⟩ := of_enterCall henter
  obtain ⟨hscope, -⟩ := rowVisits_before evaluatesIn_evaluate hx
  have hafter : Store.Frame scope (fun _ => True) (x.after setting)
      (evalArgs setting limit args site scope m).state.store :=
    rowVisits_after evaluatesIn_evaluate hx
  rw [hargs] at hafter
  obtain ⟨hscope', hbefore⟩ := rowVisits_before evaluatesIn_evaluate hy
  refine ⟨?_, Or.inr ?_⟩
  · rw [hscope]
    exact hafter.trans_fresh (hframe.trans hbefore) hafter.size_le
  · rw [hscope']
    exact hafter.size_le

theorem pairwise_parts (v : Visit) :
    (v.parts setting).Pairwise (Precedes setting) := by
  obtain ⟨limit, node, site, scope, m⟩ := v
  cases limit with
  | zero => exact .nil
  | succ limit =>
      refine List.pairwise_append.mpr
        ⟨rowVisits_pairwise evaluatesIn_evaluate 0 node.operands m, ?_, ?_⟩
      · cases node with
        | call callee args =>
            dsimp only [bodyVisits]
            split
            · exact rowVisits_pairwise evaluatesIn_evaluate 0 _ _
            · exact .nil
        | _ => exact .nil
      · intro x hx y hy
        cases node with
        | call callee args => exact operand_precedes_body hx hy
        | _ => exact absurd hy List.not_mem_nil

end

/-! ## Evaluations of a run -/

/-- The evaluations that are made within an evaluation, itself included. -/
inductive Visits (setting : Setting) : Visit → Visit → Prop
  | refl (v : Visit) : Visits setting v v
  | part {v x b : Visit} : x ∈ v.parts setting → Visits setting x b →
      Visits setting v b

theorem limit_of_mem_rowVisits {eval : Nat → Node → Eval Value} {limit : Nat}
    {site : Site} {scope : ScopeId} {index : Nat} {nodes : List Node}
    {m : Machine} {x : Visit}
    (hx : x ∈ rowVisits eval limit site scope index nodes m) :
    x.limit = limit := by
  induction nodes generalizing index m with
  | nil => exact absurd hx List.not_mem_nil
  | cons node rest ih =>
      unfold rowVisits at hx
      rcases List.mem_cons.mp hx with rfl | hx
      · rfl
      · split at hx
        · exact ih hx
        · exact absurd hx List.not_mem_nil

theorem limit_of_mem_parts {setting : Setting} {v x : Visit}
    (hx : x ∈ v.parts setting) : v.limit = x.limit + 1 := by
  obtain ⟨limit, node, site, scope, m⟩ := v
  cases limit with
  | zero => exact absurd hx List.not_mem_nil
  | succ limit =>
      rcases List.mem_append.mp hx with hx | hx
      · rw [limit_of_mem_rowVisits hx]
      · cases node with
        | call callee args =>
            obtain ⟨c, frame, m', -, hx⟩ := mem_bodyVisits hx
            rw [limit_of_mem_rowVisits hx]
        | _ => exact absurd hx List.not_mem_nil

/-- What holds of an evaluation if it holds of its parts holds of all. -/
theorem Visit.induction (setting : Setting) {p : Visit → Prop}
    (h : ∀ v, (∀ x ∈ v.parts setting, p x) → p v) (v : Visit) : p v := by
  induction hlimit : v.limit generalizing v with
  | zero =>
      refine h v fun x hx => ?_
      have := limit_of_mem_parts hx
      omega
  | succ limit ih =>
      refine h v fun x hx => ih x ?_
      have := limit_of_mem_parts hx
      omega

/-- The evaluations within an evaluation, as deep as they nest. -/
def Visit.within (setting : Setting) : Nat → Visit → List Visit
  | 0, v => [v]
  | depth + 1, v => v :: (v.parts setting).flatMap (within setting depth)

theorem Visits.mem_within {setting : Setting} {v b : Visit}
    (h : Visits setting v b) {depth : Nat} (hdepth : v.limit ≤ depth) :
    b ∈ v.within setting depth := by
  induction h generalizing depth with
  | refl v => cases depth <;> exact List.mem_cons_self
  | part hx _ ih =>
      have hlimit := limit_of_mem_parts hx
      obtain ⟨depth, rfl⟩ : ∃ d, depth = d + 1 := ⟨depth - 1, by omega⟩
      exact List.mem_cons_of_mem _
        (List.mem_flatMap.mpr ⟨_, hx, ih (by omega)⟩)

/-- Within `root`, the evaluation `b` has ended when `c` begins: they are
made in two parts of one evaluation. -/
def Follows (setting : Setting) (root b c : Visit) : Prop :=
  ∃ d x y, Visits setting root d ∧ [x, y].Sublist (d.parts setting) ∧
    Visits setting x b ∧ Visits setting y c

section

variable {setting : Setting} {v x b c : Visit} {id : ScopeId}

theorem PartOf.scope_lt (h : PartOf setting v x)
    (hv : v.scope < v.before.size) : x.scope < x.before.size := by
  rcases h.scope with hscope | ⟨-, hlt⟩
  · rw [hscope]
    exact Nat.lt_of_lt_of_le hv h.before.size_le
  · exact hlt

/-- An evaluation works in a scope that exists. -/
theorem Visits.scope_lt (h : Visits setting v b)
    (hv : v.scope < v.before.size) : b.scope < b.before.size := by
  induction h with
  | refl v => exact hv
  | part hx _ ih => exact ih ((partOf_of_mem_parts hx).scope_lt hv)

/-- What an evaluation within `v` created is as it left it when `v`
ends. -/
theorem Visits.created (h : Visits setting v b)
    (hv : v.scope < v.before.size) (hid : b.Created setting id) :
    v.Created setting id ∧
      (v.after setting).scope? id = (b.after setting).scope? id := by
  induction h with
  | refl v => exact ⟨hid, rfl⟩
  | part hx _ ih =>
      have hpart := partOf_of_mem_parts hx
      have hscope := hpart.scope_lt hv
      obtain ⟨⟨hle, hlt⟩, heq⟩ := ih hscope hid
      refine ⟨⟨Nat.le_trans hpart.before.size_le hle,
        Nat.lt_of_lt_of_le hlt hpart.after.size_le⟩, ?_⟩
      rw [← heq]
      exact hpart.after.others id hlt
        (Nat.ne_of_gt (Nat.lt_of_lt_of_le hscope hle))

/-- A scope that was there when `v` began, and is not the one that `v`
works in, is the same at the begin and at the end of everything within
`v`. -/
theorem Visits.kept (h : Visits setting v b) (hid : id < v.before.size)
    (hne : id ≠ v.scope) :
    b.before.scope? id = v.before.scope? id ∧
      (b.after setting).scope? id = v.before.scope? id := by
  induction h with
  | refl v => exact ⟨rfl, (frame_visit setting v).others id hid hne⟩
  | part hx _ ih =>
      have hpart := partOf_of_mem_parts hx
      rw [← hpart.before.others id hid hne]
      refine ih (Nat.lt_of_lt_of_le hid hpart.before.size_le) ?_
      rcases hpart.scope with hscope | ⟨hle, -⟩
      · rw [hscope]
        exact hne
      · exact Nat.ne_of_lt (Nat.lt_of_lt_of_le hid hle)

/-- The scopes that an evaluation created are settled when it has ended:
all that follows finds them as they are and leaves them so. -/
theorem Follows.settled {root : Visit} (h : Follows setting root b c)
    (hroot : root.scope < root.before.size) (hid : b.Created setting id) :
    c.before.scope? id = (b.after setting).scope? id ∧
      (c.after setting).scope? id = (b.after setting).scope? id := by
  obtain ⟨d, x, y, hd, hsub, hxb, hyc⟩ := h
  have hscope := (partOf_of_mem_parts (hsub.subset List.mem_cons_self)).scope_lt
    (hd.scope_lt hroot)
  obtain ⟨⟨hle, hlt⟩, heq⟩ := hxb.created hscope hid
  obtain ⟨hframe, hnext⟩ :=
    List.pairwise_iff_forall_sublist.mp (pairwise_parts d) hsub
  -- Neither part works in the scope: the first was in an older one when it
  -- made this, and the second goes on there or in a newer one.
  have hne : id ≠ x.scope := Nat.ne_of_gt (Nat.lt_of_lt_of_le hscope hle)
  have hne' : id ≠ y.scope := by
    rcases hnext with hsame | hnew
    · rw [hsame]
      exact hne
    · exact Nat.ne_of_lt (Nat.lt_of_lt_of_le hlt hnew)
  rw [← heq, ← hframe.others id hlt hne]
  exact hyc.kept (Nat.lt_of_lt_of_le hlt hframe.size_le) hne'

/-- The scope of a call is one that the call created. -/
theorem Visit.Enters.created {closure : Closure} {frame : ScopeId}
    {m : Machine} (h : v.Enters setting closure frame m) :
    v.Created setting frame := by
  obtain ⟨limit, node, site, scope, machine⟩ := v
  obtain ⟨limit, callee, args, rfl, rfl, henter⟩ := h
  obtain ⟨vs, m₁, hargs, rfl, hlt, -, hstore⟩ := of_enterCall henter
  have hm₁ := frame_evalArgs setting limit args site scope machine
  rw [hargs] at hm₁
  refine ⟨hm₁.size_le, ?_⟩
  have hbody := Outcome.leaves_iff.mp
    (within_runBody (frameLaw setting limit) closure m₁.store.size m)
  rw [hstore]
  exact Nat.lt_of_lt_of_le hlt hbody.size_le

end

/-! ## The frame law -/

/-- A parsed expression binds nothing. -/
theorem IsExpression.not_binds {e : Node} (h : IsExpression e)
    (name : Name) : ¬ e.Binds name := by
  induction h with
  | number _ => exact fun hbinds => nomatch hbinds
  | identifier _ => exact fun hbinds => nomatch hbinds
  | binary _ _ _ ihleft ihright =>
      intro hbinds
      cases hbinds with
      | left h => exact ihleft h
      | right h => exact ihright h
  | call _ _ ih =>
      intro hbinds
      cases hbinds with
      | callee h => exact nomatch h
      | argument harg h => exact ih _ harg h

/-- What an evaluation leaves as it is, whether it returns or fails. -/
structure Visit.KeepsScopes (setting : Setting) (v : Visit) : Prop where
  /-- The scopes that were there, but for the one at hand. -/
  others : ∀ id, id < v.before.size → id ≠ v.scope →
    (v.after setting).scope? id = v.before.scope? id
  /-- In the scope at hand, its parent and the names that the node does not
  bind. -/
  here : ∃ old new, v.before.scope? v.scope = some old ∧
    (v.after setting).scope? v.scope = some new ∧
    new.parent = old.parent ∧
    ∀ name, ¬ v.node.Binds name → new.get? name = old.get? name
  /-- Every scope that was there, if the node is a parsed expression. -/
  expression : IsExpression v.node → ∀ id, id < v.before.size →
    (v.after setting).scope? id = v.before.scope? id
  /-- The scope of each call within the evaluation, from the end of that
  call on. -/
  calls : ∀ call closure frame entered, Visits setting v call →
    call.Enters setting closure frame entered →
    call.Created setting frame ∧
    (v.after setting).scope? frame = (call.after setting).scope? frame ∧
    ∀ later, Follows setting v call later →
      later.before.scope? frame = (call.after setting).scope? frame ∧
      (later.after setting).scope? frame = (call.after setting).scope? frame

theorem Store.exists_scope {store : Store} {id : ScopeId}
    (h : id < store.size) : ∃ scope, store.scope? id = some scope :=
  ⟨_, Array.getElem?_eq_getElem h⟩

/-- Evaluating a node in a scope that exists changes nothing in the scopes
but the names that the node binds in this one. -/
theorem evaluation_keeps_scopes (setting : Setting) (v : Visit)
    (hscope : v.scope < v.before.size) : v.KeepsScopes setting := by
  have hframe := frame_visit setting v
  refine ⟨hframe.others, ?_, ?_, ?_⟩
  · obtain ⟨old, hold⟩ := Store.exists_scope hscope
    obtain ⟨bindings, hbindings, hnew⟩ := hframe.here hscope
    rw [hold] at hnew
    refine ⟨old, old.write bindings, hold, hnew, old.parent_write bindings, ?_⟩
    intro name hname
    refine Scope.get?_write fun b hb heq => hname ?_
    rw [← heq]
    exact hbindings b hb
  · intro hexp id hid
    exact hframe.scope?_eq hexp.not_binds hid
  · intro call closure frame entered hcall henters
    have hcreated := henters.created
    refine ⟨hcreated, (hcall.created hscope hcreated).2, ?_⟩
    intro later hlater
    exact hlater.settled hscope hcreated

def tracedSetting : Setting := ⟨true, 3, 10, []⟩

/-- A global scope with a function `make`, which returns a function that it
defines in the scope of the call. -/
def makerMachine : Machine :=
  { Machine.initial true [] with
    store := Store.initial.set Machine.globalScope (.text "make")
      (.function ⟨.text "make", [], [.define (.text "inner") [] []],
        Machine.globalScope, ⟨0, [0]⟩⟩) }

def makerCall : Node := .call (.identifier (.text "make")) []

/-- The sum of two calls of `make`, which fails when both have returned. -/
def makerSum : Visit :=
  ⟨10, .binary (.text "+") makerCall makerCall, ⟨1, [0]⟩,
    Machine.globalScope, makerMachine⟩

/-- The two calls of the sum make a scope each, to which the functions that
they return still refer; the first is as the first call left it when the
second begins and ends, and when the sum fails. -/
theorem failing_sum_keeps_scopes :
    makerSum.scope < makerSum.before.size ∧
    makerSum.KeepsScopes tracedSetting ∧
    makerSum.before.size = 1 ∧ (makerSum.after tracedSetting).size = 3 ∧
    ∃ call later closure frame entered,
      Visits tracedSetting makerSum call ∧
      call.Enters tracedSetting closure frame entered ∧
      Follows tracedSetting makerSum call later := by
  have hscope : makerSum.scope < makerSum.before.size := by decide
  refine ⟨hscope, evaluation_keeps_scopes tracedSetting makerSum hscope,
    rfl, by cbv, ?_⟩
  -- The first call is known as it stands; the second begins in the state
  -- that the first left, so it is only known to be there.
  let first : Visit :=
    ⟨9, makerCall, ⟨1, [0, 0]⟩, Machine.globalScope, makerMachine⟩
  have htail : (makerSum.parts tracedSetting).tail.length = 1 := by cbv
  have hbody : (bodyVisits tracedSetting 8 (.identifier (.text "make")) []
      ⟨1, [0, 0]⟩ Machine.globalScope makerMachine).length = 1 := by cbv
  obtain ⟨second, htail⟩ := List.length_eq_one_iff.mp htail
  obtain ⟨inner, hinner⟩ := List.length_eq_one_iff.mp hbody
  obtain ⟨closure, frame, entered, henter, -⟩ :=
    mem_bodyVisits (hinner ▸ List.mem_singleton_self inner)
  have hparts : makerSum.parts tracedSetting = [first, second] :=
    congrArg (first :: ·) htail
  refine ⟨first, second, closure, frame, entered, ?_, ?_, ?_⟩
  · exact .part (hparts ▸ List.mem_cons_self) (.refl first)
  · exact ⟨8, _, _, rfl, rfl, henter⟩
  · exact ⟨makerSum, first, second, .refl _, hparts ▸ List.Sublist.refl _,
      .refl first, .refl second⟩

end Scriptlet
