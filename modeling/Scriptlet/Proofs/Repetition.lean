import Scriptlet.Proofs.Appending
import Scriptlet.Proofs.Atomicity
import Scriptlet.Proofs.ScopeRenaming

/-!
# Evaluating an expression again

The evaluation of an expression may run any number of calls, in which names
are bound and functions are defined, but all of that happens in scopes of its
own. So when it is evaluated again, the scopes that were there the first time
are as they were, and those of the first time's calls are in nobody's way:
the second evaluation has other numbers for its scopes, and that is all
(`expressions_repeat`), as long as there is the same input to read.
-/

namespace Scriptlet

/-! ## Sites of expressions -/

theorem evalEach_congr {eval eval' : Nat → Node → Eval Value}
    {nodes : List Node} (h : ∀ node ∈ nodes, ∀ i, eval i node = eval' i node)
    (index : Nat) : evalEach eval index nodes = evalEach eval' index nodes := by
  induction nodes generalizing index with
  | nil => rfl
  | cons node rest ih =>
      obtain ⟨hnode, hrest⟩ := List.forall_mem_cons.mp h
      rw [evalEach, evalEach, hnode index, ih hrest]

/-- There are no definitions in an expression, so it makes no difference
where it stands. -/
theorem IsExpression.evaluate_site {e : Node} (h : IsExpression e)
    (setting : Setting) (limit : Nat) (site site' : Site) (scope : ScopeId) :
    evaluate setting limit e site scope =
      evaluate setting limit e site' scope := by
  induction limit generalizing e site site' with
  | zero => rfl
  | succ limit ih =>
      cases h with
      | number _ => rfl
      | identifier _ => rfl
      | binary _ hleft hright =>
          rw [evaluate, evaluate, ih hleft (site.child 0) (site'.child 0),
            ih hright (site.child 1) (site'.child 1)]
      | @call name args _ hargs =>
          have hrow : evalArgs setting limit args site scope =
              evalArgs setting limit args site' scope :=
            evalEach_congr (fun arg harg i =>
              ih (hargs arg harg) (site.child i) (site'.child i)) 0
          rw [evaluate_call, evaluate_call, prepareCall, prepareCall, hrow]

/-! ## Stores with more scopes -/

section

variable {gap : Gap} {programs : Programs} {a b : Store}

/-- Functions from in front of the gap keep the numbers of their scopes. -/
theorem Value.Safe.renamed_eq {v : Value} (h : v.Safe programs gap.start) :
    v.renamed gap = v := by
  cases h with
  | @function c hscope _ =>
      rw [Value.renamed, Gap.rename_of_lt hscope]
  | _ => rfl

/-- The gap that is made by adding scopes to a store. -/
def Store.gapTo (a b : Store) : Gap := ⟨a.size, b.size - a.size⟩

theorem Store.size_le_rename (hle : a.size ≤ b.size) {id : Nat}
    (hid : a.size ≤ id) : b.size ≤ (a.gapTo b).rename id := by
  rw [Gap.rename_of_le hid]
  change b.size ≤ id + (b.size - a.size)
  omega

/-- A store to which scopes were added, the others being the same, has what
it had, and the added ones in the gap. -/
theorem Store.Safe.repeats (h : a.Safe programs) (hle : a.size ≤ b.size)
    (hkept : ∀ id, id < a.size → b.scope? id = a.scope? id) :
    a.Repeats (a.gapTo b) b where
  start_le := Nat.le_refl a.size
  size_eq := (Nat.add_sub_cancel' hle).symm
  chain_eq := by
    intro id
    rcases Nat.lt_or_ge id a.size with hid | hid
    · have hmap : (a.chain id).map (a.gapTo b).rename = a.chain id := by
        refine (List.map_congr_left fun i hi => ?_).trans (List.map_id _)
        exact Gap.rename_of_lt (Nat.lt_of_le_of_lt (le_of_mem_chain hi) hid)
      rw [Gap.rename_of_lt hid, hmap]
      refine chain_congr id fun i hi => ?_
      rw [hkept i (Nat.lt_of_le_of_lt hi hid)]
    · rw [chain_of_size_le hid, chain_of_size_le (size_le_rename hle hid),
        List.map_singleton]
  bindings?_eq := by
    intro id
    rcases Nat.lt_or_ge id a.size with hid | hid
    · rw [Gap.rename_of_lt hid, bindings?, bindings?, hkept id hid]
      cases hscope : a.scope? id with
      | none => rfl
      | some scope =>
          have hsame : renameBindings (a.gapTo b) scope.bindings =
              scope.bindings := by
            refine (List.map_congr_left fun binding hbinding => ?_).trans
              (List.map_id _)
            exact Prod.ext rfl (h id scope hscope binding hbinding).renamed_eq
          rw [Option.map_some, Option.map_some, hsame]
    · rw [bindings?, bindings?, scope?_of_size_le hid,
        scope?_of_size_le (size_le_rename hle hid)]
      rfl

end

/-! ## The second evaluation -/

section

variable {setting : Setting} {limit : Nat} {e : Node} {site : Site}
  {scope : ScopeId} {m : Machine} {programs : Programs}

/-- An expression leaves the machine as it found it, but for new scopes and
what it wrote. -/
theorem IsExpression.repeats_blank (he : IsExpression e)
    (hm : m.store.Safe programs)
    (hinput : (evaluate setting limit e site scope m).state.input =
      m.input) :
    let after := (evaluate setting limit e site scope m).state
    m.blank.Repeats (m.store.gapTo after.store) after.blank := by
  intro after
  have hframe := frame_visit setting ⟨limit, e, site, scope, m⟩
  exact ⟨hm.repeats hframe.size_le fun _ => hframe.scope?_eq he.not_binds,
    hinput, rfl⟩

/-- An expression that reads nothing has the same outcome on the machine that
it leaves behind, and prints the same again. -/
theorem IsExpression.evaluate_again (hhost : setting.host = [])
    (he : IsExpression e) (hm : m.store.Safe programs)
    (hscope : scope < m.store.size) (site' : Site)
    (hinput : (evaluate setting limit e site scope m).state.input =
      m.input) :
    let first := evaluate setting limit e site scope m
    let second := evaluate setting limit e site' scope first.state
    second.result.map Value.unscoped = first.result.map Value.unscoped ∧
      ∃ printed, first.state.output = m.output ++ printed ∧
        second.state.output = first.state.output ++ printed := by
  intro first second
  have hrepeats := repeatLaw hhost (m.store.gapTo first.state.store) limit e
    site scope (he.repeats_blank hm hinput)
  rw [Gap.rename_of_lt hscope] at hrepeats
  have hsecond : second = evaluate setting limit e site scope first.state := by
    exact congrFun (he.evaluate_site setting limit site' site scope) _
  generalize hfirst : evaluate setting limit e site scope m.blank = a
    at hrepeats
  generalize hagain : evaluate setting limit e site scope
    first.state.blank = b at hrepeats
  cases hrepeats with
  | @done v m₁ m₂ hm₁ =>
      have h₁ : first = _ := evaluate_of_done hfirst
      rw [hsecond, evaluate_of_done hagain, h₁]
      refine ⟨congrArg Except.ok (v.unscoped_renamed _), m₁.output, rfl, ?_⟩
      exact congrArg (_ ++ ·) hm₁.output
  | @failed f m₁ m₂ hm₁ =>
      have h₁ : first = _ := evaluate_of_failed hfirst
      rw [hsecond, evaluate_of_failed hagain, h₁]
      exact ⟨rfl, m₁.output, rfl, congrArg (_ ++ ·) hm₁.output⟩

end

/-! ## Sessions -/

namespace Session

theorem result_evaluateNode (f : Value → Value) (node : Node)
    (scope : ScopeId) (s : Session) :
    (evaluateNode node scope s).result.map f =
      ((evaluate s.setting s.setting.limit node ⟨s.units, []⟩ scope
        s.machine).result.map f).mapError Failure.fault := by
  rw [evaluateNode_eq]
  cases evaluate s.setting s.setting.limit node ⟨s.units, []⟩ scope
    s.machine <;> rfl

theorem state_evaluateNode (node : Node) (scope : ScopeId) (s : Session) :
    (evaluateNode node scope s).state =
      s.ranTo (evaluate s.setting s.setting.limit node ⟨s.units, []⟩ scope
        s.machine).state := by
  rw [evaluateNode_eq]
  cases evaluate s.setting s.setting.limit node ⟨s.units, []⟩ scope
    s.machine <;> rfl

/-- No function comes from outside. -/
theorem Reachable.host_eq {s : Session} (h : s.Reachable) :
    s.setting.host = [] := by
  induction h with
  | start => rfl
  | run source _ _ ih =>
      rw [setting_runSource]
      exact ih

end Session

/-- **Expressions are repeatable.** After any texts, whatever the scoping, let
an expression be evaluated in a scope that exists, and read nothing. Evaluated
once more, it has the same value, a function being the same definition, or
the same failure, and what it printed it prints again. -/
theorem expressions_repeat {s : Session} (hs : s.Reachable) {e : Node}
    (he : IsExpression e) {scope : ScopeId}
    (hscope : scope < s.machine.store.size) :
    let first := Session.evaluateNode e scope s
    let second := Session.evaluateNode e scope first.state
    first.state.machine.input = s.machine.input →
      second.result.map Value.unscoped = first.result.map Value.unscoped ∧
      ∃ printed,
        first.state.machine.output = s.machine.output ++ printed ∧
        second.state.machine.output =
          first.state.machine.output ++ printed := by
  intro first second hinput
  obtain ⟨programs, hsafe⟩ := hs.safe
  have hfirst : first.state = _ := Session.state_evaluateNode e scope s
  have hsecond : second = _ := congrArg (Session.evaluateNode e scope) hfirst
  rw [hfirst] at hinput
  obtain ⟨hresult, printed, hprinted, hagain⟩ :=
    he.evaluate_again hs.host_eq hsafe.store hscope ⟨s.units + 1, []⟩ hinput
  rw [hsecond, Session.result_evaluateNode, Session.result_evaluateNode,
    Session.state_evaluateNode, Session.state_evaluateNode]
  exact ⟨congrArg _ hresult, printed, hprinted, hagain⟩

/-- A session that knows a function `f`, which prints and makes another
function. -/
def knowingMaker : Session :=
  (Session.runSource "def f() puts(x) def g() x end end"
    Machine.globalScope (Session.startWithin 20 true 0 [])).state

def makingCall : Node := .call (.identifier (.text "f")) []

/-- Each call of `f` makes a function in a scope of its own. -/
theorem made_function_repeats :
    let first := Session.evaluateNode makingCall Machine.globalScope
      knowingMaker
    let second := Session.evaluateNode makingCall Machine.globalScope
      first.state
    (knowingMaker.Reachable ∧ IsExpression makingCall ∧
      Machine.globalScope < knowingMaker.machine.store.size ∧
      first.state.machine.input = knowingMaker.machine.input) ∧
    second.result.map Value.unscoped = first.result.map Value.unscoped ∧
    second.state.machine.output = "nil\nnil\n" := by
  have hreachable : knowingMaker.Reachable :=
    .run _ (.start 20 true 0 []) Nat.one_pos
  have hname : IsName "f" :=
    ⟨⟨'f', [], by decide, by decide, List.forall_mem_nil _⟩, by decide⟩
  have hcall : IsExpression makingCall := .call hname (List.forall_mem_nil _)
  have hsize : knowingMaker.machine.store.size = 1 := by cbv
  have hscope : Machine.globalScope < knowingMaker.machine.store.size := by
    rw [hsize]
    exact Nat.one_pos
  have hinput : (Session.evaluateNode makingCall Machine.globalScope
      knowingMaker).state.machine.input = knowingMaker.machine.input := by cbv
  have hbefore : knowingMaker.machine.output = "" := by cbv
  have houtput : (Session.evaluateNode makingCall Machine.globalScope
      knowingMaker).state.machine.output = "nil\n" := by cbv
  obtain ⟨hresult, printed, hfirst, hsecond⟩ :=
    expressions_repeat hreachable hcall hscope hinput
  rw [hbefore, String.empty_append] at hfirst
  rw [← hfirst, houtput] at hsecond
  exact ⟨⟨hreachable, hcall, hscope, hinput⟩, hresult, hsecond⟩

end Scriptlet
