import Scriptlet.Proofs.FunctionPlaces

/-!
# The depth of scopes

What the depth of a scope stands for depends on the rule of scoping
(`scope_depth_means`). Under dynamic scoping the scope of a call is inside
the scope of its caller, so the depth counts the calls that are active
(`ActiveCalls`), which is seen by comparing an evaluation with its parts.
Under lexical scoping the depth counts the definitions around a statement in
the text, whatever the calls that led to it, since the functions that are
called are placed (`FunctionPlaces`), at the beginning of every evaluation on
the way (`Visit.Placed.of_visits`).
-/

namespace Scriptlet

/-! ## Calls that are active -/

/-- Within the first evaluation the second is made, and so many calls of
functions are active then that are not active around the first: each one is
in the middle of a statement of its body. -/
inductive ActiveCalls (setting : Setting) : Visit → Nat → Visit → Prop
  | here (v : Visit) : ActiveCalls setting v 0 v
  | operand {v x b : Visit} {calls : Nat} : x ∈ v.operandParts setting →
      ActiveCalls setting x calls b → ActiveCalls setting v calls b
  | body {v x b : Visit} {calls : Nat} : x ∈ v.bodyParts setting →
      ActiveCalls setting x calls b → ActiveCalls setting v (calls + 1) b

section

variable {setting : Setting} {v x b : Visit}

theorem Visits.exists_activeCalls (h : Visits setting v b) :
    ∃ calls, ActiveCalls setting v calls b := by
  induction h with
  | refl v => exact ⟨0, .here v⟩
  | part hx _ ih =>
      obtain ⟨calls, hcalls⟩ := ih
      rw [Visit.parts_eq] at hx
      rcases List.mem_append.mp hx with hx | hx
      · exact ⟨calls, .operand hx hcalls⟩
      · exact ⟨calls + 1, .body hx hcalls⟩

theorem ActiveCalls.visits {calls : Nat} (h : ActiveCalls setting v calls b) :
    Visits setting v b := by
  induction h with
  | here v => exact .refl v
  | operand hx _ ih =>
      refine .part ?_ ih
      rw [Visit.parts_eq]
      exact List.mem_append_left _ hx
  | body hx _ ih =>
      refine .part ?_ ih
      rw [Visit.parts_eq]
      exact List.mem_append_right _ hx

theorem Visit.partOf_of_mem_operandParts (hx : x ∈ v.operandParts setting) :
    PartOf setting v x ∧ x.scope = v.scope := by
  obtain ⟨limit, node, site, scope, m⟩ := v
  cases limit with
  | zero => exact absurd hx List.not_mem_nil
  | succ limit =>
      exact ⟨partOf_operand hx,
        (rowVisits_before evaluatesIn_evaluate hx).1⟩

theorem Visit.partOf_of_mem_bodyParts (hx : x ∈ v.bodyParts setting) :
    PartOf setting v x := by
  refine partOf_of_mem_parts ?_
  rw [parts_eq]
  exact List.mem_append_right _ hx

/-- A statement of the body of a function begins in the scope of the call,
which the call has just entered. -/
theorem Visit.enters_of_mem_bodyParts (hx : x ∈ v.bodyParts setting) :
    ∃ c vs m m', v.before.Grows m.store ∧
      enterFunction setting c vs v.scope m = .done x.scope m' ∧
      m'.store.Grows x.before := by
  obtain ⟨limit, node, site, scope, machine⟩ := v
  cases limit with
  | zero => exact absurd hx List.not_mem_nil
  | succ limit =>
      cases node with
      | call callee args =>
          obtain ⟨c, frame, m', henter, hx⟩ := mem_bodyVisits hx
          obtain ⟨⟨f, vs⟩, m, hprepare, henter⟩ :=
            Step.bind_eq_done_iff.mp henter
          obtain ⟨m₁, hargs, hstore⟩ := of_prepareCall hprepare
          have hgrows := (frame_evalArgs setting limit args site scope
            machine).grows
          rw [hargs] at hgrows
          obtain ⟨hscope, hbefore⟩ := rowVisits_before evaluatesIn_evaluate hx
          cases f with
          | function closure =>
              obtain ⟨id, m₂, henter, hdone⟩ := Step.bind_eq_done_iff.mp henter
              cases hdone
              refine ⟨c, vs, m, m', ?_, ?_, hbefore.grows⟩
              · rw [hstore]
                exact hgrows
              · rw [hscope]
                exact henter
          | _ => cases henter
      | _ => exact absurd hx List.not_mem_nil

/-- Under dynamic scoping each active call is one scope more. -/
theorem ActiveCalls.depth_eq {calls : Nat}
    (hdynamic : setting.lexical = false)
    (h : ActiveCalls setting v calls b) (hv : v.scope < v.before.size) :
    b.before.depth b.scope = v.before.depth v.scope + calls := by
  induction h with
  | here v => rfl
  | @operand v x b calls hx _ ih =>
      obtain ⟨hpart, hscope⟩ := Visit.partOf_of_mem_operandParts hx
      rw [ih (hpart.scope_lt hv), hscope, hpart.before.grows.depth_eq hv]
  | @body v x b calls hx _ ih =>
      have hpart := Visit.partOf_of_mem_bodyParts hx
      obtain ⟨c, vs, m, m', hm, henter, hm'⟩ :=
        Visit.enters_of_mem_bodyParts hx
      have hparent : (if setting.lexical then c.scope else v.scope) =
          v.scope := by
        rw [hdynamic]
        rfl
      obtain ⟨hlt, hdepth⟩ := depth_enterFunction hparent
        (Nat.lt_of_lt_of_le hv hm.size_le) henter
      rw [ih (hpart.scope_lt hv), hm'.depth_eq hlt, hdepth, hm.depth_eq hv]
      omega

end

/-! ## Placed functions on the way -/

/-- The evaluation of a statement of a program begins with placed functions,
in a scope that fits its site. -/
structure Visit.Placed (programs : Programs) (v : Visit) : Prop where
  stands : Stands programs v.site v.node
  fits : v.before.Fits programs v.scope v.site
  store : v.before.Placed programs

section

variable {programs : Programs} {setting : Setting} {limit : Nat}

theorem placed_of_mem_rowVisits {site : Site} {scope : ScopeId}
    {eval : Nat → Node → Eval Value}
    (heval : PlacesEvaluator programs site scope eval) {index : Nat}
    {nodes : List Node} {m : Machine} {x : Visit}
    (hrow : RowStands programs site index nodes)
    (hfits : ∀ i, m.store.Fits programs scope (site.child i))
    (hm : m.store.Placed programs)
    (hx : x ∈ rowVisits eval limit site scope index nodes m) :
    x.Placed programs := by
  induction nodes generalizing index m with
  | nil => exact absurd hx List.not_mem_nil
  | cons node rest ih =>
      unfold rowVisits at hx
      rcases List.mem_cons.mp hx with rfl | hx
      · exact ⟨hrow.head, hfits index, hm⟩
      · have hplaces := heval index node m hrow.head (hfits index) hm
        cases hnode : eval index node m with
        | done v m₁ =>
            rw [hnode] at hx hplaces
            obtain ⟨hm₁, hgrows, -⟩ := hplaces
            exact ih hrow.tail (fun i => (hfits i).grow hgrows) hm₁ hx
        | failed f m₁ =>
            rw [hnode] at hx
            exact absurd hx List.not_mem_nil

theorem places_enterCall (hlexical : setting.lexical = true)
    (law : PlacingLaw programs setting limit) (callee : Node)
    {args : List Node} {site : Site} {scope : ScopeId} {m : Machine}
    (hargs : RowStands programs site 0 args)
    (hfits : ∀ i, m.store.Fits programs scope (site.child i)) :
    Places programs
      (fun entered store => ∀ c frame, entered = some (c, frame) →
        c.Placed programs store ∧
          ∀ i, store.Fits programs frame (c.site.child i))
      (enterCall setting limit callee args site scope) m := by
  refine .bind (places_prepareCall law callee hargs hfits) ?_
  rintro ⟨f, vs⟩ m₁ _ ⟨hf, hvs⟩
  cases f with
  | function closure =>
      have hclosure := hf closure rfl
      refine .bind (places_enterFunction hlexical hclosure hvs scope)
        fun id m₂ hgrows hframe => ?_
      refine .pure fun c frame heq => ?_
      cases heq
      exact ⟨⟨hclosure.node?_eq, hclosure.fits.grow hgrows⟩, hframe⟩
  | _ => exact .pure fun c frame heq => nomatch heq

theorem Visit.Placed.operand (hlexical : setting.lexical = true)
    (hhost : setting.host = []) {v x : Visit} (h : v.Placed programs)
    (hx : x ∈ v.operandParts setting) : x.Placed programs := by
  obtain ⟨limit, node, site, scope, m⟩ := v
  cases limit with
  | zero => exact absurd hx List.not_mem_nil
  | succ limit =>
      have hoperands : node.operands = [] ∨
          node.operands = node.children ∧ node.opensBlock = false := by
        cases node with
        | binary | assign | call => exact Or.inr ⟨rfl, rfl⟩
        | _ => exact Or.inl rfl
      change x ∈ nestedVisits setting limit site scope node.operands m at hx
      rcases hoperands with heq | ⟨heq, hblock⟩
      · rw [heq] at hx
        exact absurd hx List.not_mem_nil
      · rw [heq] at hx
        exact placed_of_mem_rowVisits
          ((placingLaw programs hlexical hhost limit).evaluator site scope)
          h.stands.children (h.fits.child h.stands.node?_eq hblock) h.store hx

theorem Visit.Placed.body (hlexical : setting.lexical = true)
    (hhost : setting.host = []) {v x : Visit} (h : v.Placed programs)
    (hx : x ∈ v.bodyParts setting) : x.Placed programs := by
  obtain ⟨limit, node, site, scope, m⟩ := v
  cases limit with
  | zero => exact absurd hx List.not_mem_nil
  | succ limit =>
      cases node with
      | call callee args =>
          have law := placingLaw programs hlexical hhost limit
          have hargs : RowStands programs site 0 args := h.stands.children
          have hfits : ∀ i, m.store.Fits programs scope (site.child i) :=
            h.fits.child h.stands.node?_eq rfl
          change x ∈ bodyVisits setting limit callee args site scope m at hx
          obtain ⟨c, frame, m', henter, hx⟩ := mem_bodyVisits hx
          have hplaces :=
            places_enterCall hlexical law callee hargs hfits h.store
          rw [henter] at hplaces
          obtain ⟨hm', -, hentered⟩ := hplaces
          obtain ⟨hc, hframe⟩ := hentered c frame rfl
          exact placed_of_mem_rowVisits (law.evaluator c.site frame) hc.body
            hframe hm' hx
      | _ => exact absurd hx List.not_mem_nil

/-- Functions are placed all the way down. -/
theorem Visit.Placed.of_visits (hlexical : setting.lexical = true)
    (hhost : setting.host = []) {v b : Visit} (h : v.Placed programs)
    (hb : Visits setting v b) : b.Placed programs := by
  induction hb with
  | refl v => exact h
  | part hx _ ih =>
      rw [Visit.parts_eq] at hx
      rcases List.mem_append.mp hx with hx | hx
      · exact ih (h.operand hlexical hhost hx)
      · exact ih (h.body hlexical hhost hx)

/-- A look-up goes through the scope at hand and all that are around it. -/
theorem Visit.chain_of_lookup? {v : Visit} (hv : v.scope < v.before.size)
    {found : Name × Store} (h : found ∈ v.lookup? setting) :
    found.2.chain v.scope = v.before.chain v.scope := by
  obtain ⟨limit, node, site, scope, m⟩ := v
  unfold lookup? at h
  split at h
  · obtain ⟨name, -, rfl⟩ := Option.map_eq_some_iff.mp h
    rfl
  · rename_i limit' json args hlimit hnode
    dsimp only at hlimit hnode
    subst hlimit hnode
    have hframe := frame_evalArgs setting limit' args site scope m
    split at h
    · rename_i vs m' hdone
      rw [show evalArgs setting limit' args site scope m = _ from hdone]
        at hframe
      obtain ⟨name, -, rfl⟩ := Option.map_eq_some_iff.mp h
      exact hframe.chain_eq hv
    · cases h
  · cases h

end

/-! ## Texts -/

theorem places_evalStatement (programs : Programs) {setting : Setting}
    (hlexical : setting.lexical = true) (hhost : setting.host = [])
    (site : Site) (scope : ScopeId) :
    PlacesEvaluator programs site scope
      (evalStatement setting site scope) := by
  intro i statement m hstands hfits
  refine .bind (placingLaw programs hlexical hhost setting.limit statement _
    scope m hstands hfits) fun v m₁ _ hv => ?_
  refine .bind (.record setting 1 _) fun _ m₂ hgrows _ => ?_
  exact .pure (Value.Placed.grow hv hgrows)

namespace Session

/-- The functions of a session are placed, and the next site is that of the
next program. -/
structure Placed (programs : Programs) (s : Session) : Prop where
  store : s.machine.store.Placed programs
  global_lt : Machine.globalScope < s.machine.store.size
  units_eq : s.units = programs.loaded.length

section

variable {programs : Programs} {s : Session} {source : String}
  {statements : List Node}

/-- Statements at the top of a program fit the global scope. -/
theorem Placed.fits (h : s.Placed programs) (later : Programs)
    (unit i : Nat) : s.machine.store.Fits later Machine.globalScope
      (Site.child ⟨unit, []⟩ i) where
  scope_lt := h.global_lt
  depth_eq := by rw [Site.nesting_top, Store.depth_global]

theorem Placed.adding (h : s.Placed programs) (source : String) :
    s.machine.store.Placed (programs.adding s.setting.limit source) :=
  h.store.mono (Programs.adding_extends s.setting.limit programs source)

theorem Placed.runStatements (hlexical : s.setting.lexical = true)
    (hhost : s.setting.host = []) (h : s.Placed programs)
    (hparse : parseProgram s.setting.limit source = .ok statements) :
    Places (programs.adding s.setting.limit source)
      (Value.Placed (programs.adding s.setting.limit source))
      (Scriptlet.runStatements s.setting ⟨s.units, []⟩ Machine.globalScope
        statements) s.machine := by
  have hrow := Programs.rowStands_adding hparse programs
  rw [← h.units_eq] at hrow
  rw [runStatements_eq]
  exact places_evalLast (places_evalStatement _ hlexical hhost _ _) hrow
    (h.fits _ s.units) .nil

theorem Placed.runSource (hlexical : s.setting.lexical = true)
    (hhost : s.setting.host = []) (h : s.Placed programs) (source : String) :
    (Session.runSource source Machine.globalScope s).state.Placed
      (programs.adding s.setting.limit source) := by
  cases hparse : parseProgram s.setting.limit source with
  | error e =>
      rw [runSource_of_error hparse]
      refine ⟨h.adding source, h.global_lt, ?_⟩
      rw [Programs.adding_of_error hparse]
      exact h.units_eq
  | ok statements =>
      have hplaces := h.runStatements hlexical hhost hparse
        (h.adding source)
      have hle := (frame_runStatements s.setting ⟨s.units, []⟩
        Machine.globalScope statements s.machine).size_le
      have hranTo : ∀ {m : Machine}, s.machine.store.size ≤ m.store.size →
          m.store.Placed (programs.adding s.setting.limit source) →
          (s.ranTo m).Placed (programs.adding s.setting.limit source) := by
        intro m hle hm
        refine ⟨hm, Nat.lt_of_lt_of_le h.global_lt hle, ?_⟩
        rw [Programs.adding_of_ok hparse, List.length_append, ← h.units_eq]
        rfl
      rw [runSource_of_ok hparse, runNodes_eq]
      cases hrun : Scriptlet.runStatements s.setting ⟨s.units, []⟩
        Machine.globalScope statements s.machine with
      | done v m =>
          rw [hrun] at hplaces hle
          exact hranTo hle hplaces.1
      | failed f m =>
          rw [hrun] at hplaces hle
          exact hranTo hle hplaces

theorem Placed.runAll (hlexical : s.setting.lexical = true)
    (hhost : s.setting.host = []) {limit : Nat}
    (hlimit : s.setting.limit = limit) (h : s.Placed programs)
    (sources : List String) :
    (s.runAll sources).Placed
      (sources.foldl (Programs.adding limit) programs) := by
  induction sources generalizing s programs with
  | nil => exact h
  | cons source rest ih =>
      have hstep := h.runSource hlexical hhost source
      rw [hlimit] at hstep
      have hsetting := setting_runSource source Machine.globalScope s
      refine ih ?_ ?_ ?_ hstep <;> rw [hsetting] <;> assumption

/-- Every statement that a text evaluates begins with placed functions. -/
theorem Placed.of_programVisits (hlexical : s.setting.lexical = true)
    (hhost : s.setting.host = []) (h : s.Placed programs)
    (hparse : parseProgram s.setting.limit source = .ok statements)
    {top : Visit}
    (htop : top ∈ programVisits s.setting ⟨s.units, []⟩ Machine.globalScope
      statements s.machine) :
    top.Placed (programs.adding s.setting.limit source) := by
  have hrow := Programs.rowStands_adding hparse programs
  rw [← h.units_eq] at hrow
  exact placed_of_mem_rowVisits (places_evalStatement _ hlexical hhost _ _)
    hrow (h.fits _ s.units) (h.adding source) htop

end

theorem placed_startWithin (limit : Nat) (lexical : Bool) (level : Int)
    (input : List Char) :
    (startWithin limit lexical level input).Placed
      (Programs.ofSources limit []) :=
  ⟨.initial (.of_ne fun _ h => nomatch h) (.of_ne fun _ h => nomatch h),
    Nat.one_pos, rfl⟩

theorem setting_runAll (s : Session) (sources : List String) :
    (s.runAll sources).setting = s.setting := by
  induction sources generalizing s with
  | nil => rfl
  | cons source rest ih =>
      exact (ih _).trans (setting_runSource source Machine.globalScope s)

end Session

/-- **What depth means.** Let texts be run one after the other in the global
scope, and let `v` be any evaluation that is made while the last of them
runs, within the statement `top` of its program. Under dynamic scoping the
depth of its scope is the number of calls of functions that are active.
Under lexical scoping it is the number of definitions that are around it in
the text, so that a name is looked up in one scope more than that, whatever
the calls that are active. -/
theorem scope_depth_means (limit : Nat) (lexical : Bool) (level : Int)
    (input : List Char) (sources : List String) (source : String)
    (statements : List Node)
    (hparse : parseProgram limit source = .ok statements) :
    let s := (Session.startWithin limit lexical level input).runAll sources
    let programs := Programs.ofSources limit (sources ++ [source])
    ∀ top ∈ programVisits s.setting ⟨s.units, []⟩ Machine.globalScope
      statements s.machine, ∀ v, Visits s.setting top v →
    (lexical = false → ∀ calls,
      ActiveCalls s.setting top calls v ↔
        calls = v.before.depth v.scope) ∧
    (lexical = true →
      v.site.node? programs = some v.node ∧
      v.before.depth v.scope = v.site.nesting programs ∧
      ∀ found ∈ v.lookup? s.setting,
        (found.2.chain v.scope).length = v.site.nesting programs + 1) := by
  intro s programs top htop v hv
  have hsetting : s.setting = ⟨lexical, level, limit, []⟩ :=
    Session.setting_runAll _ sources
  constructor
  · rintro rfl calls
    have hrule : s.setting.lexical = false := by rw [hsetting]
    obtain ⟨hsafe, -⟩ :=
      (Session.safe_startWithin limit false level input).runAll rfl sources
    obtain ⟨hscope, hframe⟩ := rowVisits_before (evaluatesIn_evalStatement
      s.setting ⟨s.units, []⟩ Machine.globalScope) htop
    have hlt : top.scope < top.before.size := by
      rw [hscope]
      exact Nat.lt_of_lt_of_le hsafe.global_lt hframe.size_le
    have hdepth : ∀ {calls}, ActiveCalls s.setting top calls v →
        calls = v.before.depth v.scope := by
      intro calls hcalls
      rw [hcalls.depth_eq hrule hlt, hscope, Store.depth_global,
        Nat.zero_add]
    refine ⟨hdepth, ?_⟩
    rintro rfl
    obtain ⟨calls, hcalls⟩ := hv.exists_activeCalls
    rw [← hdepth hcalls]
    exact hcalls
  · rintro rfl
    have hrule : s.setting.lexical = true := by rw [hsetting]
    have hhost : s.setting.host = [] := by rw [hsetting]
    have hlimit : s.setting.limit = limit := by rw [hsetting]
    have hplaced : s.Placed (Programs.ofSources limit sources) :=
      (Session.placed_startWithin limit true level input).runAll rfl rfl rfl
        sources
    have hprograms : programs =
        (Programs.ofSources limit sources).adding s.setting.limit source := by
      rw [hlimit]
      exact List.foldl_append
    rw [← hlimit] at hparse
    have hv : v.Placed programs := by
      rw [hprograms]
      exact (hplaced.of_programVisits hrule hhost hparse htop).of_visits hrule
        hhost hv
    refine ⟨hv.stands.node?_eq, hv.fits.depth_eq, fun found hfound => ?_⟩
    rw [Visit.chain_of_lookup? hv.fits.scope_lt hfound, Store.length_chain,
      hv.fits.depth_eq]

def knowingF (lexical : Bool) : Session :=
  (Session.startWithin 10 lexical 0 []).runAll ["def f() x end"]

def callingF : List Node :=
  [.define (.text "g") [] [.call (.identifier (.text "f")) []],
    .call (.identifier (.text "g")) []]

/-- By either rule the name `x` is read in a call within a call. -/
theorem exists_second_call (lexical : Bool) :
    let s := knowingF lexical
    ∃ top ∈ programVisits s.setting ⟨s.units, []⟩ Machine.globalScope callingF
      s.machine, ∃ v, ActiveCalls s.setting top 2 v ∧
        v.site = ⟨0, [0, 0]⟩ := by
  have hsites : ((programVisits (knowingF lexical).setting
      ⟨(knowingF lexical).units, []⟩ Machine.globalScope callingF
      (knowingF lexical).machine).flatMap fun top =>
        (top.bodyParts (knowingF lexical).setting).flatMap fun call =>
          (call.bodyParts (knowingF lexical).setting).map Visit.site) =
      [⟨0, [0, 0]⟩] := by
    cases lexical <;> cbv
  have hmem := List.mem_singleton_self (⟨0, [0, 0]⟩ : Site)
  rw [← hsites] at hmem
  obtain ⟨top, htop, hmem⟩ := List.mem_flatMap.mp hmem
  obtain ⟨call, hcall, hmem⟩ := List.mem_flatMap.mp hmem
  obtain ⟨v, hv, hsite⟩ := List.mem_map.mp hmem
  exact ⟨top, htop, v, .body hcall (.body hv (.here v)), hsite⟩

/-- Where the name is read, two scopes are around the one at hand under
dynamic scoping, and a single one under lexical scoping. -/
theorem depth_in_second_call :
    parseProgram 10 "def g() f() end g()" = .ok callingF ∧
    (∃ top ∈ programVisits (knowingF false).setting
        ⟨(knowingF false).units, []⟩ Machine.globalScope callingF
        (knowingF false).machine,
      ∃ v, ActiveCalls (knowingF false).setting top 2 v ∧
        v.before.depth v.scope = 2) ∧
    ∃ top ∈ programVisits (knowingF true).setting
        ⟨(knowingF true).units, []⟩ Machine.globalScope callingF
        (knowingF true).machine,
      ∃ v, ActiveCalls (knowingF true).setting top 2 v ∧
        v.before.depth v.scope = 1 := by
  have hparse : parseProgram 10 "def g() f() end g()" = .ok callingF := by cbv
  refine ⟨hparse, ?_, ?_⟩
  · obtain ⟨top, htop, v, hcalls, -⟩ := exists_second_call false
    obtain ⟨hdynamic, -⟩ := scope_depth_means 10 false 0 [] ["def f() x end"]
      "def g() f() end g()" callingF hparse top htop v hcalls.visits
    exact ⟨top, htop, v, hcalls, ((hdynamic rfl 2).mp hcalls).symm⟩
  · obtain ⟨top, htop, v, hcalls, hsite⟩ := exists_second_call true
    obtain ⟨-, hlexical⟩ := scope_depth_means 10 true 0 [] ["def f() x end"]
      "def g() f() end g()" callingF hparse top htop v hcalls.visits
    obtain ⟨-, hdepth, -⟩ := hlexical rfl
    have hnesting : Site.nesting (Programs.ofSources 10
        (["def f() x end"] ++ ["def g() f() end g()"])) ⟨0, [0, 0]⟩ = 1 := by
      cbv
    rw [hsite, hnesting] at hdepth
    exact ⟨top, htop, v, hcalls, hdepth⟩

end Scriptlet
