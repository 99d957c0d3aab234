import Scriptlet.Proofs.ScopingModes

/-!
# Functions and the scopes they were defined in

Under lexical scoping the scope of a call is inside the scope in which the
function was defined. How deep that scope is can be told from the text: it is
the number of definitions around the one that made the function
(`Site.nesting`, `Closure.Placed`).

That all functions are placed like this is kept by everything that a program
does (`placingLaw`). It is shown as in `TypeSafety`, with one rule for each
way in which the stages of an evaluation are put together (`Places`).
-/

namespace Scriptlet

variable {α β : Type}

/-! ## Blocks of the text -/

def Node.opensBlock : Node → Bool
  | .define _ _ _ => true
  | _ => false

/-- The number of blocks around the node at the end of a path, the last step
of which comes first. -/
def Node.blocksAround (node : Node) : List Nat → Nat
  | [] => 0
  | _ :: path =>
    node.blocksAround path +
      ((node.descendant? path).any Node.opensBlock).toNat

/-- The number of definitions in the text that are around a site. -/
def Site.nesting (programs : Programs) (site : Site) : Nat :=
  (programs.loaded[site.unit]?.map fun statements =>
    (Node.sequence statements).blocksAround site.path).getD 0

namespace Site

variable {programs : Programs} {site : Site} {node : Node}

theorem nesting_child (h : site.node? programs = some node) (i : Nat) :
    (site.child i).nesting programs =
      site.nesting programs + node.opensBlock.toNat := by
  obtain ⟨statements, hunit, hpath⟩ := Option.bind_eq_some_iff.mp h
  unfold nesting child
  dsimp only
  rw [hunit, Option.map_some, Option.map_some, Option.getD_some,
    Option.getD_some, Node.blocksAround, hpath, Option.any_some]

/-- At the top of a program there are no blocks around a statement. -/
theorem nesting_top (programs : Programs) (unit i : Nat) :
    (Site.child ⟨unit, []⟩ i).nesting programs = 0 := by
  unfold nesting child
  cases programs.loaded[unit]? <;> rfl

theorem nesting_of_extends {later : Programs} (hext : later.Extends programs)
    (h : site.node? programs = some node) :
    site.nesting later = site.nesting programs := by
  obtain ⟨more, hmore⟩ := hext
  obtain ⟨statements, hunit, -⟩ := Option.bind_eq_some_iff.mp h
  have hlt := (List.getElem?_eq_some_iff.mp hunit).1
  rw [nesting, nesting, hmore, List.getElem?_append_left hlt]

end Site

/-! ## Depths do not change -/

/-- From one store to the other scopes were added, and those that were there
kept their chains. -/
structure Store.Grows (a b : Store) : Prop where
  size_le : a.size ≤ b.size
  chain_eq : ∀ id, id < a.size → b.chain id = a.chain id

namespace Store

theorem Grows.refl (a : Store) : a.Grows a := ⟨Nat.le_refl _, fun _ _ => rfl⟩

theorem Grows.trans {a b c : Store} (h : a.Grows b) (h' : b.Grows c) :
    a.Grows c where
  size_le := Nat.le_trans h.size_le h'.size_le
  chain_eq := by
    intro id hid
    rw [h'.chain_eq id (Nat.lt_of_lt_of_le hid h.size_le), h.chain_eq id hid]

theorem Frame.grows {scope : ScopeId} {changed : Name → Prop} {a b : Store}
    (h : Frame scope changed a b) : a.Grows b :=
  ⟨h.size_le, fun _ => h.chain_eq⟩

theorem length_chain (store : Store) (id : ScopeId) :
    (store.chain id).length = store.depth id + 1 := by
  obtain ⟨older, heq, -⟩ := store.chain_eq_cons id
  rw [depth, heq]
  rfl

theorem Grows.depth_eq {a b : Store} (h : a.Grows b) {id : ScopeId}
    (hid : id < a.size) : b.depth id = a.depth id := by
  rw [depth, depth, h.chain_eq id hid]

theorem depth_global (store : Store) :
    store.depth Machine.globalScope = 0 := by
  rw [depth, Machine.globalScope, chain_zero]
  rfl

/-- A new scope is one deeper than the one it is in. -/
theorem depth_add (store : Store) {parent : ScopeId}
    (h : parent < store.size) :
    (store.add (some parent)).2.depth store.size = store.depth parent + 1 := by
  rw [depth, store.chain_add h, List.length_cons, length_chain]
  rfl

end Store

/-- The scope of a call is one deeper than the scope that the rule of scoping
puts it into. -/
theorem depth_enterFunction {setting : Setting} {c : Closure}
    {vs : List Value} {scope frame parent : ScopeId} {m m' : Machine}
    (hparent : (if setting.lexical then c.scope else scope) = parent)
    (hlt : parent < m.store.size)
    (h : enterFunction setting c vs scope m = .done frame m') :
    frame < m'.store.size ∧
      m'.store.depth frame = m.store.depth parent + 1 := by
  rw [enterFunction_eq, hparent] at h
  obtain ⟨_, m₁, hparams, hdone⟩ := Step.bind_eq_done_iff.mp h
  cases hdone
  have hgrows := (Within.bindParams m.store.size c.params vs
    (m.push parent)).frame.grows
  rw [hparams] at hgrows
  have hnew := m.size_lt_push parent
  refine ⟨Nat.lt_of_lt_of_le hnew hgrows.size_le, ?_⟩
  rw [show m'.store.depth m.store.size = _ from hgrows.depth_eq hnew]
  exact m.store.depth_add hlt

/-! ## Functions where they were defined -/

/-- The scope is as deep as the site is nested. -/
structure Store.Fits (programs : Programs) (store : Store) (scope : ScopeId)
    (site : Site) : Prop where
  scope_lt : scope < store.size
  depth_eq : store.depth scope = site.nesting programs

/-- The function comes from a definition in a program, and the scope in which
it was defined is as deep as the definition is nested. -/
structure Closure.Placed (programs : Programs) (c : Closure) (store : Store) :
    Prop where
  node?_eq : c.site.node? programs = some (.define c.name c.params c.body)
  fits : store.Fits programs c.scope c.site

def Value.Placed (programs : Programs) (v : Value) (store : Store) : Prop :=
  ∀ c, v = .function c → c.Placed programs store

def Store.Placed (programs : Programs) (store : Store) : Prop :=
  store.Holds (Value.Placed programs · store)

section

variable {programs : Programs} {store store' : Store}

theorem Store.Fits.grow {scope : ScopeId} {site : Site}
    (h : store.Fits programs scope site) (hgrows : store.Grows store') :
    store'.Fits programs scope site where
  scope_lt := Nat.lt_of_lt_of_le h.scope_lt hgrows.size_le
  depth_eq := (hgrows.depth_eq h.scope_lt).trans h.depth_eq

/-- Operands stand in the same block as the whole. -/
theorem Store.Fits.child {scope : ScopeId} {site : Site} {node : Node}
    (h : store.Fits programs scope site)
    (hsite : site.node? programs = some node)
    (hblock : node.opensBlock = false) (i : Nat) :
    store.Fits programs scope (site.child i) where
  scope_lt := h.scope_lt
  depth_eq := by
    rw [h.depth_eq, Site.nesting_child hsite, hblock]
    rfl

theorem Value.Placed.grow {v : Value} (h : v.Placed programs store)
    (hgrows : store.Grows store') : v.Placed programs store' :=
  fun c hc => ⟨(h c hc).node?_eq, (h c hc).fits.grow hgrows⟩

theorem Value.Placed.of_ne {v : Value} (h : ∀ c, v ≠ .function c) :
    v.Placed programs store :=
  fun c hc => absurd hc (h c)

theorem Value.Placed.nil : Value.nil.Placed programs store :=
  .of_ne fun _ => Value.noConfusion

theorem Value.Placed.number (x : Float) :
    (Value.number x).Placed programs store :=
  .of_ne fun _ => Value.noConfusion

theorem Store.Placed.grow (h : store.Placed programs)
    (hgrows : store.Grows store') :
    store.Holds (Value.Placed programs · store') :=
  Holds.imp h fun _ hv => hv.grow hgrows

theorem Store.Placed.get (h : store.Placed programs) (id : ScopeId)
    (name : Name) : (store.get id name).Placed programs store :=
  Holds.get h .nil id name

/-- One more program does not move what is there. -/
theorem Store.Placed.mono {later : Programs} (h : store.Placed programs)
    (hext : later.Extends programs) : store.Placed later := by
  refine Holds.imp h fun v hv c hc => ?_
  obtain ⟨hsite, hscope, hdepth⟩ := hv c hc
  refine ⟨Site.node?_of_extends hext hsite, hscope, ?_⟩
  rw [hdepth, Site.nesting_of_extends hext hsite]

end

/-! ## Actions that keep functions placed -/

/-- From a store with placed functions, the action ends with one that has
grown from it and has placed functions, and with a result as in `good`; or it
fails and leaves placed functions. -/
def Places (programs : Programs) (good : α → Store → Prop)
    (action : Eval α) (m : Machine) : Prop :=
  m.store.Placed programs → (action m).Ensures
    (fun a m' => m'.store.Placed programs ∧ m.store.Grows m'.store ∧
      good a m'.store)
    fun _ m' => m'.store.Placed programs

def PlacedValues (programs : Programs) (vs : List Value) (store : Store) :
    Prop :=
  ∀ v ∈ vs, v.Placed programs store

namespace Places

variable {programs : Programs} {good : α → Store → Prop}
  {good' : β → Store → Prop} {m : Machine}

theorem pure {a : α} (h : good a m.store) :
    Places programs good (Pure.pure a) m :=
  fun hm => ⟨hm, .refl _, h⟩

theorem fail (f : Fault) :
    Places programs good (Step.fail f : Eval α) m :=
  fun hm => hm

theorem bind {action : Eval α} {next : α → Eval β}
    (h : Places programs good action m)
    (hnext : ∀ a m', m.store.Grows m'.store → good a m'.store →
      Places programs good' (next a) m') :
    Places programs good' (action >>= next) m := by
  intro hm
  refine Step.ensures_bind (h hm) ?_
  rintro a m₁ ⟨hm₁, hgrows, ha⟩
  refine (hnext a m₁ hgrows ha hm₁).imp ?_ fun _ _ hf => hf
  rintro b m₂ ⟨hm₂, hgrows', hb⟩
  exact ⟨hm₂, hgrows.trans hgrows', hb⟩

/-- An action that leaves the store alone is looked at for its result
only. -/
theorem of_leaves {action : Eval α}
    (hstore : (action m).Leaves fun m' => m'.store = m.store)
    (h : m.store.Placed programs →
      (action m).Ensures (fun a _ => good a m.store) fun _ _ => True) :
    Places programs good action m := by
  intro hm
  have hgood := h hm
  cases hdone : action m with
  | done a m' =>
      rw [hdone] at hstore hgood
      have heq : m'.store = m.store := hstore
      refine ⟨?_, ?_, ?_⟩ <;> rw [heq]
      · exact hm
      · exact .refl _
      · exact hgood
  | failed f m' =>
      rw [hdone] at hstore
      have heq : m'.store = m.store := hstore
      show m'.store.Placed programs
      rw [heq]
      exact hm

theorem get_bind {next : Machine → Eval β}
    (h : Places programs good' (next m) m) :
    Places programs good' (Step.get >>= next) m := h

theorem nameOf_bind {json : Json} {next : Name → Eval β}
    (hnext : ∀ name, Places programs good' (next name) m) :
    Places programs good' (Eval.nameOf json >>= next) m := by
  unfold Places
  rw [Step.bind_apply]
  cases hjson : Name.ofJson? json with
  | none =>
      rw [Eval.nameOf_of_none hjson]
      exact fun hm => hm
  | some name =>
      rw [Eval.nameOf_of_some hjson]
      exact hnext name

theorem record (setting : Setting) (required : Int)
    (event : Unit → Except Fault Event) :
    Places programs (fun _ _ => True) (Eval.record setting required event)
      m := by
  refine of_leaves (Eval.leaves_record setting required event m) fun _ => ?_
  cases Eval.record setting required event m <;> trivial

theorem bindName (scope : ScopeId) (name : Name) {v : Value}
    (hv : v.Placed programs m.store) :
    Places programs (fun _ _ => True) (Eval.bind scope name v) m := by
  intro hm
  have hframe : Store.Frame scope (fun _ => True) m.store
      (m.store.set scope name v) := Store.frame_set m.store scope v trivial
  have hgrows := hframe.grows
  exact ⟨(hm.grow hgrows).set scope name (hv.grow hgrows), hgrows, trivial⟩

theorem newScope (parent : ScopeId) :
    Places programs (fun _ _ => True) (Eval.newScope parent) m := by
  intro hm
  have hgrows : m.store.Grows (m.store.add (some parent)).2 :=
    (Store.frame_add m.store (some parent) parent fun _ => True).grows
  exact ⟨(hm.grow hgrows).add (some parent), hgrows, trivial⟩

/-- What is known of the results of an action otherwise may take the place of
what is known of them from here. -/
theorem of_done {action : Eval α} {other : α → Store → Prop}
    (h : Places programs good action m)
    (hother : ∀ a m', action m = .done a m' → other a m'.store) :
    Places programs other action m := by
  intro hm
  have hgood := h hm
  cases hdone : action m with
  | done a m' =>
      rw [hdone] at hgood
      exact ⟨hgood.1, hgood.2.1, hother a m' hdone⟩
  | failed f m' =>
      rw [hdone] at hgood
      exact hgood

theorem bindParams (scope : ScopeId) (params : List Json) {vs : List Value}
    (hvs : PlacedValues programs vs m.store) :
    Places programs (fun _ _ => True) (Scriptlet.bindParams scope params vs)
      m := by
  induction params generalizing vs m with
  | nil => exact pure trivial
  | cons param params ih =>
      cases vs with
      | nil => exact pure trivial
      | cons v vs =>
          obtain ⟨hv, hvs⟩ := List.forall_mem_cons.mp hvs
          refine nameOf_bind fun name => ?_
          refine bind (bindName scope name hv) fun _ m₁ hgrows _ => ?_
          exact ih fun v hv => (hvs v hv).grow hgrows

end Places

/-! ## Rows -/

/-- The evaluator of a row keeps functions placed, in a scope that fits the
sites of the row. -/
def PlacesEvaluator (programs : Programs) (site : Site) (scope : ScopeId)
    (eval : Nat → Node → Eval Value) : Prop :=
  ∀ i node m, Stands programs (site.child i) node →
    m.store.Fits programs scope (site.child i) →
    Places programs (Value.Placed programs) (eval i node) m

section

variable {programs : Programs} {site : Site} {scope : ScopeId}
  {eval : Nat → Node → Eval Value} {index : Nat} {nodes : List Node}
  {m : Machine}

theorem places_evalEach (heval : PlacesEvaluator programs site scope eval)
    (hrow : RowStands programs site index nodes)
    (hfits : ∀ i, m.store.Fits programs scope (site.child i)) :
    Places programs (PlacedValues programs) (evalEach eval index nodes)
      m := by
  induction nodes generalizing index m with
  | nil => exact .pure fun v hv => (List.not_mem_nil hv).elim
  | cons node rest ih =>
      refine .bind (heval index node m hrow.head (hfits index))
        fun v m₁ hgrows hv => ?_
      refine .bind (ih hrow.tail fun i => (hfits i).grow hgrows)
        fun vs m₂ hgrows' hvs => ?_
      exact .pure (List.forall_mem_cons.mpr
        ⟨Value.Placed.grow hv hgrows', hvs⟩)

theorem places_evalLast (heval : PlacesEvaluator programs site scope eval)
    (hrow : RowStands programs site index nodes)
    (hfits : ∀ i, m.store.Fits programs scope (site.child i)) {last : Value}
    (hlast : last.Placed programs m.store) :
    Places programs (Value.Placed programs) (evalLast eval index last nodes)
      m := by
  induction nodes generalizing index last m with
  | nil => exact .pure hlast
  | cons node rest ih =>
      refine .bind (heval index node m hrow.head (hfits index))
        fun v m₁ hgrows hv => ?_
      exact ih hrow.tail (fun i => (hfits i).grow hgrows) hv

end

/-! ## Calls -/

section

variable {programs : Programs} {setting : Setting} {m : Machine}

theorem places_resolveCallee (callee : Node) (scope : ScopeId) :
    Places programs (Value.Placed programs) (resolveCallee callee scope)
      m := by
  cases callee with
  | identifier json =>
      refine .nameOf_bind fun name => ?_
      refine .of_leaves ?_ fun hm => ?_
      · rw [Step.bind_apply, Step.get_apply]
        dsimp only
        split <;> rfl
      · rw [Step.bind_apply, Step.get_apply]
        dsimp only
        split
        · exact hm.get scope name
        · trivial
  | _ => exact .fail _

/-- Under lexical scoping the scope of a call fits the sites of the body. -/
theorem places_enterFunction (hlexical : setting.lexical = true)
    {c : Closure} (hc : c.Placed programs m.store) {vs : List Value}
    (hvs : PlacedValues programs vs m.store) (scope : ScopeId) :
    Places programs
      (fun frame store => ∀ i, store.Fits programs frame (c.site.child i))
      (enterFunction setting c vs scope) m := by
  have hparent : (if setting.lexical then c.scope else scope) = c.scope := by
    rw [hlexical]
    rfl
  have henter : Places programs (fun _ _ => True)
      (enterFunction setting c vs scope) m := by
    refine .bind (.newScope _) fun frame m₁ hgrows _ => ?_
    refine .bind (.bindParams frame c.params fun v hv =>
      (hvs v hv).grow hgrows) fun _ m₂ _ _ => ?_
    exact .pure trivial
  refine henter.of_done fun frame m' hdone i => ?_
  obtain ⟨hlt, hdepth⟩ :=
    depth_enterFunction hparent hc.fits.scope_lt hdone
  refine ⟨hlt, ?_⟩
  rw [hdepth, hc.fits.depth_eq, Site.nesting_child hc.node?_eq]
  rfl

theorem Closure.Placed.body {c : Closure} (h : c.Placed programs m.store) :
    RowStands programs c.site 0 c.body :=
  Stands.children ⟨Site.isStatement_of_define h.node?_eq, h.node?_eq⟩

end

/-! ## Evaluation -/

/-- Every node of a program, in a scope that fits its site, keeps functions
placed when evaluations nest at most `limit` deep. -/
def PlacingLaw (programs : Programs) (setting : Setting) (limit : Nat) :
    Prop :=
  ∀ (node : Node) (site : Site) (scope : ScopeId) (m : Machine),
    Stands programs site node → m.store.Fits programs scope site →
    Places programs (Value.Placed programs)
      (evaluate setting limit node site scope) m

section

variable {programs : Programs} {setting : Setting} {limit : Nat}

theorem PlacingLaw.evaluator (h : PlacingLaw programs setting limit)
    (site : Site) (scope : ScopeId) : PlacesEvaluator programs site scope
      fun i node => evaluate setting limit node (site.child i) scope :=
  fun i node => h node (site.child i) scope

theorem places_callValue (hlexical : setting.lexical = true)
    (hhost : setting.host = []) (ih : PlacingLaw programs setting limit)
    {f : Value} {vs : List Value} (scope : ScopeId) {m : Machine}
    (hf : f.Placed programs m.store) (hvs : PlacedValues programs vs m.store) :
    Places programs (Value.Placed programs)
      (callValue setting limit f vs scope) m := by
  cases f with
  | function c =>
      have hc := hf c rfl
      refine .bind (places_enterFunction hlexical hc hvs scope)
        fun frame m₁ _ hfits => ?_
      exact places_evalLast (ih.evaluator c.site frame) hc.body hfits .nil
  | builtin b =>
      refine .of_leaves (leaves_callBuiltin setting b vs m) fun _ => ?_
      exact (ensures_callBuiltin hhost b vs m).imp (fun _ _ h => .of_ne h)
        fun _ _ _ => trivial
  | _ => exact .fail _

theorem places_prepareCall (law : PlacingLaw programs setting limit)
    (callee : Node) {args : List Node} {site : Site} {scope : ScopeId}
    {m : Machine} (hargs : RowStands programs site 0 args)
    (hfits : ∀ i, m.store.Fits programs scope (site.child i)) :
    Places programs
      (fun call store => call.1.Placed programs store ∧
        PlacedValues programs call.2 store)
      (prepareCall setting limit callee args site scope) m := by
  refine .bind (places_evalEach (law.evaluator site scope) hargs hfits)
    fun vs m₁ _ hvs => ?_
  refine .bind (places_resolveCallee callee scope) fun f m₂ hgrows hf => ?_
  refine .bind (.record setting 3 _) fun _ m₃ hgrows' _ => ?_
  exact .pure ⟨Value.Placed.grow hf hgrows',
    fun v hv => (hvs v hv).grow (hgrows.trans hgrows')⟩

/-- Under lexical scoping statements of loaded programs keep functions
placed. -/
theorem placingLaw (programs : Programs) {setting : Setting}
    (hlexical : setting.lexical = true) (hhost : setting.host = [])
    (limit : Nat) : PlacingLaw programs setting limit := by
  induction limit with
  | zero => exact fun _ _ _ _ _ _ => .fail _
  | succ limit ih =>
      intro node site scope m hstands hfits
      have hrow := hstands.children
      cases node with
      | number text =>
          obtain ⟨x, hx⟩ : ∃ x, evalLiteral text = .ok (.number x) := by
            cases hstands.isStatement with
            | expression he =>
                cases he with
                | number htext => exact evalLiteral_of_isNumeral htext
          rw [evaluate, hx]
          exact .pure (.number x)
      | identifier json =>
          rw [evaluate]
          refine .nameOf_bind fun name => ?_
          exact .of_leaves rfl fun hm => hm.get scope name
      | binary operator left right =>
          have hchild := hfits.child hstands.node?_eq rfl
          rw [evaluate]
          refine .bind (ih left _ scope m hrow.head (hchild 0))
            fun a m₁ hgrows _ => ?_
          refine .bind (ih right _ scope m₁ hrow.tail.head
            ((hchild 1).grow hgrows)) fun b m₂ _ _ => ?_
          refine .of_leaves (Step.leaves_lift rfl) fun _ => ?_
          cases hresult : applyOperator operator a b with
          | error f => trivial
          | ok v =>
              obtain ⟨z, rfl⟩ := eq_number_of_applyOperator hresult
              exact .number z
      | assign json value =>
          have hchild := hfits.child hstands.node?_eq rfl
          rw [evaluate]
          refine .bind (ih value _ scope m hrow.head (hchild 0))
            fun v m₁ _ hv => ?_
          refine .nameOf_bind fun name => ?_
          refine .bind (.bindName scope name hv) fun _ m₂ hgrows _ => ?_
          refine .get_bind ?_
          refine .bind (.record setting 2 _) fun _ m₃ hgrows' _ => ?_
          exact .pure (Value.Placed.grow hv (hgrows.trans hgrows'))
      | define json params body =>
          have hplaced : Value.Placed programs
              (.function ⟨json, params, body, scope, site⟩) m.store := by
            rintro c ⟨rfl⟩
            exact ⟨hstands.node?_eq, hfits⟩
          rw [evaluate]
          refine .nameOf_bind fun name => ?_
          refine .bind (.bindName scope name hplaced) fun _ m₁ hgrows _ => ?_
          refine .bind (.record setting 2 _) fun _ m₂ hgrows' _ => ?_
          exact .pure (hplaced.grow (hgrows.trans hgrows'))
      | call callee args =>
          rw [evaluate_call]
          refine .bind (places_prepareCall ih callee hrow
            (hfits.child hstands.node?_eq rfl)) ?_
          rintro ⟨f, vs⟩ m₁ _ ⟨hf, hvs⟩
          refine .bind (places_callValue hlexical hhost ih scope hf hvs)
            fun v m₂ _ hv => ?_
          refine .bind (.record setting 3 _) fun _ m₃ hgrows _ => ?_
          exact .pure (Value.Placed.grow hv hgrows)
      | sequence items =>
          rw [evaluate]
          exact .fail _

end

end Scriptlet
