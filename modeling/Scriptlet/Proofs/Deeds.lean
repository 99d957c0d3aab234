import Scriptlet.Proofs.Courses
import Scriptlet.Tree.Codec

/-!
# What is done in a session

Whoever uses a session (`Client`) parses texts and decodes trees, keeps what
comes of it, and runs and evaluates any part of that, as often as they like,
in any scope and in any order (`Deed`). What is to be run is named by its
place: the number of the text or tree, and the nodes that lead there. So a
program can be run twice, a statement of it by itself, or a row of nodes from
several texts; to run a text is to parse it and to run its statements
(`Client.doing_parse_run`).

A node that is run or evaluated at the top has a turn (`Turn`). All that
happens to the machine in a session is that turns are taken one after the
other (`Turns`, `Client.turns_doingAll`). The evaluations of a session are
those of its turns and all that are made within them (`Client.Evaluates`).
-/

namespace Scriptlet

/-! ## Places -/

/-- The nodes right below a node. Behind the arguments of a call comes its
callee, which has a site of its own only if it is evaluated by itself. -/
def Node.branches : Node → List Node
  | .call callee args => args ++ [callee]
  | node => node.children

theorem Node.branches_of_children {node child : Node} {i : Nat}
    (h : node.children[i]? = some child) : node.branches[i]? = some child := by
  cases node with
  | call callee args =>
      have hi := (List.getElem?_eq_some_iff.mp h).1
      exact (List.getElem?_append_left hi).trans h
  | _ => exact h

namespace Tree

/-- The part of a tree at the end of a path, whose last step comes first. -/
def part? (tree : Tree) : List Nat → Option Tree
  | [] => some tree
  | i :: path => (tree.part? path).bind fun part =>
    part.node.branches[i]?.map (⟨part.site.child i, ·⟩)

/-- What stands at a place of the trees that were loaded. -/
def at? (loaded : List Tree) (place : Site) : Option Tree :=
  loaded[place.unit]?.bind (·.part? place.path)

section

variable {loaded : List Tree} {place : Site} {tree : Tree}

theorem at?_child {child : Node} {i : Nat} (h : at? loaded place = some tree)
    (hchild : tree.node.children[i]? = some child) :
    at? loaded (place.child i) = some ⟨tree.site.child i, child⟩ := by
  obtain ⟨root, hroot, hpart⟩ := Option.bind_eq_some_iff.mp h
  unfold at? Site.child part?
  rw [hroot, Option.bind_some, hpart, Option.bind_some,
    Node.branches_of_children hchild]
  rfl

theorem at?_append (h : at? loaded place = some tree) (more : List Tree) :
    at? (loaded ++ more) place = some tree := by
  obtain ⟨root, hroot, hpart⟩ := Option.bind_eq_some_iff.mp h
  have hlt := (List.getElem?_eq_some_iff.mp hroot).1
  unfold at?
  rw [List.getElem?_append_left hlt, hroot, Option.bind_some, hpart]

/-- If the roots have the sites of their numbers, every part has the site of
its place. -/
theorem site_of_at?
    (hroots : ∀ (i : Nat) root, loaded[i]? = some root → root.site = ⟨i, []⟩)
    (h : at? loaded place = some tree) : tree.site = place := by
  obtain ⟨unit, path⟩ := place
  obtain ⟨root, hroot, hpart⟩ := Option.bind_eq_some_iff.mp h
  have hsite := hroots unit root hroot
  clear h hroot
  dsimp only at hpart
  induction path generalizing tree with
  | nil => rw [← Option.some.inj hpart, hsite]
  | cons i path ih =>
      obtain ⟨part, hpath, hlast⟩ := Option.bind_eq_some_iff.mp hpart
      obtain ⟨node, -, rfl⟩ := Option.map_eq_some_iff.mp hlast
      exact congrArg (Site.child · i) (ih hpath)

theorem of_mem_row {site : Site} {nodes : List Node}
    (h : tree ∈ row site nodes) :
    ∃ i : Nat, nodes[i]? = some tree.node ∧ tree.site = site.child i := by
  obtain ⟨⟨node, i⟩, hentry, rfl⟩ := List.mem_map.mp h
  exact ⟨i, List.mem_zipIdx_iff_getElem?.mp hentry, rfl⟩

end

end Tree

/-! ## Turns -/

/-- A node that is evaluated at the top: the place that was named, what stands
there, and the scope and the state it is evaluated in. -/
structure Turn where
  place : Site
  tree : Tree
  scope : ScopeId
  machine : Machine

def Turn.visit (setting : Setting) (t : Turn) : Visit :=
  ⟨setting.limit, t.tree.node, t.tree.site, t.scope, t.machine⟩

/-- The turns when nodes are run. Behind a failure there are none. -/
def rowTurns (setting : Setting) (scope : ScopeId) :
    List (Site × Tree) → Machine → List Turn
  | [], _ => []
  | entry :: rest, m =>
    ⟨entry.1, entry.2, scope, m⟩ ::
      match runStatement setting scope entry.2 m with
      | .done _ m' => rowTurns setting scope rest m'
      | .failed _ _ => []

/-- How the machine can change when nothing is evaluated: quietly, and by one
scope at most. -/
structure Machine.Idle (m m' : Machine) : Prop where
  quiet : m.Quiet m'
  store : m'.store = m.store ∨
    ∃ parent, m'.store = (m.store.add (some parent)).2

/-- How the machine comes from one state to another by turns. -/
inductive Turns (setting : Setting) : Machine → List Turn → Machine → Prop
  | nil (m : Machine) : Turns setting m [] m
  | idle {m m₁ m' : Machine} {turns : List Turn} : m.Idle m₁ →
      Turns setting m₁ turns m' → Turns setting m turns m'
  | turn {t : Turn} {turns : List Turn} {m' : Machine} :
      Turns setting ((t.visit setting).outcome setting).state turns m' →
      Turns setting t.machine (t :: turns) m'

section

variable {setting : Setting} {scope : ScopeId}

theorem Turns.append {m₁ m₂ m₃ : Machine} {turns turns' : List Turn}
    (h : Turns setting m₁ turns m₂) (h' : Turns setting m₂ turns' m₃) :
    Turns setting m₁ (turns ++ turns') m₃ := by
  induction h with
  | nil => exact h'
  | idle hidle _ ih => exact .idle hidle (ih h')
  | turn _ ih => exact .turn (ih h')

/-- Tracing a statement is idle. -/
theorem idle_traceStatement (setting : Setting) (form : String) (v : Value)
    (m : Machine) :
    m.Idle ((do
      Eval.record setting 1 fun _ => do
        return .statement form (← traceValue v)
      return v : Eval Value) m).state := by
  have hrecord : Quietly (Eval.record setting 1 fun _ => do
      return .statement form (← traceValue v)) := by
    refine .record setting 1 fun e he => ?_
    obtain ⟨text, -, he⟩ := eq_ok_of_bind he
    cases he
    exact (by decide : 1 < 3)
  refine ⟨?_, .inl (Eval.store_record_return setting 1 _ v m)⟩
  rw [Step.state_bind_pure]
  exact Outcome.leaves_iff.mp (hrecord m)

theorem turns_rowTurns (entries : List (Site × Tree)) (last : Value)
    (m : Machine) :
    Turns setting m (rowTurns setting scope entries m)
      (runTrees setting scope last (entries.map Prod.snd) m).state := by
  induction entries generalizing last m with
  | nil => exact .nil m
  | cons entry rest ih =>
      rw [List.map_cons, runTrees, Step.bind_apply]
      unfold rowTurns
      refine Turns.turn (t := ⟨entry.1, entry.2, scope, m⟩) ?_
      show Turns setting (evaluate setting setting.limit entry.2.node
        entry.2.site scope m).state _ _
      unfold runStatement
      rw [Step.bind_apply]
      cases evaluate setting setting.limit entry.2.node entry.2.site scope
        m with
      | failed f m₁ => exact .nil m₁
      | done v m₁ =>
          refine .idle (idle_traceStatement setting entry.2.node.form v m₁) ?_
          dsimp only
          cases ((do
            Eval.record setting 1 fun _ => do
              return .statement entry.2.node.form (← traceValue v)
            return v : Eval Value) m₁) with
          | done r m₂ => exact ih r m₂
          | failed f m₂ => exact .nil m₂

theorem of_mem_rowTurns {entries : List (Site × Tree)} {m : Machine}
    {t : Turn} (h : t ∈ rowTurns setting scope entries m) :
    (t.place, t.tree) ∈ entries := by
  induction entries generalizing m with
  | nil => exact absurd h List.not_mem_nil
  | cons entry rest ih =>
      unfold rowTurns at h
      rcases List.mem_cons.mp h with rfl | h
      · exact List.mem_cons_self
      · split at h
        · exact List.mem_cons_of_mem _ (ih h)
        · exact absurd h List.not_mem_nil

end

/-! ## Deeds -/

inductive Deed where
  /-- The program of a text is loaded. -/
  | parse (source : String)
  /-- The first statement of a text is loaded. -/
  | parseFirst (source : String)
  /-- A tree, or a list of trees, is loaded. -/
  | decode (json : Json)
  /-- The nodes at some places are run in this order. -/
  | run (places : List Site) (scope : ScopeId)
  /-- The node at a place is evaluated. -/
  | evaluate (place : Site) (scope : ScopeId)
  /-- A scope is made inside another one. -/
  | newScope (parent : ScopeId)

/-- What a deed loads, unless a text does not parse or a tree has the wrong
form. -/
def Deed.load? (limit : Nat) : Deed → Option Node
  | .parse source => (parseProgram limit source).toOption.map .sequence
  | .parseFirst source => (parseStatement limit source).toOption
  | .decode json => (Node.ofJson json).toOption
  | _ => none

/-- A session together with what was loaded in it, in this order. -/
structure Client where
  session : Session
  loaded : List Tree

theorem eq_ok_of_toOption {ε α : Type} {result : Except ε α} {a : α}
    (h : result.toOption = some a) : result = .ok a := by
  cases result with
  | error e => cases h
  | ok a' => exact congrArg Except.ok (Option.some.inj h)

theorem eq_error_of_toOption {ε α : Type} {result : Except ε α}
    (h : result.toOption = none) : ∃ e, result = .error e := by
  cases result with
  | error e => exact ⟨e, rfl⟩
  | ok a => cases h

namespace Session

variable {s : Session} {source : String}

theorem loadStatement_of_error {e : ParseFailure}
    (h : parseStatement s.setting.limit source = .error e) :
    loadStatement source s = .failed (Failure.ofParse e) s := by
  unfold loadStatement
  rw [Step.bind_apply, Step.get_apply]
  dsimp only
  rw [h]
  rfl

theorem loadStatement_of_ok {node : Node}
    (h : parseStatement s.setting.limit source = .ok node) :
    loadStatement source s =
      .done ⟨⟨s.units, []⟩, node⟩ { s with units := s.units + 1 } := by
  unfold loadStatement
  rw [Step.bind_apply, Step.get_apply]
  dsimp only
  rw [h]
  rfl

theorem perform_state {α : Type} (action : Setting → Eval α) (s : Session) :
    (perform action s).state =
      { s with machine := (action s.setting s.machine).state } := by
  unfold perform
  cases action s.setting s.machine <;> rfl

end Session

namespace Client

def start (session : Session) : Client := ⟨session, []⟩

def keeping {α : Type} (c : Client) (act : Act α) (root : α → Tree) :
    Client :=
  match act c.session with
  | .done a s => ⟨s, c.loaded ++ [root a]⟩
  | .failed _ s => ⟨s, c.loaded⟩

/-- The client after an act of the session, whether it failed or not. -/
def after {α : Type} (c : Client) (act : Act α) : Client :=
  { c with session := (act c.session).state }

/-- What stands at some places. Where nothing stands nothing is taken. -/
def entries (c : Client) (places : List Site) : List (Site × Tree) :=
  places.filterMap fun place => (Tree.at? c.loaded place).map (place, ·)

def doing (c : Client) : Deed → Client
  | .parse source =>
    c.keeping (Session.loadProgram source) fun program =>
      ⟨program.site, .sequence program.statements⟩
  | .parseFirst source => c.keeping (Session.loadStatement source) id
  | .decode json =>
    match Node.ofJson json with
    | .ok node => c.keeping (Session.loadNode node) id
    | .error _ => c
  | .run places scope =>
    c.after (Session.runTrees ((c.entries places).map Prod.snd) scope)
  | .evaluate place scope =>
    match Tree.at? c.loaded place with
    | some tree => c.after (Session.evaluateTree tree scope)
    | none => c
  | .newScope parent => c.after (Session.newScope parent)

/-- The client when deeds are done one after the other. -/
def doingAll (c : Client) (deeds : List Deed) : Client :=
  deeds.foldl doing c

def turnsOf (c : Client) : Deed → List Turn
  | .run places scope =>
    rowTurns c.session.setting scope (c.entries places) c.session.machine
  | .evaluate place scope =>
    match Tree.at? c.loaded place with
    | some tree => [⟨place, tree, scope, c.session.machine⟩]
    | none => []
  | _ => []

def turns : Client → List Deed → List Turn
  | _, [] => []
  | c, deed :: rest => c.turnsOf deed ++ (c.doing deed).turns rest

/-- The evaluation is one of those that are made when the deeds are done. -/
def Evaluates (c : Client) (deeds : List Deed) (v : Visit) : Prop :=
  ∃ t ∈ c.turns deeds,
    Visits c.session.setting (t.visit c.session.setting) v

section

variable {c : Client} {deed : Deed}

/-! ## What a deed does -/

/-- A deed that loads something keeps it under the next number, and does
nothing else. -/
theorem doing_of_load {node : Node}
    (h : deed.load? c.session.setting.limit = some node) :
    c.doing deed = ⟨{ c.session with units := c.session.units + 1 },
      c.loaded ++ [⟨⟨c.session.units, []⟩, node⟩]⟩ ∧ c.turnsOf deed = [] := by
  refine ⟨?_, by cases deed <;> first | rfl | cases h⟩
  cases deed with
  | parse source =>
      obtain ⟨statements, hparse, rfl⟩ := Option.map_eq_some_iff.mp h
      rw [doing, keeping, Session.loadProgram_of_ok (eq_ok_of_toOption hparse)]
  | parseFirst source =>
      rw [doing, keeping, Session.loadStatement_of_ok (eq_ok_of_toOption h)]
      rfl
  | decode json =>
      rw [doing, eq_ok_of_toOption h]
      rfl
  | run | evaluate | newScope => cases h

theorem doing_evaluate {place : Site} {tree : Tree} {scope : ScopeId}
    (h : Tree.at? c.loaded place = some tree) :
    c.doing (.evaluate place scope) =
      c.after (Session.evaluateTree tree scope) := by
  rw [doing, h]

/-- A deed that loads nothing changes the machine at most, and its turns tell
how. -/
theorem doing_of_none (h : deed.load? c.session.setting.limit = none) :
    ∃ m, c.doing deed = { c with session.machine := m } ∧
      Turns c.session.setting c.session.machine (c.turnsOf deed) m := by
  cases deed with
  | parse source =>
      obtain ⟨e, hparse⟩ :=
        eq_error_of_toOption (Option.map_eq_none_iff.mp h)
      refine ⟨c.session.machine, ?_, .nil _⟩
      rw [doing, keeping, Session.loadProgram_of_error hparse]
  | parseFirst source =>
      obtain ⟨e, hparse⟩ := eq_error_of_toOption h
      refine ⟨c.session.machine, ?_, .nil _⟩
      rw [doing, keeping, Session.loadStatement_of_error hparse]
  | decode json =>
      obtain ⟨e, hjson⟩ := eq_error_of_toOption h
      refine ⟨c.session.machine, ?_, .nil _⟩
      rw [doing, hjson]
  | run places scope =>
      refine ⟨_, ?_, turns_rowTurns (c.entries places) .nil _⟩
      rw [doing, after, Session.runTrees, Session.perform_state]
  | evaluate place scope =>
      cases hat : Tree.at? c.loaded place with
      | none =>
          refine ⟨c.session.machine, ?_, ?_⟩
          · rw [doing, hat]
          · rw [turnsOf, hat]
            exact .nil _
      | some tree =>
          refine ⟨((Turn.visit c.session.setting ⟨place, tree, scope,
            c.session.machine⟩).outcome c.session.setting).state, ?_, ?_⟩
          · rw [doing_evaluate hat, after, Session.evaluateTree,
              Session.perform_state]
            rfl
          · rw [turnsOf, hat]
            exact Turns.turn (t := ⟨place, tree, scope, c.session.machine⟩)
              (.nil _)
  | newScope parent =>
      refine ⟨{ c.session.machine with
        store := (c.session.machine.store.add (some parent)).2 }, rfl, ?_⟩
      refine .idle ?_ (.nil _)
      exact ⟨.of_trace_eq rfl rfl rfl, .inr ⟨parent, rfl⟩⟩

theorem setting_doing (c : Client) (deed : Deed) :
    (c.doing deed).session.setting = c.session.setting := by
  cases h : deed.load? c.session.setting.limit with
  | some node => rw [(doing_of_load h).1]
  | none =>
      obtain ⟨m, hdoing, -⟩ := doing_of_none h
      rw [hdoing]

/-- The machine comes by turns to where it is in the end. -/
theorem turns_doingAll (c : Client) (deeds : List Deed) :
    Turns c.session.setting c.session.machine (c.turns deeds)
      (c.doingAll deeds).session.machine := by
  induction deeds generalizing c with
  | nil => exact .nil _
  | cons deed rest ih =>
      have hrest := ih (c.doing deed)
      rw [setting_doing] at hrest
      refine .append ?_ hrest
      cases h : deed.load? c.session.setting.limit with
      | some node =>
          obtain ⟨hdoing, hturns⟩ := doing_of_load h
          rw [hdoing, hturns]
          exact .nil _
      | none =>
          obtain ⟨m, hdoing, hturns⟩ := doing_of_none h
          rw [hdoing]
          exact hturns

/-! ## What was loaded -/

theorem loaded_doing (c : Client) (deed : Deed) :
    ∃ more, (c.doing deed).loaded = c.loaded ++ more ∧
      more.map Tree.node =
        (deed.load? c.session.setting.limit).toList := by
  cases h : deed.load? c.session.setting.limit with
  | some node =>
      rw [(doing_of_load h).1]
      exact ⟨[_], rfl, rfl⟩
  | none =>
      obtain ⟨m, hdoing, -⟩ := doing_of_none h
      rw [hdoing]
      exact ⟨[], (List.append_nil _).symm, rfl⟩

/-- What was loaded stays, and behind it comes what the deeds load, each text
and tree once. -/
theorem loaded_doingAll (c : Client) (deeds : List Deed) :
    ∃ more, (c.doingAll deeds).loaded = c.loaded ++ more ∧
      more.map Tree.node =
        deeds.filterMap (Deed.load? c.session.setting.limit) := by
  induction deeds generalizing c with
  | nil => exact ⟨[], (List.append_nil _).symm, rfl⟩
  | cons deed rest ih =>
      obtain ⟨first, hfirst, hnodes⟩ := c.loaded_doing deed
      obtain ⟨more, hmore, hnodes'⟩ := ih (c.doing deed)
      rw [setting_doing] at hnodes'
      refine ⟨first ++ more, ?_, ?_⟩
      · rw [← List.append_assoc, ← hfirst]
        exact hmore
      · rw [List.map_append, hnodes, hnodes', List.filterMap_cons]
        cases deed.load? c.session.setting.limit <;> rfl

/-- The roots have the sites of their numbers, and the next number comes
next. -/
structure Numbered (c : Client) : Prop where
  sites : ∀ (i : Nat) root, c.loaded[i]? = some root → root.site = ⟨i, []⟩
  units_eq : c.session.units = c.loaded.length

theorem numbered_start {session : Session} (h : session.units = 0) :
    (start session).Numbered :=
  ⟨fun _ _ hroot => absurd hroot (Option.some_ne_none _).symm, h⟩

theorem Numbered.doing (h : c.Numbered) (deed : Deed) :
    (c.doing deed).Numbered := by
  cases hload : deed.load? c.session.setting.limit with
  | some node =>
      rw [(doing_of_load hload).1]
      refine ⟨fun i root hroot => ?_, ?_⟩
      · dsimp only at hroot
        rw [h.units_eq, List.getElem?_append] at hroot
        split at hroot
        · exact h.sites i root hroot
        · obtain ⟨hi, rfl⟩ := List.getElem?_eq_some_iff.mp hroot
          have hi : i = c.loaded.length := by
            rw [List.length_singleton] at hi
            omega
          rw [List.getElem_singleton, hi]
      · show c.session.units + 1 = (c.loaded ++ [_]).length
        rw [h.units_eq, List.length_append, List.length_singleton]
  | none =>
      obtain ⟨m, hdoing, -⟩ := doing_of_none hload
      rw [hdoing]
      exact ⟨h.sites, h.units_eq⟩

theorem Numbered.doingAll (h : c.Numbered) (deeds : List Deed) :
    (c.doingAll deeds).Numbered := by
  induction deeds generalizing c with
  | nil => exact h
  | cons deed rest ih => exact ih (h.doing deed)

theorem mem_entries {places : List Site} {entry : Site × Tree} :
    entry ∈ c.entries places ↔
      entry.1 ∈ places ∧ Tree.at? c.loaded entry.1 = some entry.2 := by
  unfold entries
  simp only [List.mem_filterMap, Option.map_eq_some_iff]
  constructor
  · rintro ⟨place, hplace, tree, hat, rfl⟩
    exact ⟨hplace, hat⟩
  · rintro ⟨hplace, hat⟩
    exact ⟨entry.1, hplace, entry.2, hat, rfl⟩

theorem at?_of_turnsOf {t : Turn} (h : t ∈ c.turnsOf deed) :
    Tree.at? c.loaded t.place = some t.tree := by
  cases deed with
  | run places scope => exact (mem_entries.mp (of_mem_rowTurns h)).2
  | evaluate place scope =>
      rw [turnsOf] at h
      split at h
      · rw [List.mem_singleton.mp h]
        assumption
      · exact absurd h List.not_mem_nil
  | parse | parseFirst | decode | newScope => exact absurd h List.not_mem_nil

/-- What has a turn stands at the place that was named. -/
theorem at?_of_turns {deeds : List Deed} {t : Turn}
    (h : t ∈ c.turns deeds) :
    Tree.at? (c.doingAll deeds).loaded t.place = some t.tree := by
  induction deeds generalizing c with
  | nil => exact absurd h List.not_mem_nil
  | cons deed rest ih =>
      rcases List.mem_append.mp h with h | h
      · obtain ⟨more, hmore, -⟩ := c.loaded_doing deed
        obtain ⟨later, hlater, -⟩ := (c.doing deed).loaded_doingAll rest
        show Tree.at? ((c.doing deed).doingAll rest).loaded _ = _
        rw [hlater, hmore]
        exact Tree.at?_append (Tree.at?_append (at?_of_turnsOf h) more) later
      · exact ih h

/-! ## Texts are run by deeds -/

theorem entries_sites {trees : List Tree}
    (h : ∀ tree ∈ trees, Tree.at? c.loaded tree.site = some tree) :
    (c.entries (trees.map Tree.site)).map Prod.snd = trees := by
  have hentries : c.entries (trees.map Tree.site) =
      trees.map fun tree => (tree.site, tree) := by
    unfold entries
    rw [List.filterMap_map]
    refine List.filterMap_eq_map_iff_forall_eq_some.mpr fun tree htree => ?_
    rw [Function.comp_apply, h tree htree]
    rfl
  rw [hentries, List.map_map]
  exact List.map_id trees

/-- To run a text is to parse it and to run its statements. -/
theorem doing_parse_run (h : c.Numbered) {source : String}
    {statements : List Node} (scope : ScopeId)
    (hparse : parseProgram c.session.setting.limit source =
      .ok statements) :
    let places := (Tree.row ⟨c.loaded.length, []⟩ statements).map Tree.site
    (c.doingAll [.parse source, .run places scope]).session =
      (Session.runSource source scope c.session).state := by
  intro places
  have hload : (Deed.parse source).load? c.session.setting.limit =
      some (.sequence statements) := by
    rw [Deed.load?, hparse]
    rfl
  have hentries : ((c.doing (.parse source)).entries places).map Prod.snd =
      Tree.row ⟨c.loaded.length, []⟩ statements := by
    refine entries_sites fun tree htree => ?_
    obtain ⟨i, hnode, hsite⟩ := Tree.of_mem_row htree
    have hroot : Tree.at? (c.doing (.parse source)).loaded
        ⟨c.loaded.length, []⟩ =
          some ⟨⟨c.loaded.length, []⟩, .sequence statements⟩ := by
      rw [(doing_of_load hload).1, h.units_eq]
      simp [Tree.at?, Tree.part?]
    rw [hsite, Tree.at?_child hroot hnode, ← hsite]
  show (Session.runTrees (((c.doing (.parse source)).entries places).map
    Prod.snd) scope (c.doing (.parse source)).session).state = _
  rw [hentries, (doing_of_load hload).1, ← h.units_eq,
    Session.runSource_of_ok hparse]
  rfl

/-- To evaluate the first statement of a text is to parse it and to evaluate
what that gives. -/
theorem doing_parseFirst_evaluate (h : c.Numbered) {source : String}
    {node : Node} (scope : ScopeId)
    (hparse : parseStatement c.session.setting.limit source = .ok node) :
    (c.doingAll [.parseFirst source,
      .evaluate ⟨c.loaded.length, []⟩ scope]).session =
      (Session.evaluateSource source scope c.session).state := by
  have hload : (Deed.parseFirst source).load? c.session.setting.limit =
      some node := by
    rw [Deed.load?, hparse]
    rfl
  have hroot : Tree.at? (c.doing (.parseFirst source)).loaded
      ⟨c.loaded.length, []⟩ = some ⟨⟨c.loaded.length, []⟩, node⟩ := by
    rw [(doing_of_load hload).1, h.units_eq]
    simp [Tree.at?, Tree.part?]
  show ((c.doing (.parseFirst source)).doing (.evaluate _ _)).session = _
  rw [doing_evaluate hroot, (doing_of_load hload).1, ← h.units_eq]
  unfold Session.evaluateSource
  rw [Step.bind_apply, Session.loadStatement_of_ok hparse]
  rfl

end

end Client

end Scriptlet
