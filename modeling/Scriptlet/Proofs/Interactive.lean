import Scriptlet.Proofs.Transcripts

/-!
# Interactive sessions

In a session in which texts are run and executed, one after the other, the
scopes stay safe (`Session.Interactive.safe`). What is new over running
texts is that the shell evaluates the statements in front of a syntax error:
they are loaded as a program of their own (`Programs.loading`), and all of
them are well-formed because each was read from tokens as the scanner makes
them. So what a text comes to in the shell is a transcript of expected
entries: every value can be printed, and every fault is one that programs
have (`Session.Safe.transcript`).
-/

namespace Scriptlet

/-! ## Statements that were read -/

theorem Parse.of_nextStatement {limit : Nat} {c c' : Cursor} {node : Node}
    (h : nextStatement limit c = .done (some node) c') :
    ∃ c₁, skipSeparators c = .done () c₁ ∧
      statement c₁.fuel limit c₁ = .done node c' := by
  obtain ⟨_, c₁, hskip, h⟩ := Step.bind_eq_done_iff.mp h
  obtain ⟨_, _, hget, h⟩ := Step.bind_eq_done_iff.mp h
  cases hget
  split at h
  · cases h
  · obtain ⟨_, _, hstatement, h⟩ := Step.bind_eq_done_iff.mp h
    cases h
    exact ⟨c₁, hskip, hstatement⟩

theorem Reading.isStatement_fromCursor {limit count : Nat} {c : Cursor}
    {ts : List Token} (hc : c.Sees ts) (hts : Grammar.LexicalRow ts) :
    ∀ node ∈ (fromCursor limit count c).statements, IsStatement node := by
  induction count generalizing c ts with
  | zero => exact fun _ h => (List.not_mem_nil h).elim
  | succ count ih =>
      rw [fromCursor]
      cases hnext : Parse.nextStatement limit c with
      | failed e c' => exact fun _ h => (List.not_mem_nil h).elim
      | done node? c' =>
          cases node? with
          | none => exact fun _ h => (List.not_mem_nil h).elim
          | some node =>
              obtain ⟨c₁, hskip, hstatement⟩ := Parse.of_nextStatement hnext
              obtain ⟨mid, hc₁, hseps⟩ := Parse.separators_sound hc hskip
              obtain ⟨rest, hc', hderived⟩ :=
                (Parse.sound c₁.fuel).statement limit hc₁ hstatement
              obtain ⟨hnode, hrest⟩ :=
                hderived.wellFormed (hseps.lexicalRow hts)
              exact List.forall_mem_cons.mpr ⟨hnode, ih hc' hrest⟩

/-- The statements that are read from a text are well-formed, also if there
is a syntax error behind them. -/
theorem Reading.isStatement_ofText (limit : Nat) (source : String) :
    ∀ node ∈ (ofText limit source).statements, IsStatement node := by
  unfold ofText
  cases hcursor : Cursor.ofText source with
  | error e => exact fun _ h => (List.not_mem_nil h).elim
  | ok c =>
      exact isStatement_fromCursor (Cursor.sees_ofText hcursor)
        (Stream.lexical_scan _ _ _)

/-- The programs together with the statements that are read from a text. -/
def Programs.loading (limit : Nat) (programs : Programs) (source : String) :
    Programs where
  loaded := programs.loaded ++ [(Reading.ofText limit source).statements]
  isStatement := by
    intro statements hmem
    rcases List.mem_append.mp hmem with hmem | hmem
    · exact programs.isStatement statements hmem
    · rw [List.mem_singleton.mp hmem]
      exact Reading.isStatement_ofText limit source

theorem Programs.rowStands_loading (limit : Nat) (programs : Programs)
    (source : String) :
    RowStands (programs.loading limit source) ⟨programs.loaded.length, []⟩ 0
      (Reading.ofText limit source).statements :=
  rowStands_of_loaded List.getElem?_concat_length

/-! ## Transcripts of programs -/

/-- The entry is one that a statement of a text can come to. -/
structure Entry.Expected (entry : Entry) : Prop where
  renders : entry.Renders
  fault : ∀ f, entry.result = .error f → f.Expected

/-- All entries are expected, and the scopes are safe at the end. -/
structure Transcript.Safe (programs : Programs) (size : Nat)
    (t : Transcript) : Prop where
  store : t.machine.store.Safe programs
  size_le : size ≤ t.machine.store.size
  expected : ∀ entry ∈ t.entries, entry.Expected

theorem transcript_safe {programs : Programs} {setting : Setting}
    {site : Site} {index : Nat} {nodes : List Node} {m : Machine}
    (hrow : RowStands programs site index nodes)
    (hscope : Machine.globalScope < m.store.size)
    (hm : m.store.Safe programs) :
    (transcript setting site index nodes m).Safe programs m.store.size := by
  induction nodes generalizing index m with
  | nil => exact ⟨hm, Nat.le_refl _, fun _ h => (List.not_mem_nil h).elim⟩
  | cons node rest ih =>
      have hsafe := safeLaw programs setting setting.limit node _
        Machine.globalScope m.blank hrow.head hscope hm
      cases heval : evaluate setting setting.limit node (site.child index)
        Machine.globalScope m.blank with
      | failed f m' =>
          have hframe := (frameLaw setting setting.limit node
            (site.child index) Machine.globalScope m.blank).frame
          rw [heval] at hsafe hframe
          rw [transcript_of_failed heval]
          refine ⟨hsafe.1, hframe.size_le, ?_⟩
          refine List.forall_mem_cons.mpr ⟨⟨?_, ?_⟩, ?_⟩
          · intro v hv
            cases hv
          · intro g hg
            cases hg
            exact hsafe.2
          · exact fun _ h => (List.not_mem_nil h).elim
      | done v m' =>
          rw [heval] at hsafe
          obtain ⟨hm', hle, hv⟩ := hsafe
          have hrest := ih hrow.tail (Nat.lt_of_lt_of_le hscope hle) hm'
          rw [transcript_of_done heval]
          refine ⟨hrest.store, Nat.le_trans hle hrest.size_le, ?_⟩
          refine List.forall_mem_cons.mpr ⟨⟨?_, ?_⟩, hrest.expected⟩
          · intro w hw
            cases hw
            exact Value.Safe.display? hv
          · intro f hf
            cases hf

theorem Transcript.Safe.renders {programs : Programs} {size : Nat}
    {t : Transcript} (h : t.Safe programs size) : t.Renders :=
  fun entry hentry => (h.expected entry hentry).renders

/-- A transcript fails with the fault of one of its entries. -/
theorem Transcript.exists_of_resultFrom {t : Transcript} {last : Value}
    {f : Fault} (h : t.resultFrom last = .error f) :
    ∃ entry ∈ t.entries, entry.result = .error f := by
  obtain ⟨entries, m⟩ := t
  induction entries generalizing last with
  | nil => cases h
  | cons entry rest ih =>
      simp only [resultFrom, List.foldlM_cons] at h
      cases hresult : entry.result with
      | error g =>
          rw [hresult] at h
          cases h
          exact ⟨entry, List.mem_cons_self, hresult⟩
      | ok v =>
          rw [hresult] at h
          obtain ⟨failed, hmem, hfailed⟩ := ih h
          exact ⟨failed, List.mem_cons_of_mem _ hmem, hfailed⟩

theorem Fault.Expected.isProgramError {f : Fault} (h : f.Expected) :
    (Failure.fault f).isProgramError = true := by
  cases f with
  | eval e => rfl
  | tooDeep => rfl
  | _ => cases h

/-- What ends the execution of a text is an error that is reported. -/
theorem Transcript.Safe.isProgramError {programs : Programs} {size : Nat}
    {t : Transcript} (h : t.Safe programs size)
    {failure? : Option ParseFailure} {failure : Failure}
    (hending : t.ending failure? = .error failure) :
    failure.isProgramError = true := by
  unfold ending at hending
  cases hresult : t.result with
  | error f =>
      rw [hresult] at hending
      cases hending
      obtain ⟨entry, hmem, hentry⟩ := exists_of_resultFrom hresult
      exact ((h.expected entry hmem).fault f hentry).isProgramError
  | ok v =>
      rw [hresult] at hending
      cases failure? with
      | none => cases hending
      | some e =>
          cases hending
          cases e <;> rfl

/-! ## Sessions -/

namespace Session

section

variable {programs : Programs} {s : Session}

/-- When the statements of a text are loaded, they stand at their sites. -/
theorem Safe.rowStands (h : s.Safe programs) (source : String) :
    RowStands (programs.loading s.setting.limit source) ⟨s.units, []⟩ 0
      (Reading.ofText s.setting.limit source).statements := by
  rw [h.units_eq]
  exact programs.rowStands_loading s.setting.limit source

theorem Safe.store_loading (h : s.Safe programs) (source : String) :
    s.machine.store.Safe (programs.loading s.setting.limit source) :=
  h.store.mono ⟨_, rfl⟩

theorem Safe.transcript (h : s.Safe programs) (source : String) :
    (s.transcript (Reading.ofText s.setting.limit source).statements).Safe
      (programs.loading s.setting.limit source) s.machine.store.size :=
  transcript_safe (h.rowStands source) h.global_lt (h.store_loading source)

/-- Executing a text keeps a session safe. -/
theorem Safe.state_execute (h : s.Safe programs) (source : String) :
    (Session.execute source s).state.Safe
      (programs.loading s.setting.limit source) := by
  have hsafe := h.transcript source
  obtain ⟨trace, hexecute⟩ := execute_eq_transcript rfl rfl hsafe.renders
  rw [hexecute, Step.state_lift]
  refine ⟨hsafe.store, Nat.lt_of_lt_of_le h.global_lt hsafe.size_le, ?_⟩
  show s.units + 1 = (programs.loaded ++ [_]).length
  rw [h.units_eq, List.length_append]
  rfl

end

/-- The sessions in which texts have been run and executed, and the shell
has printed. -/
inductive Interactive : Session → Prop
  | start (limit : Nat) (lexical : Bool) (level : Int) (input : List Char) :
      Interactive (startWithin limit lexical level input)
  | run {s : Session} (source : String) {scope : ScopeId} : Interactive s →
      scope < s.machine.store.size →
      Interactive (runSource source scope s).state
  | execute {s : Session} (source : String) : Interactive s →
      Interactive (Session.execute source s).state
  | print {s : Session} (text : String) : Interactive s →
      Interactive (Session.print text s).state

theorem Interactive.safe {s : Session} (h : s.Interactive) :
    ∃ programs, s.Safe programs := by
  induction h with
  | start limit lexical level input =>
      exact ⟨_, safe_startWithin limit lexical level input⟩
  | run source _ hscope ih =>
      obtain ⟨programs, hsafe⟩ := ih
      exact ⟨_, hsafe.state_runSource hscope source⟩
  | execute source _ ih =>
      obtain ⟨programs, hsafe⟩ := ih
      exact ⟨_, hsafe.state_execute source⟩
  | print text _ ih =>
      obtain ⟨programs, hsafe⟩ := ih
      exact ⟨programs, hsafe.store, hsafe.global_lt, hsafe.units_eq⟩

end Session

end Scriptlet
