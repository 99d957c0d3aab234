import Scriptlet.Proofs.Deeds

/-!
# Lines of input

The lines of the input come out one after the other, whoever asks for them: at
the top of a program, among the arguments of a call, deep in the functions
that are called, in a statement that fails afterwards. For this the run of a
session is taken apart into moments, in the order of time: each evaluation has
one when it begins and one when it ends, and all that it evaluates has its
moments in between (`Visit.moments`). From one moment to the next the input
stays as it is, unless a call ends that has read a line (`Flow`).

So the results of these calls are the lines of the text, and together with the
input that is left they give the text back (`input_lines_are_read_once`).
-/

namespace Scriptlet

/-! ## Lines and pieces -/

namespace Text

/-- The pieces of a text between its newlines. Behind a newline at the end
there is no piece. -/
def pieces (cs : List Char) : List (List Char) :=
  let parts := cs.splitOn '\n'
  if parts.getLast? = some [] then parts.dropLast else parts

/-- The text that lines were read from, when this is left of it: each line
had a newline behind it, but for the last one if the text has come to its end
without a newline. -/
def restored (text : List Char) (lines : List (List Char))
    (rest : List Char) : List Char :=
  if rest = [] ∧ text.getLast? ≠ some '\n' then ['\n'].intercalate lines
  else lines.flatMap (· ++ ['\n']) ++ rest

/-- A line goes up to a newline, or up to the end of the text. -/
theorem of_readLine? {cs line rest : List Char}
    (h : readLine? cs = some (line, rest)) :
    '\n' ∉ line ∧
      (cs = line ++ '\n' :: rest ∨ cs = line ∧ rest = [] ∧ line ≠ []) := by
  have hne : cs ≠ [] := by
    rintro rfl
    cases h
  obtain ⟨rfl, rfl⟩ : cs.takeWhile (· != '\n') = line ∧
      (cs.dropWhile (· != '\n')).drop 1 = rest := by
    simpa [readLine?, hne] using h
  have happend := List.takeWhile_append_dropWhile (p := (· != '\n')) (l := cs)
  refine ⟨?_, ?_⟩
  · intro hmem
    have := List.mem_takeWhile_imp hmem
    simp at this
  · cases hdrop : cs.dropWhile (· != '\n') with
    | nil =>
        rw [hdrop, List.append_nil] at happend
        rw [happend]
        exact Or.inr ⟨rfl, rfl, hne⟩
    | cons c tail =>
        have hc : c = '\n' := by
          have := List.head?_dropWhile_not (· != '\n') cs
          simpa [hdrop] using this
        rw [hdrop, hc] at happend
        exact Or.inl happend.symm

theorem pieces_nil : pieces [] = [] := rfl

/-- The next line is the first piece. -/
theorem pieces_of_readLine? {cs line rest : List Char}
    (h : readLine? cs = some (line, rest)) :
    pieces cs = line :: pieces rest := by
  obtain ⟨hline, hcs⟩ := of_readLine? h
  have hother : ∀ c ∈ line, (c == '\n') = false := by
    intro c hc
    rw [beq_eq_false_iff_ne]
    rintro rfl
    exact hline hc
  rcases hcs with rfl | ⟨rfl, rfl, hne⟩
  · have hsplit : (line ++ '\n' :: rest).splitOn '\n' =
        line :: rest.splitOn '\n' :=
      List.splitOnP_append_cons_of_forall_mem hother '\n' rfl rest
    obtain ⟨first, others, hparts⟩ :=
      List.exists_cons_of_ne_nil (List.splitOnP_ne_nil (· == '\n') rest)
    have hrest : rest.splitOn '\n' = first :: others := hparts
    rw [pieces, hsplit, pieces, hrest]
    simp only [List.getLast?_cons_cons, List.dropLast_cons_cons]
    split <;> rfl
  · have hsplit : cs.splitOn '\n' = [cs] :=
      List.splitOnP_eq_singleton hother
    rw [pieces, hsplit, pieces_nil]
    simp [hne]

example : pieces ['a', '\n', '\n', 'b', '\n'] = [['a'], [], ['b']] := by
  decide

end Text

/-! ## Reading -/

/-- What a call for a line returns, given the line. -/
def lineValue : Option (List Char) → Value
  | some line => .string (String.ofList line)
  | none => .nil

/-- The line in the result of such a call. -/
def Value.line? : Value → Option (List Char)
  | .string line => some line.toList
  | _ => none

/-- Calls for lines have these results, one after the other, and leave the
second input of the first. -/
inductive Reads : List Char → List Value → List Char → Prop
  | nil (input : List Char) : Reads input [] input
  | line {input line rest out : List Char} {results : List Value} :
      Text.readLine? input = some (line, rest) → Reads rest results out →
      Reads input (lineValue (some line) :: results) out
  | atEnd {results : List Value} {out : List Char} : Reads [] results out →
      Reads [] (lineValue none :: results) out

namespace Reads

variable {input mid out : List Char} {results results' : List Value}

theorem append (h : Reads input results mid) (h' : Reads mid results' out) :
    Reads input (results ++ results') out := by
  induction h with
  | nil input => exact h'
  | line hline _ ih => exact .line hline (ih h')
  | atEnd _ ih => exact .atEnd (ih h')

/-- The input only gets shorter. -/
theorem suffix (h : Reads input results out) : out <:+ input := by
  induction h with
  | nil input => exact List.suffix_refl input
  | @line input line rest out results hline _ ih =>
      refine ih.trans ?_
      obtain ⟨-, rfl | ⟨rfl, rfl, -⟩⟩ := Text.of_readLine? hline
      · exact ⟨line ++ ['\n'], by simp⟩
      · exact List.nil_suffix
  | atEnd _ ih => exact ih

/-- At the end of the input there are no lines any more. -/
theorem of_empty (h : Reads [] results out) :
    results.filterMap Value.line? = [] ∧ out = [] := by
  generalize hinput : ([] : List Char) = input at h
  induction h with
  | nil input => exact ⟨rfl, rfl⟩
  | line hline _ _ =>
      rw [← hinput] at hline
      cases hline
  | atEnd _ ih => exact ih rfl

/-- The results are the pieces of the input, and nil behind the last one. -/
theorem result_eq (h : Reads input results out) {k : Nat} {r : Value}
    (hr : results[k]? = some r) : r = lineValue (Text.pieces input)[k]? := by
  induction h generalizing k with
  | nil input => cases hr
  | line hline _ ih =>
      rw [Text.pieces_of_readLine? hline]
      cases k with
      | zero => exact (Option.some.inj hr).symm
      | succ k => exact ih hr
  | atEnd _ ih =>
      rw [Text.pieces_nil]
      cases k with
      | zero => exact (Option.some.inj hr).symm
      | succ k =>
          rw [ih hr, Text.pieces_nil]
          rfl

/-- The lines that were read and the rest are the input. -/
theorem restores (h : Reads input results out) :
    Text.restored input (results.filterMap Value.line?) out = input := by
  induction h with
  | nil input =>
      by_cases hempty : input = [] <;> simp [Text.restored, hempty]
  | @line input line rest out results hline hrest ih =>
      have hlines : (lineValue (some line) :: results).filterMap Value.line? =
          line :: results.filterMap Value.line? := by
        simp [lineValue, Value.line?]
      rw [hlines]
      obtain ⟨hnewline, rfl | ⟨rfl, rfl, hne⟩⟩ := Text.of_readLine? hline
      · by_cases hempty : rest = []
        · subst hempty
          obtain ⟨hnone, rfl⟩ := hrest.of_empty
          simp [Text.restored, hnone]
        · have hlast : (line ++ '\n' :: rest).getLast? = rest.getLast? := by
            obtain ⟨c, cs, rfl⟩ := List.exists_cons_of_ne_nil hempty
            rw [List.getLast?_append, List.getLast?_cons_cons,
              List.getLast?_cons]
            rfl
          unfold Text.restored at ih ⊢
          rw [hlast]
          split at ih
          · -- The rest is not empty, so there are more lines.
            rw [if_pos (by assumption)]
            cases hmore : results.filterMap Value.line? with
            | nil =>
                rw [hmore] at ih
                exact absurd ih.symm hempty
            | cons next others =>
                rw [hmore] at ih
                rw [List.intercalate_cons_cons, ih]
                simp
          · rw [if_neg (by assumption), List.flatMap_cons, List.append_assoc,
              ih, List.append_assoc]
            rfl
      · obtain ⟨hnone, rfl⟩ := hrest.of_empty
        have hlast : input.getLast? ≠ some '\n' := fun h =>
          hnewline (List.mem_of_getLast? h)
        simp [Text.restored, hnone, hlast]
  | atEnd _ ih => exact ih

end Reads

/-! ## Moments -/

/-- An evaluation begins or ends. -/
inductive Moment where
  | begins (v : Visit)
  | ends (v : Visit)

/-- The result of an evaluation that is a call for a line, if it returns. -/
def Visit.gets? (setting : Setting) (v : Visit) : Option Value :=
  match v.call? setting, v.outcome setting with
  | some ⟨.builtin b, _, _⟩, .done value _ =>
    if b.action = .gets then some value else none
  | _, _ => none

namespace Moment

def machine (setting : Setting) : Moment → Machine
  | .begins v => v.machine
  | .ends v => (v.outcome setting).state

/-- The result of a call for a line that ends at the moment. -/
def gets? (setting : Setting) : Moment → Option Value
  | .begins _ => none
  | .ends v => v.gets? setting

end Moment

namespace Visit

/-- The moments of an evaluation in the order of time, as deep as it
nests. -/
def momentsWithin (setting : Setting) : Nat → Visit → List Moment
  | 0, v => [.begins v, .ends v]
  | depth + 1, v =>
    .begins v :: (v.parts setting).flatMap (momentsWithin setting depth) ++
      [.ends v]

/-- The moments of an evaluation in the order of time. -/
def moments (setting : Setting) (v : Visit) : List Moment :=
  v.momentsWithin setting v.limit

theorem moments_eq (setting : Setting) (v : Visit) :
    v.moments setting =
      .begins v :: (v.parts setting).flatMap (moments setting) ++
        [.ends v] := by
  obtain ⟨limit, node, site, scope, m⟩ := v
  cases limit with
  | zero => rfl
  | succ limit =>
      unfold moments
      rw [momentsWithin]
      congr 2
      refine List.flatMap_congr fun x hx => ?_
      rw [Nat.succ.inj (limit_of_mem_parts hx)]

theorem ends_mem_moments (setting : Setting) (v b : Visit) :
    Moment.ends b ∈ v.moments setting ↔ Visits setting v b := by
  induction v using Visit.induction setting with
  | h v ih =>
      rw [moments_eq]
      simp only [List.mem_append, List.mem_cons, List.mem_flatMap,
        reduceCtorEq, false_or, List.not_mem_nil, or_false,
        Moment.ends.injEq]
      constructor
      · rintro (⟨x, hx, hb⟩ | rfl)
        · exact .part hx ((ih x hx).mp hb)
        · exact .refl _
      · intro h
        cases h with
        | refl => exact Or.inr rfl
        | part hx hb => exact Or.inl ⟨_, hx, (ih _ hx).mpr hb⟩

end Visit

/-! ## The flow of the input -/

/-- From the first input on the moments follow each other, and the second
one is left: between two moments nothing is read, unless a call for a line
ends at the second. -/
inductive Flow (setting : Setting) :
    List Char → List Moment → List Char → Prop
  | nil (input : List Char) : Flow setting input [] input
  | cons {moment : Moment} {rest : List Moment} {input out : List Char} :
      Reads input (moment.gets? setting).toList
        (moment.machine setting).input →
      Flow setting (moment.machine setting).input rest out →
      Flow setting input (moment :: rest) out

namespace Flow

variable {setting : Setting} {input mid out : List Char}
  {moments moments' : List Moment}

theorem append (h : Flow setting input moments mid)
    (h' : Flow setting mid moments' out) :
    Flow setting input (moments ++ moments') out := by
  induction h with
  | nil input => exact h'
  | cons hreads _ ih => exact .cons hreads (ih h')

theorem split (h : Flow setting input (moments ++ moments') out) :
    ∃ mid, Flow setting input moments mid ∧ Flow setting mid moments' out := by
  induction moments generalizing input with
  | nil => exact ⟨input, .nil input, h⟩
  | cons moment rest ih =>
      cases h with
      | cons hreads hrest =>
          obtain ⟨mid, hfirst, hsecond⟩ := ih hrest
          exact ⟨mid, .cons hreads hfirst, hsecond⟩

theorem reads (h : Flow setting input moments out) :
    Reads input (moments.filterMap (Moment.gets? setting)) out := by
  induction h with
  | nil input => exact .nil input
  | @cons moment rest input out hreads _ ih =>
      have happend := hreads.append ih
      cases hgets : moment.gets? setting with
      | none => simpa [hgets] using happend
      | some r => simpa [hgets] using happend

/-- The input of a later moment is the end of what there was before. -/
theorem suffix (h : Flow setting input moments out) {moment : Moment}
    (hmem : moment ∈ moments) : (moment.machine setting).input <:+ input := by
  induction h with
  | nil input => exact absurd hmem List.not_mem_nil
  | cons hreads _ ih =>
      rcases List.mem_cons.mp hmem with rfl | hmem
      · exact hreads.suffix
      · exact (ih hmem).trans hreads.suffix

/-- What was read up to a moment, and what is left then. -/
theorem at_moment {earlier later : List Moment} {moment : Moment}
    (h : Flow setting input (earlier ++ moment :: later) out) :
    Reads input ((earlier ++ [moment]).filterMap (Moment.gets? setting))
        (moment.machine setting).input ∧
      Flow setting (moment.machine setting).input later out := by
  obtain ⟨mid, hearlier, hrest⟩ := h.split
  cases hrest with
  | cons hreads hlater =>
      exact ⟨(hearlier.append (.cons hreads (.nil _))).reads, hlater⟩

end Flow

section

variable {setting : Setting}

def Visit.Flows (setting : Setting) (v : Visit) : Prop :=
  Flow setting v.machine.input (v.moments setting)
    (v.outcome setting).state.input

/-- The input flows through a row of evaluations if it flows through each. -/
theorem flow_row {limit : Nat} {site : Site} {scope : ScopeId}
    {eval : Nat → Node → Eval Value}
    (heval : ∀ i node m, (eval i node m).state.input =
      (Visit.outcome setting
        ⟨limit, node, site.child i, scope, m⟩).state.input)
    {index : Nat} {nodes : List Node} {m : Machine}
    (h : ∀ x ∈ rowVisits eval limit site scope index nodes m,
      x.Flows setting) :
    Flow setting m.input
      ((rowVisits eval limit site scope index nodes m).flatMap
        (Visit.moments setting))
      (evalEach eval index nodes m).state.input := by
  induction nodes generalizing index m with
  | nil => exact .nil _
  | cons node rest ih =>
      unfold rowVisits at h ⊢
      obtain ⟨hhead, htail⟩ := List.forall_mem_cons.mp h
      have hinput := heval index node m
      rw [List.flatMap_cons]
      cases hnode : eval index node m with
      | done v m₁ =>
          rw [hnode] at htail hinput
          rw [evalEach_state_of_done hnode]
          refine hhead.append ?_
          rw [← hinput]
          exact ih htail
      | failed f m₁ =>
          rw [hnode] at hinput
          rw [evalEach_state_of_failed hnode]
          refine hhead.append ?_
          rw [← hinput]
          exact .nil _

theorem flow_nested {limit : Nat} {site : Site} {scope : ScopeId}
    {nodes : List Node} {m : Machine}
    (h : ∀ x ∈ nestedVisits setting limit site scope nodes m,
      x.Flows setting) :
    Flow setting m.input
      ((nestedVisits setting limit site scope nodes m).flatMap
        (Visit.moments setting))
      (evalArgs setting limit nodes site scope m).state.input :=
  flow_row (fun _ _ _ => rfl) h

theorem Visit.flow_operands {v : Visit}
    (h : ∀ x ∈ v.operandParts setting, x.Flows setting) :
    Flow setting v.machine.input
      ((v.operandParts setting).flatMap (Visit.moments setting))
      (v.operands setting).state.input := by
  obtain ⟨limit, node, site, scope, m⟩ := v
  cases limit with
  | zero => exact .nil _
  | succ limit => exact flow_nested h

/-- Tracing does not read. -/
theorem input_record (setting : Setting) (required : Int)
    (event : Unit → Except Fault Event) (m : Machine) :
    (Eval.record setting required event m).state.input = m.input := by
  unfold Eval.record
  split
  · rw [Step.bind_apply]
    cases event () with
    | error f => rfl
    | ok e =>
        simp only [Step.lift_ok, Step.modify_apply, Outcome.state]
        split <;> rfl
  · rfl

theorem input_record_return {α : Type} (setting : Setting) (required : Int)
    (event : Unit → Except Fault Event) (a : α) (m : Machine) :
    ((do
      Eval.record setting required event
      return a : Eval α) m).state.input = m.input := by
  rw [Step.state_bind_pure]
  exact input_record setting required event m

/-- Behind the called value nothing is read. -/
theorem Call.input_outcome (setting : Setting) (limit : Nat)
    (scope : ScopeId) (call : Call) :
    (call.outcome setting limit scope).state.input =
      (callValue setting limit call.callee call.args scope
        call.machine).state.input := by
  unfold Call.outcome
  rw [Step.bind_apply]
  cases callValue setting limit call.callee call.args scope call.machine with
  | done v m => exact input_record_return setting 3 _ v m
  | failed f m => rfl

/-- A call for a line returns the next one, or fails before it reads. -/
theorem Call.gets_outcome (setting : Setting) (limit : Nat)
    (scope : ScopeId) {call : Call} {b : Builtin}
    (hcallee : call.callee = .builtin b) (hgets : b.action = .gets) :
    (∃ f, call.outcome setting limit scope = .failed f call.machine) ∨
    ∃ r m, call.outcome setting limit scope = .done r m ∧
      Reads call.machine.input [r] m.input := by
  -- Nil and strings have a text, so the return is traced.
  have hends : ∀ r m text, traceValue r = .ok text →
      Reads call.machine.input [r] m.input →
      callBuiltin setting b call.args call.machine = .done r m →
      ∃ r m, call.outcome setting limit scope = .done r m ∧
        Reads call.machine.input [r] m.input := by
    intro r m text htext hreads hdone
    have hevent : Call.ends (.builtin b) r () =
        .ok (.leave (Value.builtin b).inspect text) := by
      rw [Call.ends, htext]
      rfl
    obtain ⟨m', hrecord, -⟩ := Eval.record_of_ok setting 3 hevent m
    have hinput := input_record setting 3 (Call.ends (.builtin b) r) m
    rw [hrecord] at hinput
    refine ⟨r, m', ?_, ?_⟩
    · simp only [Call.outcome, Step.bind_apply, hcallee, callValue, hdone,
        hrecord]
      rfl
    · rw [show m'.input = m.input from hinput]
      exact hreads
  rcases callBuiltin_gets setting hgets call.args call.machine with
    ⟨f, hfailed⟩ | ⟨hline, hdone⟩ | ⟨line, rest, hline, hdone⟩
  · refine Or.inl ⟨f, ?_⟩
    simp only [Call.outcome, Step.bind_apply, hcallee, callValue, hfailed]
  · have hempty : call.machine.input = [] := by
      by_contra hne
      simp [Text.readLine?, hne] at hline
    refine Or.inr (hends _ _ _ rfl ?_ hdone)
    rw [hempty]
    exact .atEnd (.nil [])
  · exact Or.inr (hends _ _ _ rfl (.line hline (.nil rest)) hdone)

theorem Visit.gets?_of_call?_none {v : Visit} (h : v.call? setting = none) :
    v.gets? setting = none := by
  unfold gets?
  rw [h]

/-- Only a call of the function that reads is a call for a line. -/
theorem Visit.gets?_of_other {v : Visit} {call : Call}
    (h : v.call? setting = some call)
    (hother : ∀ b, call.callee = .builtin b → b.action ≠ .gets) :
    v.gets? setting = none := by
  obtain ⟨callee, args, m⟩ := call
  unfold gets?
  rw [h]
  cases callee with
  | builtin b =>
      cases v.outcome setting with
      | done value m => exact if_neg (hother b rfl)
      | failed f m => rfl
  | _ => rfl

/-- An evaluation that reads nothing at its end. -/
theorem Flow.ends_quietly {v : Visit} {input : List Char}
    (hgets : v.gets? setting = none)
    (hinput : (v.outcome setting).state.input = input) :
    Flow setting input [.ends v] (v.outcome setting).state.input := by
  refine .cons ?_ (.nil _)
  rw [Moment.gets?, hgets, Moment.machine, hinput]
  exact .nil input

/-- The input flows through the called value, from the begin of the call to
its end. -/
theorem Visit.Calls.flow {v : Visit} {limit : Nat} {call : Call} {m : Machine}
    (h : v.Calls setting limit call m)
    (hbody : ∀ x ∈ v.bodyParts setting, x.Flows setting) :
    Flow setting call.machine.input
      ((v.bodyParts setting).flatMap (moments setting) ++ [.ends v])
      (v.outcome setting).state.input := by
  have hinput := Call.input_outcome setting limit v.scope call
  rw [← h.outcome] at hinput
  rw [h.bodyParts] at hbody ⊢
  cases call.course setting limit v.scope with
  | quiet hquiet hother hvisits =>
      rw [hvisits]
      refine .ends_quietly (gets?_of_other h.call? hother) ?_
      exact hinput.trans hquiet.input
  | @gets b hcallee hgets hvisits =>
      -- The one case where a line is taken. It counts at the end of the
      -- evaluation, and there are no moments in between.
      rw [hvisits]
      refine .cons ?_ (.nil _)
      have hline : v.gets? setting =
          (v.outcome setting).result.toOption := by
        obtain ⟨callee, args, machine⟩ := call
        subst hcallee
        rw [gets?, h.call?]
        cases v.outcome setting with
        | done value m => exact if_pos hgets
        | failed f m => rfl
      rw [Moment.gets?, Moment.machine, hline, h.outcome]
      rcases Call.gets_outcome setting limit v.scope hcallee hgets with
        ⟨f, hfailed⟩ | ⟨r, m', hdone, hreads⟩
      · rw [hfailed]
        exact .nil _
      · rw [hdone]
        exact hreads
  | @body c frame m' hcallee hquiet hvalue hvisits =>
      rw [hvisits] at hbody ⊢
      rw [← hquiet.input]
      refine (flow_nested hbody).append (.ends_quietly ?_ ?_)
      · refine gets?_of_other h.call? fun b hb => ?_
        rw [hcallee] at hb
        cases hb
      · rw [hinput, hvalue, runBody, evalLast_state]
        rfl

/-- The input flows through every evaluation. -/
theorem Visit.flows (setting : Setting) (v : Visit) : v.Flows setting := by
  induction v using Visit.induction setting with
  | h v ih =>
      have hoperands := flow_operands fun x hx =>
        ih x (mem_parts.mpr (.inl hx))
      have hbody : ∀ x ∈ v.bodyParts setting, x.Flows setting := fun x hx =>
        ih x (mem_parts.mpr (.inr hx))
      unfold Flows
      rw [moments_eq, parts_eq, List.flatMap_append, List.cons_append,
        List.append_assoc]
      refine .cons (.nil _) (hoperands.append ?_)
      cases v.course setting with
      | operand hargs houtcome hcall hnone =>
          rw [hnone, hargs]
          refine .ends_quietly (gets?_of_call?_none hcall) ?_
          rw [houtcome]
          rfl
      | uncalled hargs hquiet hcall hnone =>
          rw [hnone, hargs]
          exact .ends_quietly (gets?_of_call?_none hcall) hquiet.input
      | @called limit call m hcalls =>
          have hstart := input_record setting 3
            (Call.begins call.callee call.args) m
          rw [hcalls.begins] at hstart
          rw [hcalls.operands]
          show Flow setting m.input _ _
          rw [← hstart]
          exact hcalls.flow hbody

/-! ## Sessions -/

/-- The input flows through all turns. -/
theorem Turns.flow {setting : Setting} {m m' : Machine} {turns : List Turn}
    (h : Turns setting m turns m') :
    Flow setting m.input
      (turns.flatMap fun t => (t.visit setting).moments setting) m'.input := by
  induction h with
  | nil m => exact .nil m.input
  | idle hidle _ ih =>
      rw [hidle.quiet.input] at ih
      exact ih
  | @turn t _ _ _ ih =>
      rw [List.flatMap_cons]
      exact (Visit.flows setting (t.visit setting)).append ih

end

namespace Client

/-- The moments of a session in the order of time. -/
def moments (c : Client) (deeds : List Deed) : List Moment :=
  (c.turns deeds).flatMap fun t =>
    (t.visit c.session.setting).moments c.session.setting

theorem ends_mem_moments (c : Client) (deeds : List Deed) (v : Visit) :
    Moment.ends v ∈ c.moments deeds ↔ c.Evaluates deeds v := by
  simp only [moments, Evaluates, List.mem_flatMap, Visit.ends_mem_moments]

end Client

/-- **Lines of input are neither lost nor read twice.** Whatever is done in a
session with some text as its input, the calls for a line have as their
results the pieces of the text between its newlines, in their order, and then
nil for ever. At every moment of the session, also when an evaluation has
just failed, the lines that were read so far and the input that is left make
up the text; and what is left later is the end of what is left now, so that
no line ever comes back. The moments are those when an evaluation, at any
depth, begins or ends. -/
theorem input_lines_are_read_once (limit : Nat) (lexical : Bool)
    (level : Int) (text : String) (deeds : List Deed) :
    let c := Client.start
      (Session.startWithin limit lexical level text.toList)
    let setting := c.session.setting
    let results := fun moments : List Moment =>
      moments.filterMap (Moment.gets? setting)
    let lines := fun moments => (results moments).filterMap Value.line?
    (∀ v, Moment.ends v ∈ c.moments deeds ↔ c.Evaluates deeds v) ∧
    (∀ (k : Nat) r, (results (c.moments deeds))[k]? = some r →
      r = lineValue (Text.pieces text.toList)[k]?) ∧
    (∀ earlier moment later,
      c.moments deeds = earlier ++ moment :: later →
      let rest := (moment.machine setting).input
      Text.restored text.toList (lines (earlier ++ [moment])) rest =
          text.toList ∧
        ∀ next ∈ later, (next.machine setting).input <:+ rest) ∧
    Text.restored text.toList (lines (c.moments deeds))
      (c.doingAll deeds).session.machine.input = text.toList := by
  intro c setting results lines
  have hflow : Flow setting text.toList (c.moments deeds)
      (c.doingAll deeds).session.machine.input :=
    (c.turns_doingAll deeds).flow
  refine ⟨c.ends_mem_moments deeds, ?_, ?_, hflow.reads.restores⟩
  · intro k r hr
    exact hflow.reads.result_eq hr
  · intro earlier moment later hsplit rest
    rw [hsplit] at hflow
    obtain ⟨hreads, hlater⟩ := hflow.at_moment
    exact ⟨hreads.restores, fun next hnext => hlater.suffix hnext⟩

end Scriptlet
