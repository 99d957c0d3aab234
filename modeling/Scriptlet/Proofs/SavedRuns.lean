import Mathlib
import Scriptlet.Command.Run
import Scriptlet.Proofs.Files
import Scriptlet.Proofs.SavedTrees

/-!
# A saved program runs as the program does

Saving a program writes the tree that running it parses, and loading the
saved file gives that tree back. From there on the two runs are the same
evaluation, so they print the same, end alike and leave the same trace.

The trace is what the two runs could differ in, because it is a file of the
same workspace. It is never the saved file (`locate_treePath_ne`), but it can
be the program: a traced run empties it before it reads anything, so that
nothing is left to run (`loadProgram_of_locate_eq`).
-/

namespace Scriptlet.Command

/-! ## The trace and the saved file -/

theorem tracePath_eq : tracePath = ⟨"", ["debug.txt"]⟩ := by decide

theorem locate_tracePath (w : Workspace) :
    w.locate tracePath = some (w.home ++ ["debug.txt"]) := by
  have hhome : w.isDirectory w.home = true :=
    Workspace.isDirectory_iff.mpr (Or.inl List.prefix_rfl)
  rw [tracePath_eq]
  exact Workspace.follow_singleton_eq_some.mpr ⟨hhome, rfl⟩

theorem find_written_tracePath (w w' : Workspace) (text : String) :
    (w.write tracePath text).find tracePath =
      (w'.write tracePath text).find tracePath := by
  rw [Workspace.find_write_self (locate_tracePath w) (locate_tracePath w),
    Workspace.find_write_self (locate_tracePath w') (locate_tracePath w')]

theorem length_treeName (name : String) :
    (name ++ ".ast.json").length = name.length + 9 :=
  String.length_append name ".ast.json"

theorem treeName_ne_up (name : String) : name ++ ".ast.json" ≠ ".." := by
  intro heq
  have hlength : "..".length = name.length + 9 := heq ▸ length_treeName name
  exact absurd hlength (by simp [show "..".length = 2 from rfl])

/-- A saved tree is never in the file of the trace. -/
theorem locate_treePath_ne (w : Workspace) (path : Path) :
    w.locate (treePath path) ≠ w.locate tracePath := by
  rw [locate_tracePath]
  intro h
  unfold treePath Path.withEnding at h
  split at h
  · rename_i name _
    have hlast := Workspace.getLast?_of_follow (treeName_ne_up name) h
    rw [List.getLast?_concat, Option.some.injEq] at hlast
    -- The two names are equally long only if nothing stands before the ending.
    have hlength : "debug.txt".length = name.length + 9 :=
      hlast ▸ length_treeName name
    have hempty : name = "" := by
      rw [← String.length_eq_zero_iff]
      exact Nat.right_eq_add.mp hlength
    rw [hempty] at hlast
    exact absurd hlast (by decide)
  · rename_i hparts
    rw [List.getLast?_eq_none_iff] at hparts
    rw [Workspace.locate, hparts, Workspace.follow, Option.some.injEq] at h
    split at h <;> simp at h

/-! ## Reading -/

theorem readText_congr {w w' : Workspace} {path : Path}
    (h : w.find path = w'.find path) : readText w path = readText w' path := by
  rw [readText, readText, h]

/-- A text of stored characters is read from the file that holds it. -/
theorem readText_of_isStored {w : Workspace} {path : Path} {text : String}
    (h : ∀ c ∈ text.toList, IsStored c)
    (hfind : w.find path = .file text.toByteArray.toList) :
    readText w path = .ok text.toList := by
  obtain ⟨hdecode, hunify⟩ := decode_saved h
  rw [readText, hfind]
  dsimp only
  rw [hdecode]
  dsimp only
  rw [hunify]

theorem exists_locate_of_readText {w : Workspace} {path : Path}
    {cs : List Char} (h : readText w path = .ok cs) :
    ∃ p, w.locate path = some p := by
  cases hplace : w.locate path with
  | some p => exact ⟨p, rfl⟩
  | none =>
      have hmissing : w.find path = .missing := by
        rw [Workspace.find, hplace]
      rw [readText, hmissing] at h
      cases h

theorem loadProgram_of_readText {w : Workspace} {name : String}
    {cs : List Char} {statements : List Node}
    (hread : readText w (Path.ofText name) = .ok cs)
    (hparse : parseProgram nestingLimit (String.ofList cs) = .ok statements) :
    loadProgram w name = .ok statements := by
  rw [loadProgram, hread]
  dsimp only
  rw [hparse]

def savedText (statements : List Node) : String :=
  (Node.sequence statements).toJson.write .indented

/-- Loading a saved program gives its statements, unless its encoding nests
too deep to be read. -/
theorem loadTree_saved {w : Workspace} {tree source : String} {limit : Nat}
    {statements : List Node}
    (hparse : parseProgram limit source = .ok statements)
    (hfind : w.find (Path.ofText tree) =
      .file (savedText statements).toByteArray.toList) :
    loadTree w tree =
      if (Node.sequence statements).toJson.nesting ≤ nestingLimit then
        .ok statements
      else .error (Report.failed w "" tooDeepMessage) := by
  have hread : readText w (Path.ofText tree) =
      .ok ((Node.sequence statements).toJson.write .indented).toList :=
    readText_of_isStored
      ((isTextual_of_parseProgram hparse).isStored .indented 0) hfind
  have hjson := read_saved hparse .indented nestingLimit
  rw [loadTree, hread]
  dsimp only
  by_cases hnesting :
      (Node.sequence statements).toJson.nesting ≤ nestingLimit
  · rw [if_pos hnesting] at hjson ⊢
    rw [hjson]
    dsimp only
    rw [Node.ofJson_toJson]
  · rw [if_neg hnesting] at hjson ⊢
    rw [hjson]

theorem exists_of_withProgram {w : Workspace} {path : Path}
    {next : List Node → Report}
    (h : (withProgram w path next).ending = .exit 0) :
    ∃ cs statements, readText w path = .ok cs ∧
      parseProgram nestingLimit (String.ofList cs) = .ok statements ∧
      withProgram w path next = next statements := by
  unfold withProgram at h ⊢
  split at h
  · rename_i failure _
    cases failure <;> cases h
  · rename_i cs hread
    split at h
    · cases h
    · cases h
    · rename_i statements hparse
      exact ⟨cs, statements, hread, hparse, rfl⟩

/-- What a program that was saved says, and what its saving wrote. -/
theorem exists_of_emitTree {w : Workspace} {path : Path}
    (h : (emitTree w path).ending = .exit 0) :
    ∃ cs statements, readText w path = .ok cs ∧
      parseProgram nestingLimit (String.ofList cs) = .ok statements ∧
      (emitTree w path).workspace =
        w.write (treePath path) (savedText statements) := by
  unfold emitTree at h ⊢
  obtain ⟨cs, statements, hread, hparse, heq⟩ := exists_of_withProgram h
  refine ⟨cs, statements, hread, hparse, ?_⟩
  rw [heq] at h ⊢
  dsimp only at h ⊢
  split at h
  · cases h
  · split at h
    · cases h
    · rename_i json hjson
      rw [Node.toJson?, Option.ite_none_right_eq_some] at hjson
      obtain rfl := Option.some.inj hjson.2
      rfl

/-- A program whose tree is not too deep is saved, unless there is a
directory where the tree should go. -/
theorem emitTree_of_readText {w : Workspace} {path : Path} {cs : List Char}
    {statements : List Node} (hread : readText w path = .ok cs)
    (hparse : parseProgram nestingLimit (String.ofList cs) = .ok statements)
    (hfree : w.find (treePath path) ≠ .directory)
    (hdepth : (Node.sequence statements).depth ≤ nestingLimit) :
    emitTree w path = Report.finished
      (w.write (treePath path) (savedText statements))
      ((treePath path).toText ++ "\n") := by
  rw [emitTree, withProgram, hread]
  dsimp only
  rw [hparse]
  dsimp only
  rw [Node.toJson?, if_pos hdepth]
  split
  · contradiction
  · rfl

/-! ## Running -/

/-- Two reports that a user cannot tell apart: how the command ended, what
it printed on its channels, and the trace that it left. -/
structure Report.Alike (r r' : Report) : Prop where
  ending : r.ending = r'.ending
  output : r.output = r'.output
  errors : r.errors = r'.errors
  trace : r.workspace.find tracePath = r'.workspace.find tracePath

theorem Report.alike_ofFailure {w w' : Workspace}
    (h : w.find tracePath = w'.find tracePath) (output : String)
    (failure : Failure) :
    (ofFailure w output failure).Alike (ofFailure w' output failure) := by
  unfold ofFailure
  split <;> exact ⟨rfl, rfl, rfl, h⟩

/-- Reports of the same outcome differ in the files alone, and not in the
trace. -/
theorem alike_reportOf {α : Type} {w w' : Workspace}
    (h : w.find tracePath = w'.find tracePath)
    (outcome : Outcome Failure Session α) :
    (reportOf w outcome).Alike (reportOf w' outcome) := by
  have hfind : Workspace.find (if 0 < outcome.state.setting.level then
        w.write tracePath (traceText outcome.state.machine.trace.toList)
      else w) tracePath =
      Workspace.find (if 0 < outcome.state.setting.level then
        w'.write tracePath (traceText outcome.state.machine.trace.toList)
      else w') tracePath := by
    split
    · exact find_written_tracePath w w' _
    · exact h
  unfold reportOf
  dsimp only
  split
  · exact ⟨rfl, rfl, rfl, hfind⟩
  · exact Report.alike_ofFailure hfind _ _

theorem output_reportOf {α : Type} (w : Workspace)
    (outcome : Outcome Failure Session α) :
    (reportOf w outcome).output = outcome.state.machine.output := by
  unfold reportOf
  dsimp only
  split
  · rfl
  · unfold Report.ofFailure
    split <;> rfl

/-- Arguments that are taken in, the options they set and the task. -/
structure Asks (arguments : List String) (options : Options) (task : Task) :
    Prop where
  request_eq : request arguments = .proceed options
  task_eq : options.task = task

section
variable {highlight : String → String} {arguments : List String}
  {options : Options} {name : String}

theorem run_emit (h : Asks arguments options (.emit name)) (w : Workspace)
    (input : List Char) :
    run highlight arguments w input = emitTree w (Path.ofText name) := by
  rw [run, h.request_eq]
  dsimp only
  rw [h.task_eq]

theorem run_eq_runTask {task : Task} (h : Asks arguments options task)
    (hreads : task.readsInput = true) (w : Workspace) (input : List Char) :
    run highlight arguments w input =
      runTask highlight w options input task := by
  rw [run, h.request_eq]
  dsimp only
  rw [h.task_eq]
  cases task with
  | emit => cases hreads
  | dump => cases hreads
  | load => rfl
  | run => rfl
  | interact => rfl

end

/-- The files once a trace is begun, if there is to be one. -/
def Workspace.begun (w : Workspace) (verbosity : Nat) : Workspace :=
  if 0 < verbosity then w.write tracePath "" else w

section
variable {w w' : Workspace} {verbosity : Nat}

/-- Beginning a trace keeps all files but the one of the trace. -/
theorem find_begun {path : Path}
    (h : 0 < verbosity → w.locate path ≠ w.locate tracePath) :
    (w.begun verbosity).find path = w.find path := by
  unfold Workspace.begun
  split
  · rename_i htraced
    exact Workspace.find_write_of_ne (h htraced)
  · rfl

theorem find_begun_tracePath (h : w.find tracePath = w'.find tracePath) :
    (w.begun verbosity).find tracePath =
      (w'.begun verbosity).find tracePath := by
  unfold Workspace.begun
  split
  · exact find_written_tracePath w w' ""
  · exact h

end

/-- A program in the file of the trace is read as an empty one. -/
theorem loadProgram_of_locate_eq {w : Workspace} {name : String}
    {verbosity : Nat} (htraced : 0 < verbosity)
    (h : w.locate (Path.ofText name) = w.locate tracePath) :
    loadProgram (w.begun verbosity) name = .ok [] := by
  have hfind : (w.begun verbosity).find (Path.ofText name) =
      .file "".toByteArray.toList := by
    rw [Workspace.begun, if_pos htraced]
    exact Workspace.find_write_self (locate_tracePath w)
      (h.trans (locate_tracePath w))
  have hparse : parseProgram nestingLimit (String.ofList "".toList) =
      .ok [] := by cbv
  exact loadProgram_of_readText (readText_of_isStored (by simp) hfind) hparse

/-- Runs what was loaded, once a trace is begun. -/
def runLoaded (w : Workspace) (options : Options) (input : List Char) :
    Except Report (List Node) → Report
  | .error report => report
  | .ok statements =>
    reportOf (w.begun options.verbosity)
      (Session.runNodes statements Machine.globalScope
        (Session.start options.lexical options.verbosity input))

section
variable {highlight : String → String} {w : Workspace} {options : Options}
  {name : String} {statements : List Node}

/-- A trace cannot be begun where there is a directory. -/
theorem runTask_of_directory (htraced : 0 < options.verbosity)
    (h : w.find tracePath = .directory) (input : List Char) (task : Task) :
    runTask highlight w options input task =
      Report.escaped w "" (.isDirectory tracePath) := by
  rw [runTask]
  exact if_pos ⟨htraced, h⟩

theorem runTask_run
    (h : ¬(0 < options.verbosity ∧ w.find tracePath = .directory))
    (input : List Char) :
    runTask highlight w options input (.run name) = runLoaded w options input
      (loadProgram (w.begun options.verbosity) name) := by
  rw [runTask]
  exact if_neg h

theorem runTask_load
    (h : ¬(0 < options.verbosity ∧ w.find tracePath = .directory))
    (input : List Char) :
    runTask highlight w options input (.load name) = runLoaded w options input
      (loadTree (w.begun options.verbosity) name) := by
  rw [runTask]
  exact if_neg h

/-- A program is run as it is read, if beginning the trace leaves its file
as it is. -/
theorem runTask_run_of_readText {cs : List Char}
    (h : ¬(0 < options.verbosity ∧ w.find tracePath = .directory))
    (hread : readText w (Path.ofText name) = .ok cs)
    (hparse : parseProgram nestingLimit (String.ofList cs) = .ok statements)
    (hname : 0 < options.verbosity →
      w.locate (Path.ofText name) ≠ w.locate tracePath)
    (input : List Char) :
    runTask highlight w options input (.run name) =
      runLoaded w options input (.ok statements) := by
  have hbegun := (readText_congr (find_begun hname)).trans hread
  rw [runTask_run h, loadProgram_of_readText hbegun hparse]

/-- A saved program is run, unless its encoding nests too deep to be read. -/
theorem runTask_load_saved {source : String} {limit : Nat}
    (h : ¬(0 < options.verbosity ∧ w.find tracePath = .directory))
    (hparse : parseProgram limit source = .ok statements)
    (hsaved : w.find (Path.ofText name) =
      .file (savedText statements).toByteArray.toList)
    (htree : w.locate (Path.ofText name) ≠ w.locate tracePath)
    (input : List Char) :
    runTask highlight w options input (.load name) = runLoaded w options input
      (if (Node.sequence statements).toJson.nesting ≤ nestingLimit then
        .ok statements
      else .error
        (Report.failed (w.begun options.verbosity) "" tooDeepMessage)) := by
  have hbegun : (w.begun options.verbosity).find (Path.ofText name) =
      .file (savedText statements).toByteArray.toList :=
    (find_begun fun _ => htree).trans hsaved
  rw [runTask_load h, loadTree_saved hparse hbegun]

end

/-- Runs of the same statements from files that differ outside the trace. -/
theorem alike_runLoaded {w w' : Workspace} {direct load : Options}
    (hverbosity : direct.verbosity = load.verbosity)
    (hlexical : direct.lexical = load.lexical)
    (htrace : w.find tracePath = w'.find tracePath) (input : List Char)
    (statements : List Node) :
    (runLoaded w direct input (.ok statements)).Alike
      (runLoaded w' load input (.ok statements)) := by
  rw [runLoaded, runLoaded, hlexical, hverbosity]
  exact alike_reportOf (find_begun_tracePath htrace) _

/-- **Running a program and loading what was saved of it are alike,** where
beginning the trace leaves the program's file as it is. -/
theorem runTask_alike {highlight : String → String} {w w' : Workspace}
    {direct load : Options} {name tree : String} {cs : List Char}
    {statements : List Node}
    (hverbosity : direct.verbosity = load.verbosity)
    (hlexical : direct.lexical = load.lexical)
    (hread : readText w (Path.ofText name) = .ok cs)
    (hparse : parseProgram nestingLimit (String.ofList cs) = .ok statements)
    (hname : 0 < direct.verbosity →
      w.locate (Path.ofText name) ≠ w.locate tracePath)
    (hsaved : w'.find (Path.ofText tree) =
      .file (savedText statements).toByteArray.toList)
    (htree : w'.locate (Path.ofText tree) ≠ w'.locate tracePath)
    (htrace : w.find tracePath = w'.find tracePath) (input : List Char) :
    (runTask highlight w direct input (.run name)).Alike
        (runTask highlight w' load input (.load tree)) ∨
      nestingLimit < (Node.sequence statements).toJson.nesting ∧
        ∃ later, runTask highlight w' load input (.load tree) =
          Report.failed later "" tooDeepMessage := by
  by_cases hblocked : 0 < load.verbosity ∧ w'.find tracePath = .directory
  · left
    rw [runTask_of_directory hblocked.1 hblocked.2,
      runTask_of_directory (hverbosity ▸ hblocked.1)
        (htrace.trans hblocked.2)]
    exact ⟨rfl, rfl, rfl, htrace⟩
  · have hfree : ¬(0 < direct.verbosity ∧ w.find tracePath = .directory) := by
      rw [hverbosity, htrace]
      exact hblocked
    rw [runTask_run_of_readText hfree hread hparse hname,
      runTask_load_saved hblocked hparse hsaved htree]
    split
    · exact Or.inl
        (alike_runLoaded hverbosity hlexical htrace input statements)
    · rename_i hnesting
      exact Or.inr ⟨Nat.lt_of_not_le hnesting, _, rfl⟩

/-! ## Programs in a directory of their own -/

/-- A working directory with one file. -/
def holding (name text : String) : Workspace :=
  ⟨["home"], [], [(["home", name], text.toByteArray.toList)]⟩

theorem locate_holding (name text : String) {other : String}
    (h : other ≠ "..") :
    (holding name text).locate ⟨"", [other]⟩ = some ["home", other] := by
  refine Workspace.follow_singleton_eq_some.mpr ⟨?_, (if_neg h).symm⟩
  exact Workspace.isDirectory_iff.mpr (Or.inl List.prefix_rfl)

theorem find_holding (text : String) {name : String} (h : name ≠ "..") :
    (holding name text).find ⟨"", [name]⟩ =
      .file text.toByteArray.toList := by
  rw [Workspace.find, locate_holding name text h]
  simp [Workspace.entryAt, holding]

/-- There is nothing but the file. -/
theorem find_holding_of_ne (text : String) {name other : String}
    (h : other ≠ "..") (hne : other ≠ name) :
    (holding name text).find ⟨"", [other]⟩ = .missing := by
  have hdirectory :
      (holding name text).isDirectory ["home", other] = false := by
    rw [Bool.eq_false_iff, ne_eq, Workspace.isDirectory_iff]
    simp [holding, hne, eq_comm]
  have hlookup : (holding name text).files.lookup ["home", other] = none := by
    have hplace : ["home", other] ≠ ["home", name] := by simpa using hne
    rw [holding, List.lookup_cons, beq_false_of_ne hplace]
    rfl
  rw [Workspace.find, locate_holding name text h]
  simp [Workspace.entryAt, hlookup, hdirectory]

/-- A program that prints through a function what a name stands for. -/
def showText : String := "def f(v) puts(v) end f(x)"

def showProgram : List Node :=
  [.define (.text "f") [.text "v"]
      [.call (.identifier (.text "puts")) [.identifier (.text "v")]],
    .call (.identifier (.text "f")) [.identifier (.text "x")]]

theorem isStored_showText : ∀ c ∈ showText.toList, IsStored c := by
  simp [showText, IsStored]

theorem parseProgram_showText :
    parseProgram nestingLimit (String.ofList showText.toList) =
      .ok showProgram := by cbv

theorem depth_showProgram :
    (Node.sequence showProgram).depth ≤ nestingLimit := by decide

theorem nesting_showProgram :
    (Node.sequence showProgram).toJson.nesting ≤ nestingLimit := by decide

theorem output_showProgram :
    (Session.runNodes showProgram Machine.globalScope
      (Session.start false 1 [])).state.machine.output = "nil\n" := by cbv

/-- The program is saved from a file of any name but that of the directory
above. -/
theorem emitTree_holding {name : String} (h : name ≠ "..") :
    emitTree (holding name showText) ⟨"", [name]⟩ = Report.finished
      ((holding name showText).write ⟨"", [name ++ ".ast.json"]⟩
        (savedText showProgram))
      (Path.toText ⟨"", [name ++ ".ast.json"]⟩ ++ "\n") := by
  have hread := readText_of_isStored isStored_showText
    (find_holding showText h)
  have hne : name ++ ".ast.json" ≠ name := by
    intro heq
    have hlength := length_treeName name
    rw [heq] at hlength
    omega
  have hmissing := find_holding_of_ne showText (treeName_ne_up name) hne
  exact emitTree_of_readText hread parseProgram_showText
    (fun hdirectory => Entry.noConfusion (hmissing.symm.trans hdirectory))
    depth_showProgram

/-! ## Saving and loading -/

/-- **Saving a program and loading it again changes nothing.** What is
written of a parsed program is decoded to its tree by every reader that goes
as deep as the encoding nests; and after a program was saved, a run of the
saved file is like a run of the program, with every input and the same
options, unless the saved file nests too deep to be read. A traced run empties
the file of the trace before it reads, so that must not be the program's. -/
theorem saved_program_runs_alike (highlight : String → String) :
    (∀ {limit : Nat} {source : String} {statements : List Node},
      parseProgram limit source = .ok statements → ∀ depth : Nat,
        if (Node.sequence statements).toJson.nesting ≤ depth then
          ∃ json, Json.read depth (savedText statements).toList = .ok json ∧
            Node.ofJson json = .ok (.sequence statements)
        else
          Json.read depth (savedText statements).toList = .error .tooDeep) ∧
    ∀ {saving running loading : List String} {save direct load : Options}
      {name tree : String} {w saved : Workspace} {earlier : List Char},
      Asks saving save (.emit name) → Asks running direct (.run name) →
      Asks loading load (.load tree) →
      direct.verbosity = load.verbosity → direct.lexical = load.lexical →
      (run highlight saving w earlier).ending = .exit 0 →
      (run highlight saving w earlier).workspace = saved →
      saved.locate (Path.ofText tree) =
        saved.locate (treePath (Path.ofText name)) →
      (0 < direct.verbosity →
        w.locate (Path.ofText name) ≠ w.locate tracePath) →
      ∃ cs statements, readText w (Path.ofText name) = .ok cs ∧
        parseProgram nestingLimit (String.ofList cs) = .ok statements ∧
        saved.find (Path.ofText tree) =
          .file (savedText statements).toByteArray.toList ∧
        ∀ input : List Char,
          (run highlight running w input).Alike
              (run highlight loading saved input) ∨
            nestingLimit < (Node.sequence statements).toJson.nesting ∧
              ∃ later, run highlight loading saved input =
                Report.failed later "" tooDeepMessage := by
  refine ⟨?_, ?_⟩
  · intro limit source statements hparse depth
    have hread := read_saved hparse .indented depth
    split
    · rename_i hnesting
      exact ⟨_, hread.trans (if_pos hnesting), Node.ofJson_toJson _⟩
    · rename_i hnesting
      exact hread.trans (if_neg hnesting)
  · intro saving running loading save direct load name tree w saved earlier
      hsaving hrunning hloading hverbosity hlexical hexit hworkspace htree
      hname
    rw [run_emit hsaving] at hexit hworkspace
    obtain ⟨cs, statements, hread, hparse, hwritten⟩ :=
      exists_of_emitTree hexit
    obtain rfl := hwritten.symm.trans hworkspace
    obtain ⟨p, hp⟩ := exists_locate_of_readText hread
    obtain ⟨q, hq⟩ := Workspace.exists_locate_withEnding ".ast.json" hp
    have hother := locate_treePath_ne w (Path.ofText name)
    rw [Workspace.locate_write, Workspace.locate_write] at htree
    have hsaved : (w.write (treePath (Path.ofText name))
        (savedText statements)).find (Path.ofText tree) =
        .file (savedText statements).toByteArray.toList :=
      Workspace.find_write_self hq (htree.trans hq)
    refine ⟨cs, statements, hread, hparse, hsaved, fun input => ?_⟩
    rw [run_eq_runTask hrunning rfl, run_eq_runTask hloading rfl]
    refine runTask_alike hverbosity hlexical hread hparse hname hsaved ?_
      (Workspace.find_write_of_ne hother.symm).symm input
    rw [Workspace.locate_write, Workspace.locate_write, htree]
    exact hother

theorem show_runs_alike :
    (run id ["--emit-ast", "show"] (holding "show" showText) []).ending =
        .exit 0 ∧
      (run id ["-v", "show"] (holding "show" showText) []).Alike
        (run id ["-v", "--ast", "show.ast.json"]
          (run id ["--emit-ast", "show"] (holding "show" showText) []).workspace
          []) ∧
      (run id ["-v", "show"] (holding "show" showText) []).output = "nil\n" ∧
      ∃ json, Json.read nestingLimit (savedText showProgram).toList =
          .ok json ∧
        Node.ofJson json = .ok (.sequence showProgram) := by
  have hsaving : Asks ["--emit-ast", "show"]
      ⟨0, false, some "show", none, none, none⟩ (.emit "show") :=
    ⟨by decide, by decide⟩
  have hrunning : Asks ["-v", "show"]
      ⟨1, false, none, none, none, some "show"⟩ (.run "show") :=
    ⟨by decide, by decide⟩
  have hloading : Asks ["-v", "--ast", "show.ast.json"]
      ⟨1, false, none, none, some "show.ast.json", none⟩
      (.load "show.ast.json") := ⟨by decide, by decide⟩
  have hpath : Path.ofText "show" = ⟨"", ["show"]⟩ := by decide
  have htree : Path.ofText "show.ast.json" =
      treePath (Path.ofText "show") := by decide
  have hread : readText (holding "show" showText) (Path.ofText "show") =
      .ok showText.toList := by
    rw [hpath]
    exact readText_of_isStored isStored_showText
      (find_holding showText (by decide))
  have hname : (holding "show" showText).locate (Path.ofText "show") ≠
      (holding "show" showText).locate tracePath := by
    rw [hpath, tracePath_eq, locate_holding _ _ (by decide),
      locate_holding _ _ (by decide)]
    decide
  have hfree : (holding "show" showText).find tracePath = .missing := by
    rw [tracePath_eq]
    exact find_holding_of_ne _ (by decide) (by decide)
  have hexit : (run id ["--emit-ast", "show"] (holding "show" showText)
      []).ending = .exit 0 := by
    rw [run_emit hsaving, hpath,
      emitTree_holding (by decide)]
    rfl
  refine ⟨hexit, ?_, ?_, ?_⟩
  · obtain ⟨cs, statements, hcs, hparse, -, halike⟩ :=
      (saved_program_runs_alike id).2 hsaving hrunning hloading rfl rfl hexit
        rfl (by rw [htree]) fun _ => hname
    obtain rfl := Except.ok.inj (hread.symm.trans hcs)
    obtain rfl := Except.ok.inj (parseProgram_showText.symm.trans hparse)
    exact (halike []).resolve_right fun hdeep =>
      absurd nesting_showProgram (Nat.not_le.mpr hdeep.1)
  · rw [run_eq_runTask hrunning rfl, runTask_run_of_readText
      (fun h => by simp [hfree] at h) hread parseProgram_showText
      (fun _ => hname), runLoaded, output_reportOf]
    exact output_showProgram
  · have hdecoded :=
      (saved_program_runs_alike id).1 parseProgram_showText nestingLimit
    rw [if_pos nesting_showProgram] at hdecoded
    exact hdecoded

/-- A program in the file of the trace is emptied before a traced run reads
it, while its saved tree still runs. -/
theorem traced_program_is_emptied :
    (run id ["--emit-ast", "debug.txt"] (holding "debug.txt" showText)
        []).ending = .exit 0 ∧
      (run id ["-v", "debug.txt"] (holding "debug.txt" showText) []).output =
        "" ∧
      (run id ["-v", "--ast", "debug.txt.ast.json"]
        (run id ["--emit-ast", "debug.txt"] (holding "debug.txt" showText)
          []).workspace []).output = "nil\n" := by
  have hsaving : Asks ["--emit-ast", "debug.txt"]
      ⟨0, false, some "debug.txt", none, none, none⟩ (.emit "debug.txt") :=
    ⟨by decide, by decide⟩
  have hrunning : Asks ["-v", "debug.txt"]
      ⟨1, false, none, none, none, some "debug.txt"⟩ (.run "debug.txt") :=
    ⟨by decide, by decide⟩
  have hloading : Asks ["-v", "--ast", "debug.txt.ast.json"]
      ⟨1, false, none, none, some "debug.txt.ast.json", none⟩
      (.load "debug.txt.ast.json") := ⟨by decide, by decide⟩
  have hpath : Path.ofText "debug.txt" = ⟨"", ["debug.txt"]⟩ := by decide
  have htree : Path.ofText "debug.txt.ast.json" =
      treePath ⟨"", ["debug.txt"]⟩ := by decide
  have hemit : run id ["--emit-ast", "debug.txt"]
      (holding "debug.txt" showText) [] = Report.finished
        ((holding "debug.txt" showText).write (treePath ⟨"", ["debug.txt"]⟩)
          (savedText showProgram)) "debug.txt.ast.json\n" := by
    rw [run_emit hsaving, hpath]
    exact emitTree_holding (by decide)
  have hfile : (holding "debug.txt" showText).find tracePath =
      .file showText.toByteArray.toList := find_holding showText (by decide)
  have hother := locate_treePath_ne (holding "debug.txt" showText)
    ⟨"", ["debug.txt"]⟩
  refine ⟨by rw [hemit]; rfl, ?_, ?_⟩
  · have hempty : loadProgram ((holding "debug.txt" showText).begun 1)
        "debug.txt" = .ok [] := loadProgram_of_locate_eq Nat.one_pos rfl
    rw [run_eq_runTask hrunning rfl,
      runTask_run (fun h => by simp [hfile] at h), hempty, runLoaded,
      output_reportOf]
    rfl
  · have hplace := locate_holding "debug.txt" showText
      (show "debug.txt.ast.json" ≠ ".." by decide)
    have hfound : ((holding "debug.txt" showText).write
        (treePath ⟨"", ["debug.txt"]⟩) (savedText showProgram)).find
          (Path.ofText "debug.txt.ast.json") =
        .file (savedText showProgram).toByteArray.toList := by
      rw [htree]
      exact Workspace.find_write_self hplace hplace
    have hkept : ((holding "debug.txt" showText).write
        (treePath ⟨"", ["debug.txt"]⟩) (savedText showProgram)).find
          tracePath = .file showText.toByteArray.toList :=
      (Workspace.find_write_of_ne hother.symm).trans hfile
    have hapart : ((holding "debug.txt" showText).write
        (treePath ⟨"", ["debug.txt"]⟩) (savedText showProgram)).locate
          (Path.ofText "debug.txt.ast.json") ≠
        ((holding "debug.txt" showText).write
          (treePath ⟨"", ["debug.txt"]⟩) (savedText showProgram)).locate
            tracePath := by
      rw [htree, Workspace.locate_write, Workspace.locate_write]
      exact hother
    rw [hemit, run_eq_runTask hloading rfl, Report.finished,
      runTask_load_saved (fun h => by simp [hkept] at h)
        parseProgram_showText hfound hapart, if_pos nesting_showProgram,
      runLoaded, output_reportOf]
    exact output_showProgram

end Scriptlet.Command
