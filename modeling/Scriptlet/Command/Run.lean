import Scriptlet.Command.Usage
import Scriptlet.Command.Workspace
import Scriptlet.Json.Reader
import Scriptlet.Json.Writer
import Scriptlet.Shell
import Scriptlet.Text.Utf8
import Scriptlet.Tree.Codec
import Scriptlet.Tree.Outline

/-!
# The command

The command runs a program or a saved tree, saves the tree of a program,
prints its outline, or starts a shell. Errors of the language and missing
files are reported on the error channel and end it with status 1; refused
arguments end it with status 2. Whatever else goes wrong escapes.
-/

namespace Scriptlet.Command

/-- What the command does not report itself. -/
inductive Escape where
  | fault (fault : Fault)
  | isDirectory (path : Path)
  | undecodable (fault : Text.Utf8.Fault)
  deriving Repr, BEq

def Escape.message : Escape → String
  | .fault f => f.message
  | .isDirectory path =>
    "[Errno 21] Is a directory: " ++ Text.quoted path.toText
  | .undecodable f => f.message

inductive Ending where
  | exit (status : Nat)
  | escape (cause : Escape)
  deriving Repr, BEq

/-- What the command did: how it ended, what it printed on its two
channels, and the files as it left them. -/
structure Report where
  ending : Ending
  output : String
  errors : String
  workspace : Workspace
  deriving Repr, BEq

namespace Report

def finished (workspace : Workspace) (output : String) : Report :=
  ⟨.exit 0, output, "", workspace⟩

/-- The report of an error, with what was printed before it. -/
def failed (workspace : Workspace) (output message : String) : Report :=
  ⟨.exit 1, output, "Error: " ++ message ++ "\n", workspace⟩

def escaped (workspace : Workspace) (output : String) (cause : Escape) :
    Report :=
  ⟨.escape cause, output, "", workspace⟩

def ofFailure (workspace : Workspace) (output : String) :
    Failure → Report
  | .parse e => failed workspace output e.message
  | .fault (.eval e) => failed workspace output e.message
  | .fault .tooDeep => failed workspace output tooDeepMessage
  | .fault f => escaped workspace output (.fault f)

end Report

/-! ## Reading files -/

inductive ReadFailure where
  | missing (path : Path)
  | escape (cause : Escape)
  deriving Repr, BEq

/-- Reads a file as text, with every line end as a line feed. -/
def readText (workspace : Workspace) (path : Path) :
    Except ReadFailure (List Char) :=
  match workspace.find path with
  | .missing => .error (.missing path)
  | .directory => .error (.escape (.isDirectory path))
  | .file bytes =>
    match Text.Utf8.decode bytes with
    | .ok cs => .ok (Text.unifyNewlines cs)
    | .error f => .error (.escape (.undecodable f))

def ReadFailure.report (workspace : Workspace) : ReadFailure → Report
  | .missing path =>
    Report.failed workspace "" ("file " ++ path.toText ++ " not found")
  | .escape cause => Report.escaped workspace "" cause

/-- Reads a program and goes on with its statements. Nesting without end
escapes here. -/
def withProgram (workspace : Workspace) (path : Path)
    (next : List Node → Report) : Report :=
  match readText workspace path with
  | .error failure => failure.report workspace
  | .ok cs =>
    match parseProgram nestingLimit (String.ofList cs) with
    | .error (.error e) => Report.failed workspace "" e.message
    | .error .tooDeep => Report.escaped workspace "" (.fault .tooDeep)
    | .ok statements => next statements

/-! ## Trees of programs -/

/-- The file that the tree of a program is saved in, next to the program. -/
def treePath (path : Path) : Path := path.withEnding ".ast.json"

/-- Saves the tree of a program in a file next to it, and prints that
file's path. The file is created before the tree is written out. -/
def emitTree (workspace : Workspace) (path : Path) : Report :=
  withProgram workspace path fun statements =>
    let target := treePath path
    match workspace.find target with
    | .directory => Report.escaped workspace "" (.isDirectory target)
    | _ =>
      match (Node.sequence statements).toJson? nestingLimit with
      | none =>
        Report.escaped (workspace.write target "") "" (.fault .tooDeep)
      | some json =>
        Report.finished
          (workspace.write target (json.write .indented))
          (target.toText ++ "\n")

/-- Prints the outlines of statements after what is printed already. -/
def printOutlines (workspace : Workspace) (output : String) :
    List Node → Report
  | [] => Report.finished workspace output
  | node :: rest =>
    match node.outlineWithin nestingLimit 0 with
    | .ok text => printOutlines workspace (output ++ text ++ "\n") rest
    | .error f => Report.escaped workspace output (.fault f)

def dumpTree (workspace : Workspace) (path : Path) : Report :=
  withProgram workspace path (printOutlines workspace "")

/-! ## Running -/

def tracePath : Path := Path.ofText "debug.txt"

/-- The statements in a file with a saved tree. `name` is the file's name as
it was given. -/
def loadTree (workspace : Workspace) (name : String) :
    Except Report (List Node) :=
  let invalid (message : String) : Except Report (List Node) :=
    .error (Report.failed workspace ""
      ("invalid AST file " ++ name ++ ": " ++ message))
  match readText workspace (Path.ofText name) with
  | .error (.escape (.undecodable f)) => invalid f.message
  | .error failure => .error (failure.report workspace)
  | .ok cs =>
    match Json.read nestingLimit cs with
    | .error .tooDeep => .error (Report.failed workspace "" tooDeepMessage)
    | .error e => invalid (e.message cs)
    | .ok json =>
      match Node.ofJson json with
      | .error e => invalid e.message
      | .ok (.sequence items) => .ok items
      | .ok node => .ok [node]

def loadProgram (workspace : Workspace) (name : String) :
    Except Report (List Node) :=
  match readText workspace (Path.ofText name) with
  | .error failure => .error (failure.report workspace)
  | .ok cs =>
    match parseProgram nestingLimit (String.ofList cs) with
    | .ok statements => .ok statements
    | .error e =>
      .error (Report.ofFailure workspace "" (Failure.ofParse e))

/-- The report of what was done in a session, with its trace written. -/
def reportOf {α : Type} (workspace : Workspace)
    (outcome : Outcome Failure Session α) : Report :=
  let session := outcome.state
  let workspace :=
    if 0 < session.setting.level then
      workspace.write tracePath (traceText session.machine.trace.toList)
    else workspace
  match outcome.result with
  | .ok _ => Report.finished workspace session.machine.output
  | .error failure =>
    Report.ofFailure workspace session.machine.output failure

/-- Starts a session and does one of the tasks that need one. A trace is
begun, with an empty file, before anything is read. -/
def runTask (highlight : String → String) (workspace : Workspace)
    (options : Options) (input : List Char) (task : Task) : Report :=
  let traced := 0 < options.verbosity
  if traced ∧ workspace.find tracePath = .directory then
    Report.escaped workspace "" (.isDirectory tracePath)
  else
    let workspace := if traced then workspace.write tracePath "" else workspace
    let session := Session.start options.lexical options.verbosity input
    let run : Except Report (List Node) → Report
      | .error report => report
      | .ok statements =>
        reportOf workspace
          (Session.runNodes statements Machine.globalScope session)
    match task with
    | .load name => run (loadTree workspace name)
    | .run name => run (loadProgram workspace name)
    | _ =>
      match Shell.interact (Shell.start highlight session) with
      | .done _ shell => reportOf workspace (.done () shell.session)
      | .failed failure shell =>
        reportOf workspace
          (.failed failure shell.session : Outcome Failure Session Unit)

/-- Does what the arguments ask for. How a shell makes errors stand out is up
to the terminal. -/
def run (highlight : String → String) (arguments : List String)
    (workspace : Workspace) (input : List Char) : Report :=
  match request arguments with
  | .help => Report.finished workspace help
  | .refuse error => ⟨.exit 2, "", refusalText error, workspace⟩
  | .proceed options =>
    match options.task with
    | .emit name => emitTree workspace (Path.ofText name)
    | .dump name => dumpTree workspace (Path.ofText name)
    | task => runTask highlight workspace options input task

end Scriptlet.Command
