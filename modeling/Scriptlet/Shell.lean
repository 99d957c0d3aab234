import Scriptlet.Session
import Scriptlet.Text.Blank

/-!
# The shell

The shell takes code line by line. While a function is open it collects
lines; then it evaluates what it has, statement by statement, and prints
each value. A line that is only `exit` or `EOF` asks to leave. Errors of
the language are reported and the shell goes on.
-/

namespace Scriptlet

/-- The next statement, if there is one before the end. -/
def Parse.nextStatement (limit : Nat) : Parse (Option Node) := do
  skipSeparators
  if (← Step.get).atEnd then return none
  else
    let node ← withFuel (statement · limit)
    return some node

namespace Session

def print (text : String) : Act Unit :=
  Step.modify fun s =>
    { s with machine := { s.machine with output := s.machine.output ++ text } }

def printResult (value : Value) : Act Unit :=
  match value.display? with
  | some text => print ("=> " ++ text ++ "\n")
  | none => Step.fail (.fault .integerTooLarge)

/-- Evaluates the statements from a cursor on, each before the next one is
parsed. The first number bounds how many there are. -/
def executeFrom (site : Site) : Nat → Nat → Cursor → Act Unit
  | 0, _, _ => pure ()
  | count + 1, index, cursor => do
    let limit := (← Step.get).setting.limit
    match Parse.nextStatement limit cursor with
    | .failed e _ => Step.fail (.ofParse e)
    | .done none _ => pure ()
    | .done (some node) cursor =>
      let value ← perform fun setting =>
        evaluate setting setting.limit node (site.child index)
          Machine.globalScope
      printResult value
      executeFrom site count (index + 1) cursor

/-- Evaluates the statements of a text and prints their values. -/
def execute (source : String) : Act Unit := do
  let site ← load
  match Cursor.ofText source with
  | .error e => Step.fail (.parse e)
  | .ok cursor => executeFrom site cursor.fuel 0 cursor

end Session

structure Shell where
  session : Session
  /-- The lines of a function that is not closed yet. -/
  buffer : String
  /-- What is printed before the next line is read. -/
  prompt : String
  /-- How errors are made to stand out, which is up to the terminal. -/
  highlight : String → String

namespace Shell

def primaryPrompt : String := ">> "

/-- The prompt while a function is open. -/
def secondaryPrompt : String := ".. "

def start (highlight : String → String) (session : Session) : Shell :=
  ⟨session, "", primaryPrompt, highlight⟩

/-- What is printed when an interactive shell starts. -/
def greeting : String :=
  "minirb interactive interpreter\nType 'exit' or press Ctrl-D to leave.\n"

def within {α : Type} (act : Act α) : Step Failure Shell α := fun shell =>
  match act shell.session with
  | .done value session => .done value { shell with session }
  | .failed failure session => .failed failure { shell with session }

/-- Evaluates a text and reports the errors of the language in it. -/
def execute (source : String) : Step Failure Shell Unit := fun shell =>
  match within (Session.execute source) shell with
  | .done _ shell => .done () shell
  | .failed failure shell =>
    if failure.isProgramError then
      within (Session.print
        (shell.highlight ("Error: " ++ failure.message) ++ "\n")) shell
    else .failed failure shell

def takeCode (line : String) : Step Failure Shell Unit := do
  let source := (← Step.get).buffer ++ line ++ "\n"
  if needsMoreInput source then
    Step.modify fun shell =>
      { shell with buffer := source, prompt := secondaryPrompt }
  else
    Step.modify fun shell =>
      { shell with buffer := "", prompt := primaryPrompt }
    execute source

/-- Takes in a line, with the blanks around it removed, and says whether it
asks to leave. -/
def enter (line : String) : Step Failure Shell Bool :=
  match String.ofList (Text.trim Text.isBlank line.toList) with
  | "" => pure false
  | "exit" => pure true
  | "EOF" => do
    within (Session.print "\n")
    return true
  | code => do
    takeCode code
    return false

/-- Reads lines from the input of the session and takes them in, until one
asks to leave; the end of the input does so too. The number bounds how many
lines are read. -/
def loop : Nat → Step Failure Shell Unit
  | 0 => pure ()
  | count + 1 => do
    let shell ← Step.get
    within (Session.print shell.prompt)
    let line ← within (Session.perform fun _ => Eval.readLine)
    if ← enter (line.getD "EOF") then pure ()
    else loop count

/-- Runs the shell on the input of the session. Each line but the last has
at least its line end, so there is one line more than characters at most. -/
def interact : Step Failure Shell Unit := do
  within (Session.print greeting)
  loop ((← Step.get).session.machine.input.length + 1)

end Shell

end Scriptlet
