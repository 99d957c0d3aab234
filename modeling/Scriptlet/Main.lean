import Scriptlet.Command.Run

/-!
# The program

Collects what the command can see, runs the command on it, and carries out
what the report says. Only the files that the arguments name are looked at,
and the input is read only for tasks that use it.
-/

namespace Scriptlet.Command

def look (path : String) : IO Entry := do
  match ← (IO.FS.Handle.mk path .read).toBaseIO with
  | .error _ => return .missing
  | .ok handle =>
    match ← handle.readBinToEnd.toBaseIO with
    | .ok bytes => return .file bytes.toList
    | .error _ => return .directory

/-- The place of a path, two dots leading back to the name before. -/
def placeOf (home : Place) (path : Path) : Place :=
  path.parts.foldl
    (fun place part => if part = ".." then place.dropLast else place ++ [part])
    (if path.isAbsolute then [] else home)

def observe (workspace : Workspace) (path : Path) : IO Workspace := do
  let place := placeOf workspace.home path
  match ← look path.toText with
  | .missing => return workspace
  | .directory =>
    return { workspace with directories := place :: workspace.directories }
  | .file bytes =>
    return { workspace with files := (place, bytes) :: workspace.files }

def pathsOf : Request → List Path
  | .proceed options =>
    match options.task.path? with
    | some name =>
      let path := Path.ofText name
      tracePath :: treePath path :: path.steps
    | none => [tracePath]
  | _ => []

/-- Whether a request needs the input of the command: a shell does, and a
program or tree that can be run. -/
def needsInput (workspace : Workspace) : Request → Bool
  | .proceed options =>
    options.task.readsInput &&
      match options.task.path? with
      | some name =>
        match workspace.find (Path.ofText name) with
        | .file _ => true
        | _ => false
      | none => true
  | _ => false

/-- Reads a stream to its end. -/
partial def readAll (stream : IO.FS.Stream) (text : String) : IO String := do
  let line ← stream.getLine
  if line.isEmpty then return text else readAll stream (text ++ line)

def highlight (text : String) : String :=
  "\x1b[1m\x1b[31m" ++ text ++ "\x1b[0m"

def perform (arguments : List String) : IO UInt32 := do
  let home := (Path.ofText (toString (← IO.currentDir))).parts
  let asked := request arguments
  let workspace ← (pathsOf asked).foldlM observe ⟨home, [], []⟩
  let input ←
    if needsInput workspace asked then readAll (← IO.getStdin) "" else pure ""
  let report :=
    run highlight arguments workspace (Text.unifyNewlines input.toList)
  IO.print report.output
  IO.eprint report.errors
  for (place, bytes) in workspace.changes report.workspace do
    IO.FS.writeBinFile ("/" ++ "/".intercalate place) ⟨bytes.toArray⟩
  match report.ending with
  | .exit status => return status.toUInt32
  | .escape cause =>
    IO.eprintln cause.message
    return 1

end Scriptlet.Command

def main (arguments : List String) : IO UInt32 :=
  Scriptlet.Command.perform arguments
