/-!
# Paths

A path is a row of names from the root or from the working directory. Empty
names and single dots are left out of it; two dots stay, because what they
mean depends on the files.
-/

namespace Scriptlet.Command

structure Path where
  /-- The slashes that make a path absolute; none in a relative path. -/
  root : String
  parts : List String
  deriving Repr, DecidableEq

namespace Path

/-- The slashes that a path keeps of those it begins with: exactly two stay
two, any other number becomes one. -/
def rootOf : List Char → String
  | '/' :: '/' :: '/' :: _ => "/"
  | '/' :: '/' :: _ => "//"
  | '/' :: _ => "/"
  | _ => ""

def ofText (text : String) : Path where
  root := rootOf text.toList
  parts := ((text.toList.splitOn '/').map String.ofList).filter
    fun part => part != "" && part != "."

def toText (path : Path) : String :=
  match path.root ++ "/".intercalate path.parts with
  | "" => "."
  | text => text

def isAbsolute (path : Path) : Bool := path.root != ""

/-- The path and those of the directories that it leads through. -/
def steps (path : Path) : List Path :=
  (List.range (path.parts.length + 1)).map fun n =>
    { path with parts := path.parts.take n }

/-- The path of the file next to this one whose name is longer by an
ending. -/
def withEnding (path : Path) (ending : String) : Path :=
  match path.parts.getLast? with
  | some name => { path with parts := path.parts.dropLast ++ [name ++ ending] }
  | none => path

end Path

end Scriptlet.Command
