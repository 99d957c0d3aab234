import Scriptlet.Command.Path

/-!
# Files

The files that the command can see, by their names from the root of the
file system, and the directory in which it works. Directories are those
that are on the way to a file, to a listed directory or to the working
directory.
-/

namespace Scriptlet.Command

/-- A place in the file system: the names that lead there from the root. -/
abbrev Place := List String

structure Workspace where
  /-- The directory in which the command works. -/
  home : Place
  directories : List Place
  files : List (Place × List UInt8)
  deriving Repr, DecidableEq

inductive Entry where
  | missing
  | directory
  | file (bytes : List UInt8)
  deriving Repr, DecidableEq

namespace Workspace

def isDirectory (w : Workspace) (place : Place) : Bool :=
  place.isPrefixOf w.home
    || w.directories.any place.isPrefixOf
    || w.files.any fun file => file.1 != place && place.isPrefixOf file.1

/-- Follows names from a directory on. Two dots lead back to the directory
above; only a directory leads anywhere. -/
def follow (w : Workspace) (place : Place) : List String → Option Place
  | [] => some place
  | part :: rest =>
    if w.isDirectory place then
      w.follow (if part = ".." then place.dropLast else place ++ [part]) rest
    else none

def locate (w : Workspace) (path : Path) : Option Place :=
  w.follow (if path.isAbsolute then [] else w.home) path.parts

def entryAt (w : Workspace) (place : Place) : Entry :=
  match w.files.lookup place with
  | some bytes => .file bytes
  | none => if w.isDirectory place then .directory else .missing

def find (w : Workspace) (path : Path) : Entry :=
  match w.locate path with
  | some place => w.entryAt place
  | none => .missing

def put (files : List (Place × List UInt8)) (place : Place)
    (bytes : List UInt8) : List (Place × List UInt8) :=
  match files with
  | [] => [(place, bytes)]
  | (p, old) :: rest =>
    if p == place then (p, bytes) :: rest else (p, old) :: put rest place bytes

def write (w : Workspace) (path : Path) (text : String) : Workspace :=
  match w.locate path with
  | some place =>
    { w with files := put w.files place text.toByteArray.toList }
  | none => w

/-- The files of a later workspace that an earlier one has not, or has with
another content. -/
def changes (earlier later : Workspace) : List (Place × List UInt8) :=
  later.files.filter fun file =>
    earlier.files.lookup file.1 != some file.2

/-- The name of a place in the working directory, seen from there. -/
def nameOf (w : Workspace) (place : Place) : String :=
  "/".intercalate (place.drop w.home.length)

end Workspace

end Scriptlet.Command
