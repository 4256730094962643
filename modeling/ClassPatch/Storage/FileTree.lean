import ClassPatch.Error
import ClassPatch.Storage.Path
import ClassPatch.Text.Utf8

/-!
# File trees

Directories and files below a root directory. A path is followed name by name, so that a step back
needs the directory that it leaves. A failed step keeps what it had changed before it failed.
-/

namespace ClassPatch.Storage

open Text

/-- What a name stands for. -/
inductive Item where
  | directory
  | file (data : List UInt8)
deriving Repr, DecidableEq

/-- The directories and files by their places, which are paths without steps back. The root is one of
the directories, and nothing is there before it is made. -/
structure FileTree where
  items : List (Path × Item)
deriving Repr, DecidableEq

/-- A step over a file tree. -/
abbrev TreeEdit := EStateM Error FileTree

namespace FileTree

/-- Nothing, not even the root directory. -/
def empty : FileTree := ⟨[]⟩

/-- What is at a place. -/
def find? (t : FileTree) (place : Path) : Option Item := t.items.lookup place

/-- The tree with an item in its place. -/
def insert (t : FileTree) (place : Path) (item : Item) : FileTree :=
  ⟨(place, item) :: t.items.filter (·.1 ≠ place)⟩

/-- The bytes that a name may have. -/
def maxNameBytes : Nat := 255

/-- The bytes that the text of a path may have. -/
def maxPathBytes : Nat := 4095

/-- Whether a directory can hold an item of the name. -/
def isName (name : String) : Bool := (Utf8.encode name).length ≤ maxNameBytes

/-- Whether a path can be looked up: it is not too long and none of its names holds a NUL. -/
def isLookedUp (path : Path) : Bool :=
  (Utf8.encode path.text).length ≤ maxPathBytes && path.all fun name => !name.toList.contains '\x00'

/-- Where a name leads from a place, which must be that of a directory. -/
def enter? (t : FileTree) (place : Path) (name : String) : Option Path :=
  if t.find? place = some .directory then some (place.step name) else none

/-- The place that a path leads to. All names before the last are those of directories. -/
def resolve? (t : FileTree) (path : Path) : Option Path :=
  if isLookedUp path then path.foldlM t.enter? [] else none

/-- Make a directory, unless it is there already. The one above it, if any, is there. -/
def makeDirectory (place : Path) : TreeEdit Unit := do
  match (← get).find? place with
  | some .directory => return ()
  | some (.file _) => throw .file
  | none => if place.getLast?.all isName then modify (·.insert place .directory) else throw .file

/-- Make the directory that a name leads to from a place. The result is its place. -/
def descend (above : Path) (name : String) : TreeEdit Path := do
  makeDirectory (above.step name)
  return above.step name

/-- Make all directories of a path, from the root down. -/
def makeDirectories (path : Path) : TreeEdit Unit := do
  if isLookedUp path then
    makeDirectory []
    let _ ← path.foldlM descend []
  else throw .file

/-- Whether a file can be written at a place in a directory: there is one already, or the directory
can hold its name. -/
def canWrite (t : FileTree) (place : Path) : Bool :=
  match t.find? place with
  | some .directory => false
  | some (.file _) => true
  | none => place.getLast?.any isName

/-- Write a file into a directory that exists, in place of what the file held before. -/
def writeFile (path : Path) (data : List UInt8) : TreeEdit Unit := do
  let t ← get
  match t.resolve? path with
  | none => throw .file
  | some place => if t.canWrite place then set (t.insert place (.file data)) else throw .file

/-- An item below a directory, with its path from there. -/
def below? (directory : Path) : Path × Item → Option (Path × Item)
  | (place, item) =>
    if directory.isPrefixOf place && directory != place then
      some (place.drop directory.length, item)
    else none

/-- The data of a file. -/
def file? : Path × Item → Option (Path × List UInt8)
  | (path, .file data) => some (path, data)
  | (_, .directory) => none

/-- All files below the directory that a path leads to, with their paths from there. All that is below
the directory is looked up by paths that go on from the given one. -/
def filesBelow (t : FileTree) (path : Path) : Except Error (List (Path × List UInt8)) :=
  match t.resolve? path with
  | none => .error .file
  | some place =>
    let items := t.items.filterMap (below? place)
    if t.find? place = some .directory && items.all (isLookedUp <| path.join ·.1) then
      .ok (items.filterMap file?)
    else .error .file

end FileTree

end ClassPatch.Storage
