import ClassPatch.Artifact
import ClassPatch.Storage.Path

/-!
# Selections

Which artifacts, by their paths, and which of their entries, by their names, a transformer is for.
-/

namespace ClassPatch

/-- A condition on the path of an artifact. -/
inductive ArtifactPattern where
  | any
  /-- The path holds the text, in letters of either case as far as they are ASCII. -/
  | containing (text : String)
  /-- The path ends in the file name. -/
  | fileName (name : String)
deriving Repr, DecidableEq

/-- A condition on the name of an entry. -/
inductive EntryPattern where
  | any
  | exact (name : String)
  /-- The entry holds one of the classes. -/
  | classes (names : List String)
  | ending (text : String)
deriving Repr, DecidableEq

/-- Whether one list of characters stands within another one. -/
def standsIn (part : List Char) : List Char → Bool
  | [] => part.isEmpty
  | c :: rest => part.isPrefixOf (c :: rest) || standsIn part rest

/-- Whether a path meets the condition. -/
def ArtifactPattern.holds (path : String) : ArtifactPattern → Bool
  | any => true
  | containing text => standsIn (text.toList.map Char.toLower) (path.toList.map Char.toLower)
  | fileName name => Storage.Path.fileName? path = some name

/-- Whether a name meets the condition. -/
def EntryPattern.holds (name : String) : EntryPattern → Bool
  | any => true
  | exact wanted => name = wanted
  | classes names => (Entry.className? name).any names.contains
  | ending text => text.toList.isSuffixOf name.toList

/-- The entries that meet one condition in the artifacts that meet another one. -/
structure Selection where
  artifacts : ArtifactPattern
  entries : EntryPattern
deriving Repr, DecidableEq

namespace Selection

/-- All entries of all artifacts. -/
def all : Selection := ⟨.any, .any⟩

/-- Whether an entry of an artifact is selected. -/
def holds (s : Selection) (path name : String) : Bool :=
  s.artifacts.holds path && s.entries.holds name

end Selection

end ClassPatch
