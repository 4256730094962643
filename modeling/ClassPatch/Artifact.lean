/-!
# Artifacts

An artifact is an ordered list of named entries, some of which hold classes. Names are written with
slashes.
-/

namespace ClassPatch

/-- A named entry of an artifact. -/
structure Entry where
  name : String
  data : List UInt8
deriving Repr, DecidableEq

/-- Entries, with the path of what holds them. -/
structure Artifact where
  path : String
  entries : List Entry
deriving Repr, DecidableEq

namespace Entry

/-- What the names of classes end in. -/
def classEnding : List Char := ".class".toList

/-- The class that an entry of the name holds. -/
def className? (name : String) : Option String :=
  if classEnding.isSuffixOf name.toList then
    some (String.ofList (name.toList.take (name.length - classEnding.length)))
  else none

/-- Whether an entry holds a class. -/
def isClass (entry : Entry) : Bool := (className? entry.name).isSome

end Entry

/-- The first entry of a name. -/
def Artifact.find? (a : Artifact) (name : String) : Option Entry :=
  a.entries.find? (·.name = name)

end ClassPatch
