import Std.Data.TreeMap
import ClassPatch.Code.Instruction

/-!
# Labels of offsets

Labels handed out for the offsets of existing code. An offset keeps its label, and no two offsets
share one. Offsets and label numbers have no bound here. Those of 32 bits agree with them in code of
at most 4 GiB, which holds for every method, and up to 2³² labels: `decode32_of_decode`.
-/

namespace ClassPatch.Code

/-- The labels of offsets and the number of the next fresh label. -/
structure LabelMap where
  byOffset : Std.TreeMap Nat Label
  next : Nat

namespace LabelMap

/-- The map without labels. -/
def empty : LabelMap := ⟨∅, 0⟩

/-- A label that stands for no offset. -/
def fresh (m : LabelMap) : Label × LabelMap := (⟨m.next⟩, { m with next := m.next + 1 })

/-- The label of an offset. -/
def get? (m : LabelMap) (offset : Nat) : Option Label := m.byOffset[offset]?

/-- The label of an offset, a fresh one if it has none yet. -/
def labelAt (m : LabelMap) (offset : Nat) : Label × LabelMap :=
  match m.get? offset with
  | some label => (label, m)
  | none => (⟨m.next⟩, ⟨m.byOffset.insert offset ⟨m.next⟩, m.next + 1⟩)

/-- The offsets with labels in ascending order. -/
def toList (m : LabelMap) : List (Nat × Label) := m.byOffset.toList

end LabelMap

/-- A computation that hands out labels. -/
abbrev Labelling := StateM LabelMap

/-- The label of an offset, which is not cut to 32 bits. -/
def Labelling.label (offset : Nat) : Labelling Label := fun m => m.labelAt offset

end ClassPatch.Code
