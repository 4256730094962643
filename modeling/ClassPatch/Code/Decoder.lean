import ClassPatch.Code.Disassembly

/-!
# Decoding with 32-bit numbers

The decoder of bytecode on its own. Its offsets and label numbers have 32 bits and wrap around: in
code of more than 4 GiB an offset is cut to its low bits, and after 2³² labels the numbers start
again. Method bodies, whose code is far shorter, are decoded with numbers without bound.
-/

namespace ClassPatch.Code

/-- The operand with every target replaced. -/
def Operand.mapTargets {τ υ : Type} (f : τ → υ) (operand : Operand τ) : Operand υ :=
  Id.run (operand.mapTargetsM fun target => pure (f target))

/-- The instruction with every target replaced. -/
def Instruction.mapTargets {τ υ : Type} (f : τ → υ) (i : Instruction τ) : Instruction υ :=
  ⟨i.opcode, i.operand.mapTargets f⟩

/-- The label numbers of offsets and the next fresh one. -/
structure LabelTable where
  byOffset : Std.TreeMap UInt32 UInt32
  next : UInt32

namespace LabelTable

/-- The table without labels. -/
def empty : LabelTable := ⟨∅, 0⟩

/-- A label that stands for no offset. -/
def fresh (t : LabelTable) : UInt32 × LabelTable := (t.next, { t with next := t.next + 1 })

/-- The label of an offset. -/
def get? (t : LabelTable) (offset : UInt32) : Option UInt32 := t.byOffset[offset]?

/-- The label of an offset, a fresh one if it has none yet. -/
def labelAt (t : LabelTable) (offset : UInt32) : UInt32 × LabelTable :=
  match t.get? offset with
  | some label => (label, t)
  | none => (t.next, ⟨t.byOffset.insert offset t.next, t.next + 1⟩)

/-- The table as a map of numbers without bound. -/
def toLabelMap (t : LabelTable) : LabelMap where
  byOffset := .ofList (t.byOffset.toList.map fun (offset, label) => (offset.toNat, ⟨label.toNat⟩)) _
  next := t.next.toNat

end LabelTable

/-- A computation that hands out label numbers. -/
abbrev Numbering := StateM LabelTable

/-- The label of an offset. -/
def Numbering.label (offset : UInt32) : Numbering UInt32 := fun t => t.labelAt offset

/-- An instruction with its labels, and the offset where it starts. -/
structure Decoded where
  offset : UInt32
  instruction : Instruction UInt32
deriving Repr, DecidableEq

/-- The instruction as one with numbers without bound. -/
def Decoded.located (d : Decoded) : Located Label :=
  ⟨d.offset.toNat, d.instruction.mapTargets fun label => ⟨label.toNat⟩⟩

/-- The instruction with the labels of its targets, its offset and its targets cut to 32 bits. -/
def Located.numbered (l : Located Nat) : Numbering Decoded :=
  return ⟨l.offset.toUInt32,
    ← l.instruction.mapTargetsM fun target => Numbering.label target.toUInt32⟩

/-- The instructions of bytecode with the labels of their targets, which are handed out in the order
in which the targets are read. -/
def decode32 (code : List UInt8) (labels : LabelTable) :
    Except Error (List Decoded × LabelTable) := do
  return (← disassemble code).mapM Located.numbered labels

end ClassPatch.Code
