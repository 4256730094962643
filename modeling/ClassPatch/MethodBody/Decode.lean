import Std.Data.HashSet
import ClassPatch.Code.Attribute
import ClassPatch.Code.Disassembly
import ClassPatch.Code.FrameTable
import ClassPatch.ConstantPool.Basic
import ClassPatch.MethodBody.Basic

/-!
# Method bodies from stored code

Reading the code of a method with its tables. Every place that a branch or a table refers to must be
the start of an instruction or the end of the code. Attributes of other names are left out.
-/

namespace ClassPatch

open Bytes Code

namespace CodeTable

/-- A stored line number. -/
def readLine : Reader (LineNumber Nat) := do
  let start ← Reader.u16
  return ⟨start.toNat, ← Reader.u16⟩

/-- A stored local variable, whose range is given by its start and length. -/
def readVariable : Reader (LocalVariable Nat) := do
  let start ← Reader.u16
  let length ← Reader.u16
  let nameIndex ← Reader.u16
  let descriptorIndex ← Reader.u16
  return { start := start.toNat, stop := start.toNat + length.toNat, nameIndex, descriptorIndex,
           slot := ← Reader.u16 }

/-- The items of a counted list. -/
def readCounted {α : Type} (reader : Reader α) : Reader (List α) := do
  Reader.times (← Reader.u16).toNat reader

/-- The table stored in an attribute of the code, none for other attributes. -/
def ofAttribute? (pool : ConstantPool) (codeLength : Nat) (a : Attribute) :
    Except Error (Option (CodeTable Nat)) := do
  let name ← pool.getText a.nameIndex
  if name = MethodBody.lineTableName then
    return some (.lines (← (readCounted readLine).runOn a.data))
  else if name = MethodBody.localTableName then
    return some (.locals (← (readCounted readVariable).runOn a.data))
  else if name = MethodBody.localTypeTableName then
    return some (.localTypes (← (readCounted readVariable).runOn a.data))
  else if name = MethodBody.frameTableName then
    return some (.frames (← (FrameTable.readTable codeLength).runOn a.data))
  else return none

end CodeTable

namespace MethodBody

/-- A stored exception entry by its places. -/
def tryBlock (entry : ExceptionEntry) : TryBlock Nat where
  start := entry.start.toNat
  stop := entry.stop.toNat
  handler := entry.handler.toNat
  catchType := entry.catchType

/-- Code and its tables with labels as places. -/
structure Labelled where
  instructions : List (Located Label)
  tryBlocks : List (TryBlock Label)
  tables : List (CodeTable Label)

/-- Give labels to the places in code and its tables, in the order in which they are stored. -/
def label (instructions : List (Located Nat)) (tryBlocks : List (TryBlock Nat))
    (tables : List (CodeTable Nat)) : Labelling Labelled := do
  let instructions ← instructions.mapM Located.labelled
  let tryBlocks ← tryBlocks.mapM TryBlock.labelled
  return { instructions, tryBlocks, tables := ← tables.mapM CodeTable.labelled }

/-- The first place with a label that is neither the start of an instruction nor the end. -/
def strayPlace? (instructions : List (Located Label)) (codeLength : Nat) (labels : LabelMap) :
    Option Nat :=
  let starts := Std.HashSet.ofList (instructions.map (·.offset))
  (labels.toList.find? fun (place, _) => place != codeLength && !starts.contains place).map (·.1)

/-- The body of stored code. -/
def decode (pool : ConstantPool) (code : CodeAttribute) : Except Error MethodBody := do
  let codeLength := code.code.length
  let instructions ← disassemble code.code
  let tables ← code.attributes.mapM (CodeTable.ofAttribute? pool codeLength)
  let (found, labels) := label instructions (code.exceptions.map tryBlock)
    (tables.filterMap id) .empty
  match strayPlace? found.instructions codeLength labels with
  | some place => .error (.malformed (.instructionBoundary place))
  | none =>
    return {
      maxStack := code.maxStack
      maxLocals := code.maxLocals
      nodes := labelledNodes labels found.instructions ++ labelNodes labels codeLength
      tryBlocks := found.tryBlocks
      lines := found.tables.flatMap fun | .lines entries => entries | _ => []
      locals := found.tables.flatMap fun | .locals entries => entries | _ => []
      localTypes := found.tables.flatMap fun | .localTypes entries => entries | _ => []
      frames := (found.tables.filterMap fun | .frames entries => some entries | _ => none).getLast?
      labels }

end MethodBody

end ClassPatch
