import ClassPatch.Code.Attribute
import ClassPatch.Code.FrameTable
import ClassPatch.Code.Layout
import ClassPatch.ConstantPool.Intern
import ClassPatch.MethodBody.Basic

/-!
# Method bodies to stored code

Laying out the nodes of a body and storing its tables by the places of their labels. Entries whose
labels are gone, and ranges without code, are dropped; a frame must keep its label.
-/

namespace ClassPatch

open Bytes Code

/-- The stored exception entry of a block, none if its range holds no code. -/
def TryBlock.stored? (places : Places) (b : TryBlock Label) : Option ExceptionEntry := do
  let start ← places[b.start]?
  let stop ← places[b.stop]?
  let handler ← places[b.handler]?
  if start < stop then
    some { start := UInt16.ofNat start, stop := UInt16.ofNat stop, handler := UInt16.ofNat handler,
           catchType := b.catchType }
  else none

/-- The stored form of a line number, none if it is not inside the code. -/
def LineNumber.bytes? (places : Places) (codeLength : Nat) (l : LineNumber Label) :
    Option (List UInt8) := do
  let start ← places[l.start]?
  if start < codeLength then some (BigEndian.bytes 2 start ++ BigEndian.u16 l.line) else none

/-- The stored form of a local variable, none if its range is reversed. -/
def LocalVariable.bytes? (places : Places) (v : LocalVariable Label) : Option (List UInt8) := do
  let start ← places[v.start]?
  let stop ← places[v.stop]?
  if start ≤ stop then
    some (BigEndian.bytes 2 start ++ BigEndian.bytes 2 (stop - start) ++ BigEndian.u16 v.nameIndex ++
      BigEndian.u16 v.descriptorIndex ++ BigEndian.u16 v.slot)
  else none

namespace MethodBody

/-- A counted list of stored entries. The count has 16 bits, and more entries leave it short. -/
def counted (entries : List (List UInt8)) : List UInt8 :=
  BigEndian.bytes 2 entries.length ++ entries.flatten

/-- The attribute of a table, none if the table has no entries. -/
def tableAttribute (name : String) (entries : List (List UInt8)) : PoolEdit (List Attribute) :=
  if entries.isEmpty then return []
  else return [⟨← ConstantPool.internText name, counted entries⟩]

/-- The attribute of the stack map, none if the body has none. -/
def frameAttribute (places : Places) : Option (List (Frame Label)) → PoolEdit (List Attribute)
  | none => return []
  | some frames =>
    if frames.all fun frame => places.contains frame.place then do
      let nameIndex ← ConstantPool.internText frameTableName
      return [⟨nameIndex, ← PoolEdit.ofExcept (FrameTable.write frames places)⟩]
    else throw (.rewriteFailed .frameLost)

/-- The branches of a body that may be widened: a widened conditional branch would need a frame of
its own. -/
def widening (body : MethodBody) : BranchWidening :=
  if body.frames.isSome then .unconditional else .all

/-- The stored code of a body. -/
def encode (body : MethodBody) : PoolEdit CodeAttribute := do
  let ⟨code, places⟩ ← PoolEdit.ofExcept (encodeWith body.widening body.nodes)
  let lines ← tableAttribute lineTableName
    (body.lines.filterMap (·.bytes? places code.length))
  let locals ← tableAttribute localTableName
    (body.locals.filterMap (·.bytes? places))
  let localTypes ← tableAttribute localTypeTableName
    (body.localTypes.filterMap (·.bytes? places))
  let frames ← frameAttribute places body.frames
  return { maxStack := body.maxStack, maxLocals := body.maxLocals, code,
           exceptions := body.tryBlocks.filterMap (·.stored? places),
           attributes := lines ++ locals ++ localTypes ++ frames }

end MethodBody

end ClassPatch
