import ClassPatch.Bytes.Cursor
import ClassPatch.Code.LabelMap

/-!
# Disassembly

Bytecode as instructions with their offsets. Targets are read as offsets inside the code, and a
second step gives them labels. A `wide` mark is dropped: the operand of the marked instruction holds
the wide values.
-/

namespace ClassPatch.Code

open Bytes Bytes.Reader

/-- An instruction and the offset where it starts, which is not cut to 32 bits. -/
structure Located (τ : Type) where
  offset : Nat
  instruction : Instruction τ
deriving Repr, DecidableEq

/-- The target `delta` bytes from `offset`, which has to lie inside the code. -/
def branchTarget (codeLength offset : Nat) (delta : Int32) : Reader Nat :=
  let target : Int := offset + delta.toInt
  if target < 0 ∨ (codeLength : Int) ≤ target then
    malformed (.branchTarget offset target codeLength)
  else return target.toNat

/-- The operand of a `tableswitch` at `offset`. -/
def readTableSwitch (codeLength offset : Nat) : Reader (Operand Nat) := do
  align 4
  let fallback ← branchTarget codeLength offset (← i32)
  let low ← i32
  let high ← i32
  if high < low then malformed (.tableSwitchBounds offset high.toInt low.toInt) else
  let count := (high.toInt - low.toInt + 1).toNat
  ensure (count * 4)
  let targets ← times count do branchTarget codeLength offset (← i32)
  return .tableSwitch fallback low targets

/-- The operand of a `lookupswitch` at `offset`. -/
def readLookupSwitch (codeLength offset : Nat) : Reader (Operand Nat) := do
  align 4
  let fallback ← branchTarget codeLength offset (← i32)
  let count ← i32
  if count < 0 then malformed (.negativePairCount offset) else
  let count := count.toInt.toNat
  ensure (count * 8)
  let pairs ← times count do
    let key ← i32
    return (key, ← branchTarget codeLength offset (← i32))
  return .lookupSwitch fallback pairs

/-- The operand of a layout for an opcode at `offset`; `wide` has none of its own. -/
def readOperand (codeLength offset : Nat) : OperandLayout → Reader (Operand Nat)
  | .plain | .wide => return .plain
  | .byte => return .byte (← i8)
  | .short => return .short (← i16)
  | .arrayType => return .arrayType (← u8)
  | .slot => return .slot (← u8).toUInt16
  | .increment => do
    let index ← u8
    return .increment index.toUInt16 (← i8).toInt16
  | .constantByte => return .constant (← u8).toUInt16
  | .constant => return .constant (← u16)
  | .interface => do
    let index ← u16
    let count ← u8
    advance 1
    return .interface index count
  | .dynamic => do
    let index ← u16
    advance 2
    return .dynamic index
  | .multiArray => do
    let index ← u16
    return .multiArray index (← u8)
  | .branch => return .branch (← branchTarget codeLength offset (← i16).toInt32)
  | .branchWide => return .branch (← branchTarget codeLength offset (← i32))
  | .tableSwitch => readTableSwitch codeLength offset
  | .lookupSwitch => readLookupSwitch codeLength offset

/-- The instruction after a `wide` mark at `offset`. -/
def readWide (offset : Nat) : Reader (Instruction Nat) := do
  let opcode ← u8
  match Opcode.layout? opcode with
  | some .slot => return ⟨opcode, .slot (← u16)⟩
  | some .increment =>
    let index ← u16
    return ⟨opcode, .increment index (← i16)⟩
  | _ => malformed (.wideOpcode offset opcode)

/-- The next instruction of code of the given length. -/
def readInstruction (codeLength : Nat) : Reader (Located Nat) := do
  let offset ← position
  let opcode ← u8
  match Opcode.layout? opcode with
  | none => malformed (.undefinedOpcode opcode offset)
  | some .wide => return ⟨offset, ← readWide offset⟩
  | some layout => return ⟨offset, ⟨opcode, ← readOperand codeLength offset layout⟩⟩

/-- The instructions up to the end of the code after those in `acc` (last one first). An instruction
takes at least one byte, so the number of bytes bounds their number. -/
def readInstructions (codeLength : Nat) (acc : List (Located Nat)) :
    Nat → Reader (List (Located Nat))
  | 0 => return acc.reverse
  | n + 1 => do
    if ← hasMore then readInstructions codeLength ((← readInstruction codeLength) :: acc) n
    else return acc.reverse

/-- The instructions of bytecode, with offsets as targets. -/
def disassemble (code : List UInt8) : Except Error (List (Located Nat)) :=
  (readInstructions code.length [] code.length).runOn code

/-! ## Labels -/

/-- The instruction with the labels of its targets. -/
def Located.labelled (l : Located Nat) : Labelling (Located Label) :=
  return ⟨l.offset, ← l.instruction.mapTargetsM Labelling.label⟩

/-- The instructions of bytecode with the labels of their targets, which are handed out in the order
in which the targets are read. -/
def decode (code : List UInt8) (labels : LabelMap) :
    Except Error (List (Located Label) × LabelMap) := do
  return (← disassemble code).mapM Located.labelled labels

/-- The node of the label of an offset, if it has one. -/
def labelNodes (labels : LabelMap) (offset : Nat) : List Node :=
  ((labels.get? offset).map Node.label).toList

/-- The instructions, each after the label of its offset. -/
def labelledNodes (labels : LabelMap) (instructions : List (Located Label)) : List Node :=
  instructions.flatMap fun l => labelNodes labels l.offset ++ [.instruction l.instruction]

end ClassPatch.Code
