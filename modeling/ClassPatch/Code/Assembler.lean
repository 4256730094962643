import Std.Data.HashMap
import ClassPatch.Bytes.BigEndian
import ClassPatch.Code.Instruction
import ClassPatch.Error

/-!
# Assembler

Bytecode as a sequence of pieces. The offset of a branch stays open, as a piece of its own, until the
places of all labels are known.
-/

namespace ClassPatch.Code

open Bytes

/-- The places of labels in assembled code. -/
abbrev Places := Std.HashMap Label Nat

/-- A part of the code. The open offsets lead from the instruction at `origin` to `target`. -/
inductive Piece where
  | bytes (data : List UInt8)
  | offset16 (target : Label) (origin : Nat)
  | offset32 (target : Label) (origin : Nat)
deriving Repr, DecidableEq

/-- The number of bytes of a piece. -/
def Piece.size : Piece → Nat
  | .bytes data => data.length
  | .offset16 _ _ => 2
  | .offset32 _ _ => 4

/-! ## Instructions -/

/-- The zeros between an opcode at `start` and its aligned operand. -/
def padding (start : Nat) : List UInt8 := List.replicate ((4 - (start + 1) % 4) % 4) 0

/-- The pieces of an instruction at `start`. -/
def Instruction.pieces (i : Instruction Label) (start : Nat) : Except Error (List Piece) :=
  match Opcode.layout? i.opcode, i.operand with
  | none, _ => refuse (.undefinedOpcode i.opcode)
  | some .plain, .plain => .ok [.bytes [i.opcode]]
  | some .byte, .byte value => .ok [.bytes [i.opcode, value.toUInt8]]
  | some .short, .short value => .ok [.bytes (i.opcode :: BigEndian.i16 value)]
  | some .arrayType, .arrayType code => .ok [.bytes [i.opcode, code]]
  | some .slot, .slot index =>
    .ok [.bytes (if index < 256 then [i.opcode, index.toUInt8]
      else Opcode.wide :: i.opcode :: BigEndian.u16 index)]
  | some .increment, .increment index delta =>
    .ok [.bytes (if index < 256 ∧ -128 ≤ delta ∧ delta < 128 then
        [i.opcode, index.toUInt8, delta.toInt8.toUInt8]
      else Opcode.wide :: i.opcode :: (BigEndian.u16 index ++ BigEndian.i16 delta))]
  | some .constantByte, .constant index =>
    .ok [.bytes (if index < 256 then [Opcode.ldc, index.toUInt8]
      else Opcode.ldcW :: BigEndian.u16 index)]
  | some .constant, .constant index => .ok [.bytes (i.opcode :: BigEndian.u16 index)]
  | some .interface, .interface index count =>
    .ok [.bytes (i.opcode :: (BigEndian.u16 index ++ [count, 0]))]
  | some .dynamic, .dynamic index => .ok [.bytes (i.opcode :: (BigEndian.u16 index ++ [0, 0]))]
  | some .multiArray, .multiArray index dimensions =>
    .ok [.bytes (i.opcode :: (BigEndian.u16 index ++ [dimensions]))]
  | some .branch, .branch target => .ok [.bytes [i.opcode], .offset16 target start]
  | some .branchWide, .branch target => .ok [.bytes [i.opcode], .offset32 target start]
  | some .tableSwitch, .tableSwitch fallback low targets =>
    let high : Int := low.toInt + targets.length - 1
    if targets.isEmpty then refuse .emptyTableSwitch
    else if 0x80000000 ≤ high ∨ 0x80000000 < targets.length then refuse .tableSwitchRange
    else
      .ok (.bytes (i.opcode :: padding start) :: .offset32 fallback start ::
        .bytes (BigEndian.i32 low ++ BigEndian.i32 (Int32.ofInt high)) ::
        targets.map (.offset32 · start))
  | some .lookupSwitch, .lookupSwitch fallback pairs =>
    if 0x80000000 ≤ pairs.length then refuse .lookupSwitchPairs
    else
      .ok (.bytes (i.opcode :: padding start) :: .offset32 fallback start ::
        .bytes (BigEndian.bytes 4 pairs.length) ::
        pairs.flatMap fun (key, target) => [.bytes (BigEndian.i32 key), .offset32 target start])
  | some _, operand => refuse (.operandMismatch operand.describe i.opcode)

/-- The pieces of an instruction at `start` whose branch must reach any distance. A conditional
branch becomes its opposite over a jump; an instruction without branch stays as it is. -/
def Instruction.widePieces (i : Instruction Label) (start : Nat) : Except Error (List Piece) :=
  match i.operand with
  | .branch target =>
    match Opcode.wideJump? i.opcode, Opcode.inverse? i.opcode with
    | some jump, _ => .ok [.bytes [jump], .offset32 target start]
    | none, some inverse =>
      .ok [.bytes (inverse :: (BigEndian.i16 8 ++ [Opcode.gotoW])), .offset32 target (start + 3)]
    | none, none => refuse (.noWideForm i.opcode)
  | _ => i.pieces start

/-! ## Assembling -/

/-- The code assembled so far. -/
structure Assembler where
  pieces : Array Piece
  size : Nat
  places : Places

/-- A step of assembling. -/
abbrev Assembly := EStateM Error Assembler

namespace Assembler

/-- No code. -/
def empty : Assembler := ⟨#[], 0, ∅⟩

/-- The code with more pieces at its end. -/
def append (a : Assembler) (pieces : List Piece) : Assembler :=
  { a with
    pieces := a.pieces ++ pieces
    size := pieces.foldl (fun size piece => size + piece.size) a.size }

end Assembler

namespace Assembly

/-- Put a label at the end of the code. A label that has a place already moves, and that is an
error. -/
def place (label : Label) : Assembly Unit := fun a =>
  let placed := { a with places := a.places.insert label a.size }
  if a.places.contains label then .error (.rewriteFailed (.labelPlacedTwice label.id)) placed
  else .ok () placed

/-- Put pieces that depend on their place at the end of the code, and give them. -/
def emitWith (pieces : Nat → Except Error (List Piece)) : Assembly (List Piece) := fun a =>
  match pieces a.size with
  | .ok emitted => .ok emitted (a.append emitted)
  | .error e => .error e a

/-- Put an instruction at the end of the code. -/
def emit (i : Instruction Label) : Assembly (List Piece) := emitWith i.pieces

/-- Put an instruction whose branch must reach any distance at the end of the code. -/
def emitWide (i : Instruction Label) : Assembly (List Piece) := emitWith i.widePieces

end Assembly

/-! ## Closing offsets -/

/-- Finished code and the places of its labels. -/
structure Assembled where
  code : List UInt8
  places : Places

/-- The largest code array of a method. -/
def maxCodeLength : Nat := 65535

/-- The distance from an instruction to a label. -/
def Places.distance (places : Places) (target : Label) (origin : Nat) : Except Error Int :=
  match places[target]? with
  | some place => .ok ((place : Int) - origin)
  | none => refuse (.unplacedTarget target.id)

/-- Whether a branch with a two-byte offset reaches the distance. -/
def isShort (distance : Int) : Bool := -0x8000 ≤ distance && distance < 0x8000

/-- The bytes of a piece once all labels have their places. -/
def Piece.resolve (places : Places) : Piece → Except Error (List UInt8)
  | .bytes data => .ok data
  | .offset16 target origin => do
    let distance ← places.distance target origin
    if isShort distance then return BigEndian.i16 (Int16.ofInt distance)
    else refuse (.shortOffset distance)
  | .offset32 target origin => do
    let distance ← places.distance target origin
    if -0x80000000 ≤ distance ∧ distance < 0x80000000 then
      return BigEndian.i32 (Int32.ofInt distance)
    else refuse (.wideOffset distance)

/-- The finished code. -/
def Assembler.finish (a : Assembler) : Except Error Assembled := do
  if maxCodeLength < a.size then refuse (.codeTooLong a.size)
  else return ⟨(← a.pieces.toList.mapM (Piece.resolve a.places)).flatten, a.places⟩

end ClassPatch.Code
