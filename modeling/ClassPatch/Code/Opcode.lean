/-!
# Opcodes

The opcodes that edits refer to by name, and for every opcode the layout of the operand after it. 202
of the 256 byte values are opcodes; the others have no layout.
-/

namespace ClassPatch.Code

/-- The shape of the operand after an opcode. -/
inductive OperandLayout where
  | plain
  | byte
  | short
  | arrayType
  | slot
  | increment
  | constantByte
  | constant
  | interface
  | dynamic
  | multiArray
  | branch
  | branchWide
  | tableSwitch
  | lookupSwitch
  /-- Not an instruction of its own: it doubles the operand width of the next one. -/
  | wide
deriving Repr, DecidableEq

/-- The name of each layout. -/
def OperandLayout.name : OperandLayout → String
  | .plain => "None"
  | .byte => "Byte"
  | .short => "Short"
  | .arrayType => "ArrayType"
  | .slot => "Local"
  | .increment => "Iinc"
  | .constantByte => "ConstantByte"
  | .constant => "Constant"
  | .interface => "Interface"
  | .dynamic => "Dynamic"
  | .multiArray => "MultiArray"
  | .branch => "Branch"
  | .branchWide => "BranchWide"
  | .tableSwitch => "TableSwitch"
  | .lookupSwitch => "LookupSwitch"
  | .wide => "Wide"

namespace Opcode

/-! ## Constants -/

/-- Push null. -/
def aconstNull : UInt8 := 0x01

/-- Push the integer 0; the opcodes around it push -1 to 5. -/
def iconst0 : UInt8 := 0x03

/-- Push the long 0; the next opcode pushes 1. -/
def lconst0 : UInt8 := 0x09

/-- Push the float 0; the next two opcodes push 1 and 2. -/
def fconst0 : UInt8 := 0x0B

/-- Push the double 0; the next opcode pushes 1. -/
def dconst0 : UInt8 := 0x0E

/-- Push a signed byte. -/
def bipush : UInt8 := 0x10

/-- Push a signed 16-bit integer. -/
def sipush : UInt8 := 0x11

/-- Push a constant of one slot with an index below 256. -/
def ldc : UInt8 := 0x12

/-- Push a constant of one slot. -/
def ldcW : UInt8 := 0x13

/-- Push a constant of two slots. -/
def ldc2W : UInt8 := 0x14

/-! ## Locals and the stack -/

/-- Push an integer local. -/
def iload : UInt8 := 0x15

/-- Push a long local. -/
def lload : UInt8 := 0x16

/-- Push a float local. -/
def fload : UInt8 := 0x17

/-- Push a double local. -/
def dload : UInt8 := 0x18

/-- Push a reference local. -/
def aload : UInt8 := 0x19

/-- Pop into an integer local. -/
def istore : UInt8 := 0x36

/-- Pop into a long local. -/
def lstore : UInt8 := 0x37

/-- Pop into a float local. -/
def fstore : UInt8 := 0x38

/-- Pop into a double local. -/
def dstore : UInt8 := 0x39

/-- Pop into a reference local. -/
def astore : UInt8 := 0x3A

/-- Pop a reference into an array. -/
def aastore : UInt8 := 0x53

/-- Drop the top of the stack. -/
def pop : UInt8 := 0x57

/-- Push the top of the stack again. -/
def dup : UInt8 := 0x59

/-- Add a constant to an integer local. -/
def iinc : UInt8 := 0x84

/-! ## Control flow -/

/-- Jump if an integer is zero: the first of the paired conditions. -/
def ifeq : UInt8 := 0x99

/-- Jump if two references differ: the last of the paired conditions. -/
def ifAcmpne : UInt8 := 0xA6

/-- Jump. -/
def goto : UInt8 := 0xA7

/-- Call a subroutine of the method. -/
def jsr : UInt8 := 0xA8

/-- Return from a subroutine of the method. -/
def ret : UInt8 := 0xA9

/-- Jump to one of a row of targets by an integer from a range. -/
def tableswitch : UInt8 := 0xAA

/-- Jump to one of a list of targets by an integer key. -/
def lookupswitch : UInt8 := 0xAB

/-- Return an integer. -/
def ireturn : UInt8 := 0xAC

/-- Return a long. -/
def lreturn : UInt8 := 0xAD

/-- Return a float. -/
def freturn : UInt8 := 0xAE

/-- Return a double. -/
def dreturn : UInt8 := 0xAF

/-- Return a reference. -/
def areturn : UInt8 := 0xB0

/-- Return nothing. -/
def vreturn : UInt8 := 0xB1

/-- Jump if a reference is null. -/
def ifnull : UInt8 := 0xC6

/-- Jump if a reference is not null. -/
def ifnonnull : UInt8 := 0xC7

/-- Jump with a four-byte offset. -/
def gotoW : UInt8 := 0xC8

/-- Call a subroutine with a four-byte offset. -/
def jsrW : UInt8 := 0xC9

/-! ## References -/

/-- Push a static field. -/
def getstatic : UInt8 := 0xB2

/-- Call a method of an object by its class. -/
def invokevirtual : UInt8 := 0xB6

/-- Call a constructor, a private method or a method of the superclass. -/
def invokespecial : UInt8 := 0xB7

/-- Call a static method. -/
def invokestatic : UInt8 := 0xB8

/-- Call a method of an object by an interface. -/
def invokeinterface : UInt8 := 0xB9

/-- Call a method that is bound at run time. -/
def invokedynamic : UInt8 := 0xBA

/-- Make an object. -/
def new : UInt8 := 0xBB

/-- Make an array of a primitive type. -/
def newarray : UInt8 := 0xBC

/-- Make an array of references. -/
def anewarray : UInt8 := 0xBD

/-- Throw an exception. -/
def athrow : UInt8 := 0xBF

/-- Check the class of a reference. -/
def checkcast : UInt8 := 0xC0

/-- Push whether a reference is of a class. -/
def instanceof : UInt8 := 0xC1

/-- Leave a monitor. -/
def monitorexit : UInt8 := 0xC3

/-- Double the operand width of the next instruction. -/
def wide : UInt8 := 0xC4

/-- Make an array of arrays. -/
def multianewarray : UInt8 := 0xC5

/-! ## Layouts -/

/-- The layout of the operand after an opcode. -/
def layout? (opcode : UInt8) : Option OperandLayout :=
  if opcode < 0x10 then some .plain
  else if opcode = bipush then some .byte
  else if opcode = sipush then some .short
  else if opcode = ldc then some .constantByte
  else if opcode ≤ ldc2W then some .constant
  else if opcode ≤ aload then some .slot
  else if opcode < istore then some .plain
  else if opcode ≤ astore then some .slot
  else if opcode < iinc then some .plain
  else if opcode = iinc then some .increment
  else if opcode < ifeq then some .plain
  else if opcode ≤ jsr then some .branch
  else if opcode = ret then some .slot
  else if opcode = tableswitch then some .tableSwitch
  else if opcode = lookupswitch then some .lookupSwitch
  else if opcode ≤ vreturn then some .plain
  else if opcode ≤ invokestatic then some .constant
  else if opcode = invokeinterface then some .interface
  else if opcode = invokedynamic then some .dynamic
  else if opcode = new then some .constant
  else if opcode = newarray then some .arrayType
  else if opcode = anewarray then some .constant
  else if opcode ≤ athrow then some .plain
  else if opcode ≤ instanceof then some .constant
  else if opcode ≤ monitorexit then some .plain
  else if opcode = wide then some .wide
  else if opcode = multianewarray then some .multiArray
  else if opcode ≤ ifnonnull then some .branch
  else if opcode ≤ jsrW then some .branchWide
  else none

/-- The opcode of the opposite condition. Conditions come in complementary pairs. -/
def inverse? (opcode : UInt8) : Option UInt8 :=
  if ifeq ≤ opcode ∧ opcode ≤ ifAcmpne then
    some (if (opcode - ifeq) % 2 = 0 then opcode + 1 else opcode - 1)
  else if opcode = ifnull then some ifnonnull
  else if opcode = ifnonnull then some ifnull
  else none

/-- The opcode of an unconditional jump with a four-byte offset. -/
def wideJump? (opcode : UInt8) : Option UInt8 :=
  if opcode = goto then some gotoW else if opcode = jsr then some jsrW else none

end Opcode

end ClassPatch.Code
