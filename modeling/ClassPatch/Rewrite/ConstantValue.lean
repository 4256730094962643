import ClassPatch.Code.TypedOpcode
import ClassPatch.Code.Instruction
import ClassPatch.ConstantPool.Intern
import ClassPatch.Decimal.Shortest

/-!
# Constant results

The values that a method can be made to return, the return types that they fit, and the instructions
that push them.
-/

namespace ClassPatch

open Code Decimal

/-- A value that a method can be made to return. Floating-point values are kept by their bits. -/
inductive ConstantValue where
  | void
  | null
  | bool (value : Bool)
  | int (value : Int32)
  | long (value : Int64)
  | float (bits : UInt32)
  | double (bits : UInt64)
  | string (text : String)
deriving Repr, DecidableEq

namespace ConstantValue

/-- The description of a value in messages. -/
def describe : ConstantValue → String
  | void => "void"
  | null => "null"
  | bool value => if value then "true" else "false"
  | int value => toString value
  | long value => toString value ++ "L"
  | float bits => binary32.text bits.toNat ++ "F"
  | double bits => binary64.text bits.toNat ++ "D"
  | string text => Text.Quoted.quote text

/-- The classes that a string is an object of. -/
def stringTypes : List String :=
  ["java/lang/String", "java/lang/Object", "java/lang/CharSequence", "java/io/Serializable"]

/-- Whether a field of the type can hold the value. -/
def fitsField : ConstantValue → FieldType → Bool
  | null, .object _ | null, .array _ => true
  | bool _, .boolean => true
  | int _, .int => true
  | int value, .boolean => value = 0 ∨ value = 1
  | int value, .byte => -128 ≤ value ∧ value < 128
  | int value, .short => -32768 ≤ value ∧ value < 32768
  | int value, .char => 0 ≤ value ∧ value < 65536
  | long _, .long => true
  | float _, .float => true
  | double _, .double => true
  | string _, .object name => stringTypes.contains name
  | _, _ => false

/-- Whether a method of the result can return the value. -/
def fits (value : ConstantValue) : ReturnType → Bool
  | .void => value = void
  | .value type => value.fitsField type

/-- The stack slots of a value. -/
def slots : ConstantValue → Nat
  | void => 0
  | long _ | double _ => 2
  | _ => 1

/-- The instruction that pushes an integer, the shortest one that can. -/
def pushInt (value : Int32) : PoolEdit (Instruction Label) :=
  if -1 ≤ value ∧ value ≤ 5 then
    return .simple (UInt8.ofNat (Opcode.iconst0.toNat + value.toInt).toNat)
  else if -128 ≤ value ∧ value < 128 then return ⟨Opcode.bipush, .byte value.toInt8⟩
  else if -32768 ≤ value ∧ value < 32768 then return ⟨Opcode.sipush, .short value.toInt16⟩
  else return .ofConstant Opcode.ldc (← ConstantPool.intern (.integer value))

/-- The instructions that push a value. -/
def push : ConstantValue → PoolEdit (List (Instruction Label))
  | void => return []
  | null => return [.simple Opcode.aconstNull]
  | bool value => return [← pushInt (if value then 1 else 0)]
  | int value => return [← pushInt value]
  | long value =>
    if value = 0 then return [.simple Opcode.lconst0]
    else if value = 1 then return [.simple (Opcode.lconst0 + 1)]
    else return [.ofConstant Opcode.ldc2W (← ConstantPool.intern (.long value))]
  | float bits =>
    if bits = 0 then return [.simple Opcode.fconst0]
    else if bits = 0x3F800000 then return [.simple (Opcode.fconst0 + 1)]
    else if bits = 0x40000000 then return [.simple (Opcode.fconst0 + 2)]
    else return [.ofConstant Opcode.ldc (← ConstantPool.intern (.float bits))]
  | double bits =>
    if bits = 0 then return [.simple Opcode.dconst0]
    else if bits = 0x3FF0000000000000 then return [.simple (Opcode.dconst0 + 1)]
    else return [.ofConstant Opcode.ldc2W (← ConstantPool.intern (.double bits))]
  | string text => return [.ofConstant Opcode.ldc (← ConstantPool.internString text)]

end ConstantValue

end ClassPatch
