import ClassPatch.Code.Opcode
import ClassPatch.Descriptor

/-!
# Opcodes by type

The instructions that load, store and return a value of a type. Types narrower than `int` share its
instructions, and all reference types share theirs.
-/

namespace ClassPatch

open Code

namespace FieldType

/-- The opcode that loads a local variable of the type. -/
def loadOpcode : FieldType → UInt8
  | long => Opcode.lload
  | float => Opcode.fload
  | double => Opcode.dload
  | object _ | array _ => Opcode.aload
  | _ => Opcode.iload

/-- The opcode that stores a local variable of the type. -/
def storeOpcode : FieldType → UInt8
  | long => Opcode.lstore
  | float => Opcode.fstore
  | double => Opcode.dstore
  | object _ | array _ => Opcode.astore
  | _ => Opcode.istore

/-- The opcode that returns a value of the type. -/
def returnOpcode : FieldType → UInt8
  | long => Opcode.lreturn
  | float => Opcode.freturn
  | double => Opcode.dreturn
  | object _ | array _ => Opcode.areturn
  | _ => Opcode.ireturn

end FieldType

/-- The opcode that ends a method of the result. -/
def ReturnType.returnOpcode : ReturnType → UInt8
  | .void => Opcode.vreturn
  | .value type => type.returnOpcode

end ClassPatch
