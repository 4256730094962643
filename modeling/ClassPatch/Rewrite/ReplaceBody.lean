import ClassPatch.ClassFile.Edit
import ClassPatch.Code.Layout
import ClassPatch.Rewrite.ConstantValue

/-!
# Constant bodies

Giving a method a body that does nothing but return a constant.
-/

namespace ClassPatch

open Code

namespace ClassFile

/-- A method whose body is to be replaced, and the slots of its arguments. -/
structure Replacement where
  descriptor : MethodDescriptor
  argumentSlots : UInt16

/-- Check that a method can return a value. -/
def checkReplacement (index : Nat) (value : ConstantValue) (c : ClassFile) :
    Except Error Replacement := do
  match c.methods[index]? with
  | none => refuse (.methodIndex index)
  | some m =>
    let (name, text) ← c.memberNames m
    if m.has Access.abstractFlag then refuse (.abstractMethod name) else
    let descriptor ← MethodDescriptor.parse text
    if !value.fits descriptor.ret then
      refuse (.constantMismatch value.describe descriptor.ret.text name text)
    else
      let slots := descriptor.argumentSlots m.isStatic
      if UInt16.size ≤ slots then refuse (.tooManyArgumentSlots text)
      else return ⟨descriptor, UInt16.ofNat slots⟩

/-- The code that returns a value. -/
def constantCode (value : ConstantValue) (r : Replacement) : PoolEdit CodeAttribute := do
  let push ← value.push
  let leave : Instruction Label := .simple r.descriptor.ret.returnOpcode
  let assembled ← PoolEdit.ofExcept (encode ((push ++ [leave]).map .instruction))
  return { maxStack := UInt16.ofNat value.slots, maxLocals := r.argumentSlots,
           code := assembled.code, exceptions := [], attributes := [] }

/-- The class with a flag of a method taken away. -/
def clearFlag (index : Nat) (flag : UInt16) (c : ClassFile) : ClassFile :=
  { c with methods := c.methods.modify index fun m => { m with access := m.access &&& ~~~flag } }

/-- Make a method return a value. -/
def replaceBody (index : Nat) (value : ConstantValue) : ClassEdit Unit := do
  let r ← ClassEdit.check (checkReplacement index value)
  let code ← ClassEdit.onPool (constantCode value r)
  setMethodCode index code
  modify (removeMethodAttribute index "MethodParameters")
  modify (clearFlag index Access.nativeFlag)

/-- Make the methods of a name, and of a descriptor if one is given, return a value. The result is
their number. -/
def replaceMethods (name : String) (descriptor : Option String) (value : ConstantValue) :
    ClassEdit Nat := do
  let indices := (← get).findMethods name descriptor
  indices.forM (replaceBody · value)
  return indices.length

end ClassFile

end ClassPatch
