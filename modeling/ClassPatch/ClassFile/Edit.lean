import ClassPatch.ClassFile.Basic
import ClassPatch.Descriptor

/-!
# Editing classes

Steps that change a class. A step that fails keeps what it had changed before it failed.
-/

namespace ClassPatch

open Bytes Code

/-- An edit of a class. -/
abbrev ClassEdit := EStateM Error ClassFile

namespace ClassEdit

/-- An edit of the pool of a class. -/
def onPool {α : Type} (edit : PoolEdit α) : ClassEdit α := fun c =>
  match edit c.pool with
  | .ok a pool => .ok a { c with pool }
  | .error e pool => .error e { c with pool }

/-- Fail if a check of the class fails. -/
def check {α : Type} (f : ClassFile → Except Error α) : ClassEdit α := fun c =>
  match f c with
  | .ok a => .ok a c
  | .error e => .error e c

end ClassEdit

namespace ClassFile

/-- A public class without members for version 52 of the format. -/
def create (name : String) (superName : Option String) : Except Error ClassFile :=
  let edit : PoolEdit (UInt16 × UInt16) := do
    let thisClass ← ConstantPool.internClass name
    match superName with
    | some superName => return (thisClass, ← ConstantPool.internClass superName)
    | none => return (thisClass, 0)
  match edit .empty with
  | .ok (thisClass, superClass) pool =>
    .ok { minorVersion := 0, majorVersion := 52, pool, access := Access.publicFlag ||| Access.superFlag,
          thisClass, superClass, interfaces := [], fields := [], methods := [], attributes := [] }
  | .error e _ => .error e

/-- The class with its first attribute of a name replaced, or with a new attribute. -/
def putAttribute (c : ClassFile) (name : String) (a : Attribute) : ClassFile :=
  match c.pool.findAttribute? c.attributes name with
  | some position => { c with attributes := c.attributes.set position a }
  | none => { c with attributes := c.attributes ++ [a] }

/-- The attributes of a method, or of the class without an index. -/
def attributesAt (c : ClassFile) (index : Option Nat) : List Attribute :=
  match index with
  | none => c.attributes
  | some index => (c.methods[index]?.map (·.attributes)).getD []

/-- Add an attribute to a method, or to the class without an index. -/
def addAttribute (index : Option Nat) (name : String) (data : List UInt8) : ClassEdit Unit := do
  let nameIndex ← ClassEdit.onPool (ConstantPool.internText name)
  let added : List Attribute := [⟨nameIndex, data⟩]
  modify fun c => match index with
    | none => { c with attributes := c.attributes ++ added }
    | some index => { c with
        methods := c.methods.modify index fun m => { m with attributes := m.attributes ++ added } }

/-- Give the class a generic signature. -/
def setSignature (text : String) : ClassEdit Unit := do
  let value ← ClassEdit.onPool (ConstantPool.internText text)
  let nameIndex ← ClassEdit.onPool (ConstantPool.internText "Signature")
  modify (·.putAttribute "Signature" ⟨nameIndex, BigEndian.u16 value⟩)

/-- The method with its first code attribute replaced, or with a new one. -/
def putCode (pool : ConstantPool) (nameIndex : UInt16) (data : List UInt8) (m : Member) : Member :=
  match pool.findAttribute? m.attributes "Code" with
  | some position =>
    { m with attributes := m.attributes.modify position fun a => { a with data } }
  | none => { m with attributes := m.attributes ++ [⟨nameIndex, data⟩] }

/-- Give a method its code. -/
def setMethodCode (index : Nat) (code : CodeAttribute) : ClassEdit Unit := do
  let data ← ClassEdit.check fun _ => code.toBytes
  let nameIndex ← ClassEdit.onPool (ConstantPool.internText "Code")
  let c ← get
  if index < c.methods.length then
    set { c with methods := c.methods.modify index (putCode c.pool nameIndex data) }
  else throw (.rewriteFailed (.methodIndex index))

/-- The class without the attributes of a name on a method. -/
def removeMethodAttribute (index : Nat) (name : String) (c : ClassFile) : ClassFile :=
  let keep (a : Attribute) : Bool := (c.pool.getText a.nameIndex).toOption != some name
  { c with
    methods := c.methods.modify index fun m => { m with attributes := m.attributes.filter keep } }

/-- Add a method at the end, and give its index. -/
def addMethod (access : UInt16) (name descriptor : String) (code : Option CodeAttribute) :
    ClassEdit Nat := do
  let _ ← ClassEdit.check fun _ => MethodDescriptor.parse descriptor
  let nameIndex ← ClassEdit.onPool (ConstantPool.internText name)
  let descriptorIndex ← ClassEdit.onPool (ConstantPool.internText descriptor)
  let index := (← get).methods.length
  modify fun c => { c with
    methods := c.methods ++ [{ access, nameIndex, descriptorIndex, attributes := [] }] }
  if let some code := code then setMethodCode index code
  return index

end ClassFile

end ClassPatch
