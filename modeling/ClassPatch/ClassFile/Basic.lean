import ClassPatch.Code.Attribute
import ClassPatch.ConstantPool.Intern
import ClassPatch.Signature

/-!
# Class files

A class with its constant pool, its fields and methods, and the names and attributes that can be
looked up in it.
-/

namespace ClassPatch

open Bytes Code

/-- A field or a method. -/
structure Member where
  access : UInt16
  nameIndex : UInt16
  descriptorIndex : UInt16
  attributes : List Attribute
deriving Repr, DecidableEq

/-! ## Access flags -/

namespace Access

/-- The flag of what every class can see. -/
def publicFlag : UInt16 := 0x0001

/-- The flag of members that belong to the class and not to its objects. -/
def staticFlag : UInt16 := 0x0008

/-- The flag of classes that treat calls of superclass methods in the modern way. -/
def superFlag : UInt16 := 0x0020

/-- The flag of methods whose code is outside the class. -/
def nativeFlag : UInt16 := 0x0100

/-- The flag of methods that subclasses give their code. -/
def abstractFlag : UInt16 := 0x0400

end Access

namespace Member

/-- Whether a member has a flag. -/
def has (m : Member) (flag : UInt16) : Bool := m.access &&& flag != 0

/-- Whether a member belongs to the class and not to its objects. -/
def isStatic (m : Member) : Bool := m.has Access.staticFlag

end Member

/-- A class. Names are indices into its pool; a superclass of zero is none. -/
structure ClassFile where
  minorVersion : UInt16
  majorVersion : UInt16
  pool : ConstantPool
  access : UInt16
  thisClass : UInt16
  superClass : UInt16
  interfaces : List UInt16
  fields : List Member
  methods : List Member
  attributes : List Attribute
deriving Repr, DecidableEq

namespace ConstantPool

/-- The index of the first attribute of a name. Attributes whose names do not resolve have none. -/
def findAttribute? (pool : ConstantPool) (attributes : List Attribute) (name : String) :
    Option Nat :=
  attributes.findIdx? fun a => (pool.getText a.nameIndex).toOption == some name

end ConstantPool

namespace ClassFile

/-! ## Names -/

/-- The name of the class. -/
def name (c : ClassFile) : Except Error String := c.pool.getClassName c.thisClass

/-- The name of the superclass. -/
def superName (c : ClassFile) : Except Error (Option String) :=
  if c.superClass = 0 then .ok none else (c.pool.getClassName c.superClass).map some

/-- The name and the descriptor of a member. -/
def memberNames (c : ClassFile) (m : Member) : Except Error (String × String) := do
  let name ← c.pool.getText m.nameIndex
  return (name, ← c.pool.getText m.descriptorIndex)

/-- Whether a member resolves to the name, and to the descriptor if one is given. -/
def isNamed (c : ClassFile) (name : String) (descriptor : Option String) (m : Member) : Bool :=
  match c.memberNames m with
  | .ok (n, d) => n == name && descriptor.all (· == d)
  | .error _ => false

/-- The indices of the methods of a name, and of a descriptor if one is given. -/
def findMethods (c : ClassFile) (name : String) (descriptor : Option String) : List Nat :=
  (c.methods.zipIdx.filter fun (m, _) => c.isNamed name descriptor m).map (·.2)

/-! ## Attributes -/

/-- The generic signature of the class, if it has one. -/
def signature (c : ClassFile) : Except Error (Option ClassSignature) :=
  match c.attributes.find? fun a => (c.pool.getText a.nameIndex).toOption == some "Signature" with
  | none => .ok none
  | some a => do
    let index ← Reader.u16.runOn a.data
    return some (← ClassSignature.parse (← c.pool.getText index))

/-- The code of a method, if it has any. -/
def methodCode (c : ClassFile) (index : Nat) : Except Error (Option CodeAttribute) :=
  match c.methods[index]? with
  | none => .error (.malformed (.methodIndex index))
  | some m =>
    match m.attributes.find? fun a => (c.pool.getText a.nameIndex).toOption == some "Code" with
    | none => .ok none
    | some a => (CodeAttribute.parse a.data).map some

end ClassFile

end ClassPatch
