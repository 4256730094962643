import ClassPatch.Error
import ClassPatch.Text.Quoted

/-!
# Constant pools

The numbered constants of a class. Slot 0 and the slot after every 8-byte constant cannot be used.
Constants are only ever added, so an index keeps its meaning through every edit.
-/

namespace ClassPatch

/-- What a member reference refers to. -/
inductive MemberKind where
  | field | method | interfaceMethod
deriving Repr, DecidableEq

/-- The content of a pool slot. Numbers refer to other slots, floating-point values are kept by their
bits. -/
inductive Constant where
  | unusable
  | utf8 (text : String)
  | integer (value : Int32)
  | float (bits : UInt32)
  | long (value : Int64)
  | double (bits : UInt64)
  | classRef (name : UInt16)
  | string (text : UInt16)
  | member (kind : MemberKind) (owner nameType : UInt16)
  | nameAndType (name descriptor : UInt16)
  | methodHandle (kind : UInt8) (reference : UInt16)
  | methodType (descriptor : UInt16)
  | dynamic (bootstrap nameType : UInt16)
  | invokeDynamic (bootstrap nameType : UInt16)
  | module (name : UInt16)
  | package (name : UInt16)
deriving Repr, DecidableEq

namespace Constant

/-- Whether the constant takes two slots. -/
def isWide : Constant → Bool
  | long _ | double _ => true
  | _ => false

/-- The slots that a constant fills, the unusable one after an 8-byte constant included. -/
def slots (c : Constant) : List Constant := if c.isWide then [c, unusable] else [c]

/-- The name of a kind of member reference in messages. -/
def kindName : MemberKind → String
  | .field => "FieldRef"
  | .method => "MethodRef"
  | .interfaceMethod => "InterfaceMethodRef"

/-- The description of a constant in messages. -/
def describe : Constant → String
  | unusable => "Unusable"
  | utf8 text => s!"Utf8({Text.Quoted.quote text})"
  | integer value => s!"Integer({value})"
  | float bits => s!"Float({bits})"
  | long value => s!"Long({value})"
  | double bits => s!"Double({bits})"
  | classRef name => s!"Class({name})"
  | string text => s!"String({text})"
  | member kind owner nameType =>
    s!"{kindName kind} \x7b class: {owner}, name_and_type: {nameType} \x7d"
  | nameAndType name descriptor =>
    s!"NameAndType \x7b name: {name}, descriptor: {descriptor} \x7d"
  | methodHandle kind reference =>
    s!"MethodHandle \x7b kind: {kind}, reference: {reference} \x7d"
  | methodType descriptor => s!"MethodType({descriptor})"
  | dynamic bootstrap nameType =>
    s!"Dynamic \x7b bootstrap: {bootstrap}, name_and_type: {nameType} \x7d"
  | invokeDynamic bootstrap nameType =>
    s!"InvokeDynamic \x7b bootstrap: {bootstrap}, name_and_type: {nameType} \x7d"
  | module name => s!"Module({name})"
  | package name => s!"Package({name})"

end Constant

/-- A reference to a field or method with its names resolved. -/
structure MemberRef where
  owner : String
  name : String
  descriptor : String
  isInterface : Bool
deriving Repr, DecidableEq

/-- The constants of a class by slot. -/
structure ConstantPool where
  entries : Array Constant
deriving Repr, DecidableEq

namespace ConstantPool

/-- The pool without constants. -/
def empty : ConstantPool := ⟨#[.unusable]⟩

/-- The number of slots. -/
def size (pool : ConstantPool) : Nat := pool.entries.size

/-- Whether the pool has no constants. -/
def isEmpty (pool : ConstantPool) : Bool := pool.size ≤ 1

/-- The largest number of slots that can be stored. -/
def maxSize : Nat := 65535

/-- The number of slots if it can be stored. -/
def count (pool : ConstantPool) : Except Error UInt16 :=
  if maxSize < pool.size then refuse .poolFull else .ok (UInt16.ofNat pool.size)

/-! ## Resolving -/

/-- The constant at an index. -/
def get (pool : ConstantPool) (index : UInt16) : Except Error Constant :=
  match pool.entries[index.toNat]? with
  | none | some .unusable => .error (.malformed (.poolIndex index pool.size))
  | some c => .ok c

/-- The text at an index. -/
def getText (pool : ConstantPool) (index : UInt16) : Except Error String := do
  match ← pool.get index with
  | .utf8 text => return text
  | other => .error (.malformed (.constantKind index other.describe "Utf8"))

/-- The name of the class constant at an index. -/
def getClassName (pool : ConstantPool) (index : UInt16) : Except Error String := do
  match ← pool.get index with
  | .classRef name => pool.getText name
  | other => .error (.malformed (.constantKind index other.describe "Class"))

/-- The member reference at an index. -/
def getMember (pool : ConstantPool) (index : UInt16) : Except Error MemberRef := do
  match ← pool.get index with
  | .member kind owner nameType =>
    match ← pool.get nameType with
    | .nameAndType name descriptor =>
      let owner ← pool.getClassName owner
      let name ← pool.getText name
      let descriptor ← pool.getText descriptor
      return { owner, name, descriptor, isInterface := kind = .interfaceMethod }
    | _ => .error (.malformed (.notNameAndType nameType))
  | other => .error (.malformed (.constantKind index other.describe "a member reference"))

end ConstantPool

end ClassPatch
