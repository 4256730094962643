import Mathlib
import ClassPatch.Code.Instruction
import ClassPatch.ConstantPool.Basic
import ClassPatch.Descriptor

/-!
# The stack machine

The part of the Java virtual machine on which injected code runs: an operand stack of
limited depth, numbered local variables, arrays of references, and calls of methods. The
boxes of primitive values and the classes of primitive types are those of `java.lang`;
all other classes and methods are whatever the surrounding world makes of them.

An instruction is first resolved against the constant pool to an `Action`, and actions
are what the machine performs. Whatever the machine would refuse to run, a stack or a
local beyond its limits included, is `Halt.stuck`.
-/

namespace ClassPatch.Machine

open Code

/-! ## Values -/

/-- The values of the primitive types. Floating-point values are kept by their bits. -/
inductive Primitive where
  | byte (value : Int8)
  | char (value : UInt16)
  | short (value : Int16)
  | boolean (value : Bool)
  | int (value : Int32)
  | long (value : Int64)
  | float (bits : UInt32)
  | double (bits : UInt64)
deriving DecidableEq

/-- A reference. -/
inductive Ref where
  | null
  | string (text : String)
  /-- The class that a class constant of the name stands for. -/
  | classNamed (name : String)
  /-- The class of a primitive type or of `void`. -/
  | primitiveClass (type : ReturnType)
  /-- A primitive value in an object of the class that wraps its type. -/
  | boxed (value : Primitive)
  | array (address : Nat)
  /-- An exception that the machine raises itself. -/
  | exception (className : String)
  | other (id : Nat)
deriving DecidableEq

/-- What the stack and the locals hold. Values narrower than `int` are held as one. -/
inductive Value where
  | int (value : Int32)
  | long (value : Int64)
  | float (bits : UInt32)
  | double (bits : UInt64)
  | ref (r : Ref)
deriving DecidableEq

/-- The kinds of values that instructions tell apart. -/
inductive Kind where
  | int | long | float | double | ref
deriving DecidableEq

/-- The kind of a value. -/
def Value.kind : Value → Kind
  | .int _ => .int
  | .long _ => .long
  | .float _ => .float
  | .double _ => .double
  | .ref _ => .ref

/-- The stack and local variable slots of a value. -/
def Value.slots : Value → Nat
  | .long _ | .double _ => 2
  | _ => 1

namespace Primitive

/-- The type of a primitive value. -/
def type : Primitive → FieldType
  | .byte _ => .byte
  | .char _ => .char
  | .short _ => .short
  | .boolean _ => .boolean
  | .int _ => .int
  | .long _ => .long
  | .float _ => .float
  | .double _ => .double

/-- A primitive value as the stack holds it. -/
def toValue : Primitive → Value
  | .byte value => .int value.toInt32
  | .char value => .int value.toUInt32.toInt32
  | .short value => .int value.toInt32
  | .boolean value => .int (if value then 1 else 0)
  | .int value => .int value
  | .long value => .long value
  | .float bits => .float bits
  | .double bits => .double bits

/-- The value of a primitive type that the stack holds, none if it is not of the type. -/
def ofValue? : FieldType → Value → Option Primitive
  | .byte, .int value =>
    if value.toInt8.toInt32 = value then some (.byte value.toInt8) else none
  | .char, .int value =>
    if value.toUInt32.toUInt16.toUInt32 = value.toUInt32 then
      some (.char value.toUInt32.toUInt16) else none
  | .short, .int value =>
    if value.toInt16.toInt32 = value then some (.short value.toInt16) else none
  | .boolean, .int value =>
    if value = 0 then some (.boolean false)
    else if value = 1 then some (.boolean true) else none
  | .int, .int value => some (.int value)
  | .long, .long value => some (.long value)
  | .float, .float bits => some (.float bits)
  | .double, .double bits => some (.double bits)
  | _, _ => none

end Primitive

/-- A value of a type as a reference: a reference itself, or the box of a primitive value.
None if the value is not of the type. -/
def box? : FieldType → Value → Option Ref
  | .object _, .ref r | .array _, .ref r => some r
  | type, value => (Primitive.ofValue? type value).map .boxed

/-- The kind of the values of a type. -/
def kindOf : FieldType → Kind
  | .long => .long
  | .float => .float
  | .double => .double
  | .object _ | .array _ => .ref
  | _ => .int

/-- The value is of the type. Every reference is of every reference type. -/
def HasType (value : Value) (type : FieldType) : Prop := ∃ r, box? type value = some r

/-- A class of `java.lang` that wraps the values of a primitive type. -/
structure BoxClass where
  type : FieldType
  descriptor : String
  className : String
  /-- The method of a box that gives its value back. -/
  unboxing : String
deriving DecidableEq

/-- The classes of `java.lang` that wrap primitive values. -/
def boxClasses : List BoxClass :=
  [⟨.boolean, "Z", "java/lang/Boolean", "booleanValue"⟩,
    ⟨.byte, "B", "java/lang/Byte", "byteValue"⟩,
    ⟨.char, "C", "java/lang/Character", "charValue"⟩,
    ⟨.short, "S", "java/lang/Short", "shortValue"⟩,
    ⟨.int, "I", "java/lang/Integer", "intValue"⟩,
    ⟨.long, "J", "java/lang/Long", "longValue"⟩,
    ⟨.float, "F", "java/lang/Float", "floatValue"⟩,
    ⟨.double, "D", "java/lang/Double", "doubleValue"⟩]

/-- The box class of a name. -/
def boxClass? (className : String) : Option BoxClass :=
  boxClasses.find? (·.className = className)

/-- What a class of `java.lang` wraps. -/
def wrapped? (className : String) : Option ReturnType :=
  if className = "java/lang/Void" then some .void
  else (boxClass? className).map (.value ·.type)

/-! ## States -/

/-- A local variable, or the second half of the one before it. -/
inductive Slot where
  | empty
  | value (value : Value)
  | upper
deriving DecidableEq

/-- An array of references. -/
structure RefArray where
  elementClass : String
  elements : List Ref
deriving DecidableEq

/-- A call of a method, with the arrays as they were when it was called. -/
structure Invocation where
  method : MemberRef
  arguments : List Value
  arrays : List RefArray

/-- The state of running code. The top of the stack is at the front. -/
structure State where
  stack : List Value
  locals : Nat → Slot
  arrays : List RefArray
  calls : List Invocation

/-- The slots of a stack. -/
def depth (stack : List Value) : Nat := (stack.map Value.slots).sum

/-- Why code stops. -/
inductive Halt where
  /-- The code is not one that the machine runs. -/
  | stuck
  | threw (exception : Ref)
  | returned (value : Option Value)

/-- The classes and methods around the running code. -/
structure World where
  /-- Whether an object is of a class, other than the wrappers of primitive types. -/
  instanceOf : Ref → String → Bool
  /-- The class of a binary name, or the exception of its loader. -/
  forName : String → Except Ref Ref
  /-- The object that a static method gives back and what it leaves in the arrays, or its
  exception. -/
  invoke : Invocation → Except Ref (Ref × List RefArray)

/-- What a method runs in. -/
structure Context where
  world : World
  maxStack : Nat
  maxLocals : Nat

/-- A step of running code. -/
abbrev Execution := EStateM Halt State

/-! ## The stack and the locals -/

/-- Stop because of an exception. -/
def raise {α : Type} (exception : Ref) : Execution α := throw (.threw exception)

/-- The exceptions of the machine itself. -/
def Ref.nullPointer : Ref := .exception "java/lang/NullPointerException"

@[inherit_doc Ref.nullPointer]
def Ref.classCast : Ref := .exception "java/lang/ClassCastException"

@[inherit_doc Ref.nullPointer]
def Ref.negativeSize : Ref := .exception "java/lang/NegativeArraySizeException"

@[inherit_doc Ref.nullPointer]
def Ref.arrayIndex : Ref := .exception "java/lang/ArrayIndexOutOfBoundsException"

@[inherit_doc Ref.nullPointer]
def Ref.arrayStore : Ref := .exception "java/lang/ArrayStoreException"

/-- Put a value on the stack, if there is room for it. -/
def push (ctx : Context) (value : Value) : Execution Unit := fun s =>
  if depth s.stack + value.slots ≤ ctx.maxStack then
    .ok () { s with stack := value :: s.stack }
  else .error .stuck s

/-- Take a value from the stack. -/
def pop : Execution Value := fun s =>
  match s.stack with
  | [] => .error .stuck s
  | value :: rest => .ok value { s with stack := rest }

/-- Take a reference from the stack. -/
def popRef : Execution Ref := do
  match ← pop with
  | .ref r => return r
  | _ => throw .stuck

/-- Take an integer from the stack. -/
def popInt : Execution Int32 := do
  match ← pop with
  | .int value => return value
  | _ => throw .stuck

/-- Take the arguments of a call from the stack, the last one first. -/
def popArguments : List FieldType → Execution (List Value)
  | [] => return []
  | type :: types => do
    let rest ← popArguments types
    let value ← pop
    if (box? type value).isSome then return value :: rest else throw .stuck

/-- The locals with a value in one of them, and in the next one too if it takes two. -/
def setLocal (locals : Nat → Slot) (slot : Nat) (value : Value) : Nat → Slot := fun n =>
  if n = slot then .value value
  else if n = slot + 1 ∧ value.slots = 2 then .upper
  else locals n

/-- Whether a local holds a whole value. -/
def Holds (locals : Nat → Slot) (slot : Nat) (value : Value) : Prop :=
  locals slot = .value value ∧ (value.slots = 2 → locals (slot + 1) = .upper)

/-- Store the top of the stack in a local. -/
def store (ctx : Context) (kind : Kind) (slot : Nat) : Execution Unit := do
  let value ← pop
  if value.kind = kind ∧ slot + value.slots ≤ ctx.maxLocals then
    modify fun s => { s with locals := setLocal s.locals slot value }
  else throw .stuck

/-- Push the value of a local. -/
def load (ctx : Context) (kind : Kind) (slot : Nat) : Execution Unit := do
  match (← get).locals slot with
  | .value value =>
    if value.kind = kind ∧ (value.slots = 2 → (← get).locals (slot + 1) = .upper) then
      push ctx value
    else throw .stuck
  | _ => throw .stuck

end ClassPatch.Machine
