import Mathlib
import ClassPatch.Proofs.Machine.Basic

/-!
# Actions of the stack machine

What instructions do once their constants are resolved, and how they are resolved. Running
instructions is resolving and performing them one after the other.
-/

namespace ClassPatch.Machine

open Code

/-- What an instruction does. -/
inductive Action where
  | push (value : Value)
  | load (kind : Kind) (slot : UInt16)
  | store (kind : Kind) (slot : UInt16)
  | dup
  | pop
  | newArray (elementClass : String)
  | storeElement
  | getStatic (field : MemberRef)
  | invokeStatic (method : MemberRef)
  | invokeVirtual (method : MemberRef)
  | cast (className : String)
  | leave (kind : Option Kind)
deriving DecidableEq

/-! ## Resolving

The numbers of the opcodes are those of the Java virtual machine.
-/

/-- The action of an opcode without operand. -/
def plainAction? : UInt8 → Option Action
  | 0x01 => some (.push (.ref .null))
  | 0x02 => some (.push (.int (-1)))
  | 0x03 => some (.push (.int 0))
  | 0x04 => some (.push (.int 1))
  | 0x05 => some (.push (.int 2))
  | 0x06 => some (.push (.int 3))
  | 0x07 => some (.push (.int 4))
  | 0x08 => some (.push (.int 5))
  | 0x09 => some (.push (.long 0))
  | 0x0A => some (.push (.long 1))
  | 0x0B => some (.push (.float 0))
  | 0x0C => some (.push (.float 0x3F800000))
  | 0x0D => some (.push (.float 0x40000000))
  | 0x0E => some (.push (.double 0))
  | 0x0F => some (.push (.double 0x3FF0000000000000))
  | 0x53 => some .storeElement
  | 0x57 => some .pop
  | 0x59 => some .dup
  | 0xAC => some (.leave (some .int))
  | 0xAD => some (.leave (some .long))
  | 0xAE => some (.leave (some .float))
  | 0xAF => some (.leave (some .double))
  | 0xB0 => some (.leave (some .ref))
  | 0xB1 => some (.leave none)
  | _ => none

/-- The action of an opcode on a local. -/
def slotAction? (opcode : UInt8) (slot : UInt16) : Option Action :=
  match opcode with
  | 0x15 => some (.load .int slot)
  | 0x16 => some (.load .long slot)
  | 0x17 => some (.load .float slot)
  | 0x18 => some (.load .double slot)
  | 0x19 => some (.load .ref slot)
  | 0x36 => some (.store .int slot)
  | 0x37 => some (.store .long slot)
  | 0x38 => some (.store .float slot)
  | 0x39 => some (.store .double slot)
  | 0x3A => some (.store .ref slot)
  | _ => none

/-- The value of a constant that can be pushed. -/
def constantValue? (pool : ConstantPool) : Constant → Option Value
  | .integer value => some (.int value)
  | .float bits => some (.float bits)
  | .long value => some (.long value)
  | .double bits => some (.double bits)
  | .string text => (pool.getText text).toOption.map fun text => .ref (.string text)
  | .classRef name => (pool.getText name).toOption.map fun name => .ref (.classNamed name)
  | _ => none

/-- The action of loading a constant whose value takes the given number of slots. -/
def loadAction? (pool : ConstantPool) (slots : Nat) (index : UInt16) : Option Action :=
  (pool.get index).toOption.bind fun c => (constantValue? pool c).bind fun value =>
    if value.slots = slots then some (.push value) else none

/-- The action of an opcode on a constant. -/
def constantAction? (pool : ConstantPool) (opcode : UInt8) (index : UInt16) : Option Action :=
  match opcode with
  | 0x12 | 0x13 => loadAction? pool 1 index
  | 0x14 => loadAction? pool 2 index
  | 0xB2 => (pool.getMember index).toOption.map .getStatic
  | 0xB6 => (pool.getMember index).toOption.map .invokeVirtual
  | 0xB8 => (pool.getMember index).toOption.map .invokeStatic
  | 0xBD => (pool.getClassName index).toOption.map .newArray
  | 0xC0 => (pool.getClassName index).toOption.map .cast
  | _ => none

/-- The action of an instruction in a class with the pool, none for instructions that the
machine does not run. -/
def action? {τ : Type} (pool : ConstantPool) (i : Instruction τ) : Option Action :=
  match i.operand with
  | .plain => plainAction? i.opcode
  | .byte value => if i.opcode = 0x10 then some (.push (.int value.toInt32)) else none
  | .short value => if i.opcode = 0x11 then some (.push (.int value.toInt32)) else none
  | .slot slot => slotAction? i.opcode slot
  | .constant index => constantAction? pool i.opcode index
  | _ => none

/-! ## Performing -/

/-- Make an array of nulls. -/
def newArray (ctx : Context) (elementClass : String) : Execution Unit := do
  let count ← popInt
  if count < 0 then raise .negativeSize else
  let address := (← get).arrays.length
  modify fun s => { s with
    arrays := s.arrays ++ [⟨elementClass, List.replicate count.toInt.toNat .null⟩] }
  push ctx (.ref (.array address))

/-- Whether a reference is to an object of a class. -/
def isInstance (world : World) (r : Ref) (className : String) : Bool :=
  match wrapped? className, r with
  | some type, .boxed value => .value value.type = type
  | some _, _ => false
  | none, r => world.instanceOf r className

/-- Store a reference in an array. -/
def storeElement (ctx : Context) : Execution Unit := do
  let element ← popRef
  let index ← popInt
  match ← popRef with
  | .null => raise .nullPointer
  | .array address =>
    match (← get).arrays[address]? with
    | none => throw .stuck
    | some array =>
      let stored : RefArray :=
        { array with elements := array.elements.set index.toInt.toNat element }
      if index < 0 ∨ array.elements.length ≤ index.toInt.toNat then raise .arrayIndex
      else if array.elementClass = "java/lang/Object" ∨ element = .null ∨
          isInstance ctx.world element array.elementClass then
        modify fun s => { s with arrays := s.arrays.set address stored }
      else raise .arrayStore
  | _ => throw .stuck

/-- Push the class that a wrapper class holds for what it wraps. -/
def getStatic (ctx : Context) (field : MemberRef) : Execution Unit :=
  match wrapped? field.owner with
  | some type =>
    if field.name = "TYPE" ∧ field.descriptor = "Ljava/lang/Class;" then
      push ctx (.ref (.primitiveClass type))
    else throw .stuck
  | none => throw .stuck

/-- The primitive type whose values a method boxes. -/
def boxing? (method : MemberRef) : Option FieldType :=
  (boxClass? method.owner).bind fun c =>
    if method.name = "valueOf" ∧
        method.descriptor = "(" ++ c.descriptor ++ ")L" ++ c.className ++ ";" then some c.type
    else none

/-- The primitive type whose values a method gives back from their boxes. -/
def unboxing? (method : MemberRef) : Option FieldType :=
  (boxClass? method.owner).bind fun c =>
    if method.name = c.unboxing ∧ method.descriptor = "()" ++ c.descriptor then some c.type
    else none

/-- The method that gives the class of a name. -/
def forName : MemberRef where
  owner := "java/lang/Class"
  name := "forName"
  descriptor := "(Ljava/lang/String;)Ljava/lang/Class;"
  isInterface := false

/-- Go on with an object or an exception. -/
def pushResult (ctx : Context) : Except Ref Ref → Execution Unit
  | .ok r => push ctx (.ref r)
  | .error e => raise e

/-- Note a call. -/
def record (method : MemberRef) (arguments : List Value) : Execution Unit :=
  modify fun s => { s with calls := s.calls ++ [⟨method, arguments, s.arrays⟩] }

/-- Call a static method that gives back an object: one of those that box primitive
values, the one that finds classes by their names, or one of the world. -/
def invokeStatic (ctx : Context) (method : MemberRef) : Execution Unit := do
  match MethodDescriptor.parse? method.descriptor with
  | none => throw .stuck
  | some descriptor =>
    let arguments ← popArguments descriptor.params
    record method arguments
    match boxing? method, arguments with
    | some type, [value] =>
      match box? type value with
      | some r => push ctx (.ref r)
      | none => throw .stuck
    | _, _ =>
      if method = forName then
        match arguments with
        | [.ref .null] => raise .nullPointer
        | [.ref (.string name)] => pushResult ctx (ctx.world.forName name)
        | _ => throw .stuck
      else
        match descriptor.ret with
        | .value (.object _) | .value (.array _) =>
          match ctx.world.invoke ⟨method, arguments, (← get).arrays⟩ with
          | .ok (r, arrays) => do
            modify fun s => { s with arrays }
            push ctx (.ref r)
          | .error e => raise e
        | _ => throw .stuck

/-- Call the method of a box that gives its value back. -/
def invokeVirtual (ctx : Context) (method : MemberRef) : Execution Unit := do
  match MethodDescriptor.parse? method.descriptor with
  | none => throw .stuck
  | some descriptor =>
    let arguments ← popArguments descriptor.params
    let receiver ← popRef
    record method (.ref receiver :: arguments)
    match receiver with
    | .null => raise .nullPointer
    | .boxed value =>
      if unboxing? method = some value.type then push ctx value.toValue else throw .stuck
    | _ => throw .stuck

/-- Check the class of the reference on the stack. -/
def cast (ctx : Context) (className : String) : Execution Unit := do
  let r ← popRef
  if r = .null ∨ isInstance ctx.world r className then push ctx (.ref r)
  else raise .classCast

/-- Perform an action. -/
def perform (ctx : Context) : Action → Execution Unit
  | .push value => push ctx value
  | .load kind slot => load ctx kind slot.toNat
  | .store kind slot => store ctx kind slot.toNat
  | .dup => do
    let value ← Machine.pop
    if value.slots = 1 then
      push ctx value
      push ctx value
    else throw .stuck
  | .pop => do
    let value ← Machine.pop
    if value.slots = 1 then return () else throw .stuck
  | .newArray elementClass => newArray ctx elementClass
  | .storeElement => storeElement ctx
  | .getStatic field => getStatic ctx field
  | .invokeStatic method => invokeStatic ctx method
  | .invokeVirtual method => invokeVirtual ctx method
  | .cast className => cast ctx className
  | .leave none => throw (.returned none)
  | .leave (some kind) => do
    let value ← Machine.pop
    if value.kind = kind then throw (.returned (some value)) else throw .stuck

/-- Perform actions one after the other. -/
def performAll (ctx : Context) : List Action → Execution Unit
  | [] => return ()
  | a :: rest => do
    perform ctx a
    performAll ctx rest

/-- Run instructions of a class with the pool one after the other. -/
def run {τ : Type} (ctx : Context) (pool : ConstantPool) : List (Instruction τ) → Execution Unit
  | [] => return ()
  | i :: rest => do
    match action? pool i with
    | some a => perform ctx a
    | none => throw .stuck
    run ctx pool rest

end ClassPatch.Machine
