import ClassPatch.ClassFile.Edit
import ClassPatch.MethodBody.Decode
import ClassPatch.MethodBody.Encode
import ClassPatch.MethodKey
import ClassPatch.Rewrite.ConstantValue

/-!
# Redirected calls

Replacing calls of chosen methods by calls of a dispatcher, which gets the receiver, the key of the
method, the class of its result and the arguments in an array. The arguments pass through scratch
locals above those of the method.
-/

namespace ClassPatch

open Code

/-- The static method that redirected calls go to. -/
structure Dispatcher where
  owner : String
  name : String
deriving Repr, DecidableEq

/-- The descriptor of every dispatcher. -/
def Dispatcher.descriptor : String :=
  "(Ljava/lang/Object;Ljava/lang/String;Ljava/lang/Class;[Ljava/lang/Object;)Ljava/lang/Object;"

namespace Redirect

/-- The stack that a redirected call may need beyond that of the call. -/
def stackHeadroom : Nat := 8

/-- The first version of the format with class constants as values. -/
def classLiteralVersion : UInt16 := 49

/-- A call to be redirected. -/
structure Call where
  key : MethodKey
  descriptor : MethodDescriptor
  isStatic : Bool

/-- The class that calls are redirected in, as far as it matters. -/
structure Site where
  /-- The first local that holds nothing. -/
  scratch : UInt16
  majorVersion : UInt16
  dispatcher : Dispatcher

/-- A parameter and the local that holds its argument. -/
structure Spill where
  type : FieldType
  slot : UInt16

/-- The locals that hold the arguments from `next` on, and the first local after them. -/
def spills (next : UInt16) : List FieldType → Except Error (List Spill × UInt16)
  | [] => .ok ([], next)
  | type :: types =>
    if UInt16.size ≤ next.toNat + type.slots then refuse .tooManyScratchLocals
    else do
      let (rest, last) ← spills (next + UInt16.ofNat type.slots) types
      return (⟨type, next⟩ :: rest, last)

/-- An instruction on an interned constant. -/
def onConstant (opcode : UInt8) (index : PoolEdit UInt16) : PoolEdit (Instruction Label) :=
  return .ofConstant opcode (← index)

/-- The instructions that push the class of a reference type. Before class constants were values, the
class was asked for by its name. -/
def pushClass (name : String) (majorVersion : UInt16) : PoolEdit (List (Instruction Label)) := do
  if classLiteralVersion ≤ majorVersion then
    return [← onConstant Opcode.ldc (ConstantPool.internClass name)]
  else
    let binaryName := String.ofList (name.toList.map fun c => if c = '/' then '.' else c)
    let load ← onConstant Opcode.ldc (ConstantPool.internString binaryName)
    return [load, ← onConstant Opcode.invokestatic (ConstantPool.internMethod "java/lang/Class"
      "forName" "(Ljava/lang/String;)Ljava/lang/Class;")]

/-- The instructions that push the class object of a primitive type or of `void`, which its wrapper
holds. -/
def pushPrimitiveClass (wrapper : String) : PoolEdit (List (Instruction Label)) :=
  return [← onConstant Opcode.getstatic
    (ConstantPool.internField wrapper "TYPE" "Ljava/lang/Class;")]

/-- The instructions that push the class of a result. -/
def pushReturnClass (majorVersion : UInt16) :
    ReturnType → PoolEdit (List (Instruction Label))
  | .void => pushPrimitiveClass "java/lang/Void"
  | .value type =>
    match type.wrapper?, type.className? with
    | some wrapper, _ => pushPrimitiveClass wrapper.className
    | none, some name => pushClass name majorVersion
    | none, none => return []

/-- The instruction that boxes a value of a primitive type, none for a reference type. -/
def box (type : FieldType) : PoolEdit (List (Instruction Label)) :=
  match type.wrapper? with
  | some wrapper =>
    return [← onConstant Opcode.invokestatic (ConstantPool.internMethod wrapper.className "valueOf"
      ("(" ++ type.text ++ ")L" ++ wrapper.className ++ ";"))]
  | none => return []

/-- The instructions that store an argument into the array on the stack. -/
def storeArgument (position : Nat) (spill : Spill) : PoolEdit (List (Instruction Label)) := do
  let index ← ConstantValue.pushInt (Int32.ofNat position)
  let boxing ← box spill.type
  return [.simple Opcode.dup, index, .ofSlot spill.type.loadOpcode spill.slot] ++ boxing ++
    [.simple Opcode.aastore]

/-- The instructions that store the arguments from `position` on, after those in `acc` (last one
first). -/
def storeArguments (acc : List (List (Instruction Label))) (position : Nat) :
    List Spill → PoolEdit (List (Instruction Label))
  | [] => return acc.reverse.flatten
  | spill :: rest => do storeArguments ((← storeArgument position spill) :: acc) (position + 1) rest

/-- The instructions that turn the dispatcher's result into a result of the call. -/
def adaptResult : ReturnType → PoolEdit (List (Instruction Label))
  | .void => return [.simple Opcode.pop]
  | .value type =>
    match type.wrapper?, type.className? with
    | some wrapper, _ => do
      let cast ← onConstant Opcode.checkcast (ConstantPool.internClass wrapper.className)
      return [cast, ← onConstant Opcode.invokevirtual (ConstantPool.internMethod wrapper.className
        wrapper.unboxing ("()" ++ type.text))]
    | none, some name => return [← onConstant Opcode.checkcast (ConstantPool.internClass name)]
    | none, none => return []

/-- The instructions that take the place of a call. -/
structure Sequence where
  instructions : List (Instruction Label)
  /-- The number of scratch locals in use. -/
  used : UInt16

/-- The instructions that take the place of a call: they move the arguments from the stack into
scratch locals, the last one first, then into an array, and call the dispatcher. -/
def sequence (site : Site) (call : Call) : PoolEdit Sequence := do
  let (spilled, last) ← PoolEdit.ofExcept (spills site.scratch call.descriptor.params)
  let stores := spilled.reverse.map fun s => .ofSlot s.type.storeOpcode s.slot
  let receiver := if call.isStatic then [.simple Opcode.aconstNull] else []
  let key ← onConstant Opcode.ldc (ConstantPool.internString call.key.text)
  let ret ← pushReturnClass site.majorVersion call.descriptor.ret
  let count ← ConstantValue.pushInt (Int32.ofNat spilled.length)
  let array ← onConstant Opcode.anewarray (ConstantPool.internClass "java/lang/Object")
  let arguments ← storeArguments [] 0 spilled
  let dispatch ← onConstant Opcode.invokestatic
    (ConstantPool.internMethod site.dispatcher.owner site.dispatcher.name Dispatcher.descriptor)
  let adapt ← adaptResult call.descriptor.ret
  return { instructions := stores ++ receiver ++ [key] ++ ret ++ [count, array] ++ arguments ++
             [dispatch] ++ adapt
           used := last - site.scratch }

/-! ## Methods -/

/-- The nodes of a method after redirecting, the number of redirected calls, and the largest number
of scratch locals that one of them uses. -/
structure Rewritten where
  nodes : List Node
  calls : Nat
  used : UInt16

/-- The call of a node if it is to be redirected. Calls of superclass methods and constructors never
are. -/
def matchCall? (pool : ConstantPool) (targets : List MethodKey) (node : Node) :
    Except Error (Option Call) :=
  match node with
  | .label _ => .ok none
  | .instruction i =>
    if i.opcode = Opcode.invokespecial then .ok none
    else match i.invoked? with
      | none => .ok none
      | some index => do
        let m ← pool.getMember index
        let key := MethodKey.ofParts m.owner m.name m.descriptor
        if targets.contains key then
          return some { key, descriptor := ← MethodDescriptor.parse m.descriptor,
                        isStatic := i.opcode = Opcode.invokestatic }
        else return none

/-- Redirect the calls among nodes. The result so far is in `acc`, with the nodes in reverse. -/
def redirectNodes (site : Site) (targets : List MethodKey) (acc : Rewritten) :
    List Node → PoolEdit Rewritten
  | [] => return { acc with nodes := acc.nodes.reverse }
  | node :: rest => do
    let call? ← PoolEdit.ofExcept (matchCall? (← get) targets node)
    match call? with
    | none => redirectNodes site targets { acc with nodes := node :: acc.nodes } rest
    | some call =>
      let replaced ← sequence site call
      redirectNodes site targets
        { nodes := (replaced.instructions.map Node.instruction).reverse ++ acc.nodes
          calls := acc.calls + 1
          used := max acc.used replaced.used } rest

/-- Make room for the instructions of redirected calls. -/
def widenBody (body : MethodBody) (r : Rewritten) : Except Error MethodBody :=
  if UInt16.size ≤ body.maxLocals.toNat + r.used.toNat then refuse .tooManyScratchLocals
  else .ok { body with
    nodes := r.nodes
    maxStack := UInt16.ofNat (min (body.maxStack.toNat + stackHeadroom) 65535)
    maxLocals := body.maxLocals + r.used }

end Redirect

namespace ClassFile

open Redirect

/-- Redirect the calls in one method, and give their number. A method without such calls keeps its
code as it is. -/
def redirectMethod (targets : List MethodKey) (dispatcher : Dispatcher) (index : Nat) :
    ClassEdit Nat := do
  match ← ClassEdit.check (·.methodCode index) with
  | none => return 0
  | some code =>
    let body ← ClassEdit.check fun c => MethodBody.decode c.pool code
    let site := { scratch := body.maxLocals, majorVersion := (← get).majorVersion, dispatcher }
    let rewritten ← ClassEdit.onPool
      (redirectNodes site targets { nodes := [], calls := 0, used := 0 } body.nodes)
    if rewritten.calls = 0 then return 0
    else
      let widened ← ClassEdit.check fun _ => widenBody body rewritten
      let code ← ClassEdit.onPool widened.encode
      setMethodCode index code
      return rewritten.calls

/-- Redirect the calls of the target methods in all methods of a class, and give their number. -/
def injectRedirects (targets : List MethodKey) (dispatcher : Dispatcher) : ClassEdit Nat := do
  let count := (← get).methods.length
  let calls ← (List.range count).mapM (redirectMethod targets dispatcher)
  return calls.foldl (· + ·) 0

end ClassFile

end ClassPatch
