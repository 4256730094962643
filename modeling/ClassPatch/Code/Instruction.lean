import ClassPatch.Code.Opcode

/-!
# Instructions

Instructions with their decoded operands. The targets of branches and switches are of any type: code
offsets in bytecode as it is read, labels in code that is edited.
-/

namespace ClassPatch.Code

/-- A name for a place in the code of a method: a number without bound. Label numbers of 32 bits, as
a decoder on its own hands them out, are those of `LabelTable`. -/
structure Label where
  id : Nat
deriving Repr, DecidableEq, Hashable

/-- What follows an opcode. -/
inductive Operand (τ : Type) where
  | plain
  | byte (value : Int8)
  | short (value : Int16)
  | arrayType (code : UInt8)
  | slot (index : UInt16)
  | increment (index : UInt16) (delta : Int16)
  | constant (index : UInt16)
  | interface (index : UInt16) (count : UInt8)
  | dynamic (index : UInt16)
  | multiArray (index : UInt16) (dimensions : UInt8)
  | branch (target : τ)
  | tableSwitch (fallback : τ) (low : Int32) (targets : List τ)
  | lookupSwitch (fallback : τ) (pairs : List (Int32 × τ))
deriving Repr, DecidableEq

/-- An opcode with its operand. -/
structure Instruction (τ : Type) where
  opcode : UInt8
  operand : Operand τ
deriving Repr, DecidableEq

/-- An element of code that is edited: an instruction, or a label that stands for the place of the
instruction after it. -/
inductive Node where
  | label (label : Label)
  | instruction (instruction : Instruction Label)
deriving Repr, DecidableEq

/-! ## Targets -/

/-- The targets of an operand in order, the fallback of a switch first. -/
def Operand.targets {τ : Type} : Operand τ → List τ
  | .branch target => [target]
  | .tableSwitch fallback _ targets => fallback :: targets
  | .lookupSwitch fallback pairs => fallback :: pairs.map (·.2)
  | _ => []

/-- The operand with every target replaced by a step, in the order of `targets`. -/
def Operand.mapTargetsM {m : Type → Type} [Monad m] {τ υ : Type} (f : τ → m υ) :
    Operand τ → m (Operand υ)
  | .plain => return .plain
  | .byte value => return .byte value
  | .short value => return .short value
  | .arrayType code => return .arrayType code
  | .slot index => return .slot index
  | .increment index delta => return .increment index delta
  | .constant index => return .constant index
  | .interface index count => return .interface index count
  | .dynamic index => return .dynamic index
  | .multiArray index dimensions => return .multiArray index dimensions
  | .branch target => return .branch (← f target)
  | .tableSwitch fallback low targets =>
    return .tableSwitch (← f fallback) low (← targets.mapM f)
  | .lookupSwitch fallback pairs =>
    return .lookupSwitch (← f fallback) (← pairs.mapM fun (key, target) => return (key, ← f target))

namespace Instruction

variable {τ : Type}

/-- The targets of an instruction. -/
def targets (i : Instruction τ) : List τ := i.operand.targets

/-- The instruction with every target replaced by a step. -/
def mapTargetsM {m : Type → Type} [Monad m] {υ : Type} (f : τ → m υ) (i : Instruction τ) :
    m (Instruction υ) :=
  return ⟨i.opcode, ← i.operand.mapTargetsM f⟩

/-! ## Kinds of instructions -/

/-- An instruction without operand. -/
def simple (opcode : UInt8) : Instruction τ := ⟨opcode, .plain⟩

/-- An instruction on a constant pool entry. -/
def ofConstant (opcode : UInt8) (index : UInt16) : Instruction τ := ⟨opcode, .constant index⟩

/-- An instruction on a local variable. -/
def ofSlot (opcode : UInt8) (index : UInt16) : Instruction τ := ⟨opcode, .slot index⟩

/-- The pool index of the method that the instruction calls. -/
def invoked? (i : Instruction τ) : Option UInt16 :=
  match i.operand with
  | .constant index =>
    if i.opcode = Opcode.invokevirtual ∨ i.opcode = Opcode.invokespecial ∨
        i.opcode = Opcode.invokestatic then some index else none
  | .interface index _ => if i.opcode = Opcode.invokeinterface then some index else none
  | _ => none

end Instruction

/-! ## Descriptions -/

/-- The description of a label in messages. -/
def Label.describe (label : Label) : String := s!"Label({label.id})"

/-- The description of a list in messages. -/
def describeList (items : List String) : String := "[" ++ ", ".intercalate items ++ "]"

/-- The description of an operand in messages. -/
def Operand.describe : Operand Label → String
  | .plain => "None"
  | .byte value => s!"Byte({value})"
  | .short value => s!"Short({value})"
  | .arrayType code => s!"ArrayType({code})"
  | .slot index => s!"Local({index})"
  | .increment index delta => s!"Iinc \x7b index: {index}, delta: {delta} \x7d"
  | .constant index => s!"Constant({index})"
  | .interface index count => s!"Interface \x7b index: {index}, count: {count} \x7d"
  | .dynamic index => s!"Dynamic({index})"
  | .multiArray index dimensions =>
    s!"MultiArray \x7b index: {index}, dimensions: {dimensions} \x7d"
  | .branch target => s!"Branch({target.describe})"
  | .tableSwitch fallback low targets =>
    let listed := describeList (targets.map Label.describe)
    s!"TableSwitch \x7b default: {fallback.describe}, low: {low}, targets: {listed} \x7d"
  | .lookupSwitch fallback pairs =>
    let listed := describeList (pairs.map fun (key, target) => s!"({key}, {target.describe})")
    s!"LookupSwitch \x7b default: {fallback.describe}, pairs: {listed} \x7d"

end ClassPatch.Code
