import ClassPatch.Code.Frame
import ClassPatch.Code.LabelMap

/-!
# Method bodies

The code of a method in a form in which instructions can be added and removed: every table that
refers to places in the code does so by labels among the nodes.
-/

namespace ClassPatch

open Code

/-- A range of code whose exceptions of a class go to a handler. -/
structure TryBlock (τ : Type) where
  start : τ
  stop : τ
  handler : τ
  catchType : UInt16
deriving Repr, DecidableEq

/-- The source line of the code from a place on. -/
structure LineNumber (τ : Type) where
  start : τ
  line : UInt16
deriving Repr, DecidableEq

/-- The range of code where a local variable holds a named value. -/
structure LocalVariable (τ : Type) where
  start : τ
  stop : τ
  nameIndex : UInt16
  descriptorIndex : UInt16
  slot : UInt16
deriving Repr, DecidableEq

/-- A table about places in the code. -/
inductive CodeTable (τ : Type) where
  | lines (entries : List (LineNumber τ))
  | locals (entries : List (LocalVariable τ))
  | localTypes (entries : List (LocalVariable τ))
  | frames (entries : List (Frame τ))
deriving Repr, DecidableEq

/-- The code of a method for editing. -/
structure MethodBody where
  maxStack : UInt16
  maxLocals : UInt16
  nodes : List Node
  tryBlocks : List (TryBlock Label)
  lines : List (LineNumber Label)
  locals : List (LocalVariable Label)
  localTypes : List (LocalVariable Label)
  frames : Option (List (Frame Label))
  labels : LabelMap

/-! ## Labels of places -/

/-- The block with labels as places. -/
def TryBlock.labelled (b : TryBlock Nat) : Labelling (TryBlock Label) := do
  let start ← Labelling.label b.start
  let stop ← Labelling.label b.stop
  return { start, stop, handler := ← Labelling.label b.handler, catchType := b.catchType }

/-- The line with a label as its place. -/
def LineNumber.labelled (l : LineNumber Nat) : Labelling (LineNumber Label) :=
  return ⟨← Labelling.label l.start, l.line⟩

/-- The variable with labels as places. -/
def LocalVariable.labelled (v : LocalVariable Nat) : Labelling (LocalVariable Label) := do
  let start ← Labelling.label v.start
  return { v with start, stop := ← Labelling.label v.stop }

/-- The table with labels as places. -/
def CodeTable.labelled : CodeTable Nat → Labelling (CodeTable Label)
  | .lines entries => return .lines (← entries.mapM LineNumber.labelled)
  | .locals entries => return .locals (← entries.mapM LocalVariable.labelled)
  | .localTypes entries => return .localTypes (← entries.mapM LocalVariable.labelled)
  | .frames entries => return .frames (← entries.mapM (Frame.mapPlacesM Labelling.label))

namespace MethodBody

/-- The instructions of a body. -/
def instructions (body : MethodBody) : List (Instruction Label) :=
  body.nodes.filterMap fun
    | .instruction i => some i
    | .label _ => none

/-- The body with nodes put in before the node at a position, or at the end. -/
def insertNodes (body : MethodBody) (position : Nat) (added : List Node) : MethodBody :=
  { body with nodes := body.nodes.take position ++ added ++ body.nodes.drop position }

/-- The body without the nodes from one position to before another one. -/
def removeNodes (body : MethodBody) (start stop : Nat) : MethodBody :=
  { body with nodes := body.nodes.take start ++ body.nodes.drop (max start stop) }

/-- A label that is not among the nodes yet. -/
def freshLabel (body : MethodBody) : Label × MethodBody :=
  let (label, labels) := body.labels.fresh
  (label, { body with labels })

/-! ## Names of tables -/

/-- The name of the attribute with the line numbers. -/
def lineTableName : String := "LineNumberTable"

/-- The name of the attribute with the local variables by descriptor. -/
def localTableName : String := "LocalVariableTable"

/-- The name of the attribute with the local variables by generic type. -/
def localTypeTableName : String := "LocalVariableTypeTable"

/-- The name of the attribute with the stack map. -/
def frameTableName : String := "StackMapTable"

end MethodBody

end ClassPatch
