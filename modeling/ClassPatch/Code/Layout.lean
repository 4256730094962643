import ClassPatch.Code.Assembler

/-!
# Layout

Nodes as bytecode. Branches start in their two-byte form, and those that do not reach their target
are widened, round after round, until all of them reach. A branch is never narrowed again, so every
round but the last widens a branch that was short.
-/

namespace ClassPatch.Code

/-- The branches that may be widened. -/
inductive BranchWidening where
  /-- Only jumps, which keep their place in the code as one instruction. -/
  | unconditional
  /-- Conditional branches too, which become two instructions. -/
  | all
deriving Repr, DecidableEq

/-- Whether a branch of the opcode may be widened. -/
def BranchWidening.covers (widening : BranchWidening) (opcode : UInt8) : Bool :=
  (Opcode.wideJump? opcode).isSome ||
    (widening = .all && (Opcode.inverse? opcode).isSome)

/-- A node and whether its branch takes the form that reaches any distance. -/
structure PlannedNode where
  node : Node
  wide : Bool

/-- The nodes still in their short form. -/
def shortCount (plan : List PlannedNode) : Nat := plan.countP (!·.wide)

/-- Put a node at the end of the code, and give its pieces. -/
def PlannedNode.assemble (p : PlannedNode) : Assembly (List Piece) :=
  match p.node with
  | .label label => do Assembly.place label; return []
  | .instruction i => if p.wide then Assembly.emitWide i else Assembly.emit i

/-- The assembled nodes and the pieces of each. -/
def assemblePlan (plan : List PlannedNode) : Except Error (List (List Piece) × Assembler) :=
  match plan.mapM PlannedNode.assemble Assembler.empty with
  | .ok pieces a => .ok (pieces, a)
  | .error e _ => .error e

/-- Whether a piece is a two-byte offset that does not reach its target. Branches to labels without
a place are left to the end. -/
def Piece.overflows (places : Places) : Piece → Bool
  | .offset16 target origin => places[target]?.any fun place => !isShort ((place : Int) - origin)
  | _ => false

/-- A node and whether its branch does not reach. -/
structure CheckedNode where
  planned : PlannedNode
  overflows : Bool

/-- The nodes with the verdict on their pieces. -/
def checkPlan (plan : List PlannedNode) (pieces : List (List Piece)) (places : Places) :
    List CheckedNode :=
  (plan.zip pieces).map fun (p, ps) => ⟨p, ps.any (Piece.overflows places)⟩

/-- The error of a branch that does not reach and may not be widened. -/
def CheckedNode.refusal? (widening : BranchWidening) (c : CheckedNode) : Option RewriteFault :=
  match c.planned.node with
  | .instruction i =>
    if c.overflows && !widening.covers i.opcode then some (.unwidenable i.opcode) else none
  | .label _ => none

/-- The node for the next round. -/
def CheckedNode.next (c : CheckedNode) : PlannedNode :=
  { c.planned with wide := c.planned.wide || c.overflows }

/-- Assemble the plan, widening branches until all reach. -/
def settle (widening : BranchWidening) (plan : List PlannedNode) : Except Error Assembled := do
  let (pieces, a) ← assemblePlan plan
  let checked := checkPlan plan pieces a.places
  match checked.findSome? (·.refusal? widening) with
  | some fault => refuse fault
  | none =>
    let next := checked.map CheckedNode.next
    if shortCount next < shortCount plan then settle widening next else a.finish
termination_by shortCount plan

/-- The bytecode of nodes. -/
def encodeWith (widening : BranchWidening) (nodes : List Node) : Except Error Assembled :=
  settle widening (nodes.map (⟨·, false⟩))

/-- The bytecode of nodes whose branches may all be widened. -/
def encode (nodes : List Node) : Except Error Assembled := encodeWith .all nodes

end ClassPatch.Code
