import ClassPatch.Code.Instruction

/-!
# Stack map frames

What a verifier assumes about the locals and the stack at a place in the code, given as a change to
the frame before. Places are of any type: offsets in a table as it is stored, labels in code that is
edited.
-/

namespace ClassPatch.Code

/-- The type of a local or of a stack entry. -/
inductive VerificationType (τ : Type) where
  | top | integer | float | double | long | null | uninitializedThis
  | object (index : UInt16)
  /-- An object without constructor call, created by the instruction at a place. -/
  | uninitialized (creation : τ)
deriving Repr, DecidableEq

/-- A change to the frame before. -/
inductive FrameKind (τ : Type) where
  | same
  | sameLocals (stack : VerificationType τ)
  | chop (count : UInt8)
  | append (locals : List (VerificationType τ))
  | full (locals stack : List (VerificationType τ))
deriving Repr, DecidableEq

/-- A frame at a place. -/
structure Frame (τ : Type) where
  place : τ
  kind : FrameKind τ
deriving Repr, DecidableEq

/-! ## Places -/

variable {m : Type → Type} [Monad m] {τ υ : Type}

/-- The type with its place replaced by a step. -/
def VerificationType.mapPlaceM (f : τ → m υ) : VerificationType τ → m (VerificationType υ)
  | .top => return .top
  | .integer => return .integer
  | .float => return .float
  | .double => return .double
  | .long => return .long
  | .null => return .null
  | .uninitializedThis => return .uninitializedThis
  | .object index => return .object index
  | .uninitialized creation => return .uninitialized (← f creation)

/-- The change with every place replaced by a step, in order. -/
def FrameKind.mapPlacesM (f : τ → m υ) : FrameKind τ → m (FrameKind υ)
  | .same => return .same
  | .sameLocals stack => return .sameLocals (← stack.mapPlaceM f)
  | .chop count => return .chop count
  | .append locals => return .append (← locals.mapM (·.mapPlaceM f))
  | .full locals stack =>
    return .full (← locals.mapM (·.mapPlaceM f)) (← stack.mapM (·.mapPlaceM f))

/-- The frame with every place replaced by a step, its own place last. -/
def Frame.mapPlacesM (f : τ → m υ) (frame : Frame τ) : m (Frame υ) := do
  let kind ← frame.kind.mapPlacesM f
  return ⟨← f frame.place, kind⟩

/-! ## Descriptions -/

/-- The description of a type in messages. -/
def VerificationType.describe : VerificationType Label → String
  | .top => "Top"
  | .integer => "Integer"
  | .float => "Float"
  | .double => "Double"
  | .long => "Long"
  | .null => "Null"
  | .uninitializedThis => "UninitializedThis"
  | .object index => s!"Object({index})"
  | .uninitialized creation => s!"Uninitialized({creation.describe})"

/-- The description of a list of types in messages. -/
def describeTypes (types : List (VerificationType Label)) : String :=
  describeList (types.map VerificationType.describe)

/-- The description of a change in messages. -/
def FrameKind.describe : FrameKind Label → String
  | .same => "Same"
  | .sameLocals stack => s!"SameLocals1({stack.describe})"
  | .chop count => s!"Chop({count})"
  | .append locals => s!"Append({describeTypes locals})"
  | .full locals stack =>
    s!"Full \x7b locals: {describeTypes locals}, stack: {describeTypes stack} \x7d"

end ClassPatch.Code
