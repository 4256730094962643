import ClassPatch.Host.Registry

/-!
# Redirected element calls

A handler that answers the reading of an element from a structure buffer with a new object of the
buffer's element class, which the type arguments of the buffer's superclasses tell.
-/

namespace ClassPatch.Headless

open Host

/-- What makes an object of a class. -/
abbrev ObjectFactory := String → Action Value

namespace ElementCalls

/-- The class of structure buffers. -/
def structBuffer : String := "org/lwjgl/system/StructBuffer"

/-- The call that reads the element at an index. -/
def getIndex : MethodKey := ⟨"Lorg/lwjgl/system/StructBuffer;get(I)Lorg/lwjgl/system/Struct;"⟩

/-- The call that reads the next element. -/
def getNext : MethodKey := ⟨"Lorg/lwjgl/system/StructBuffer;get()Lorg/lwjgl/system/Struct;"⟩

/-- The resolver of element classes over a hierarchy. -/
def resolver (hierarchy : Hierarchy) : Resolver := .create structBuffer hierarchy

/-- The factory of new host objects. -/
def newObject : ObjectFactory := fun className => do
  let (id, h) := (← get).create className
  set h
  return .object id

/-- The result of a factory, null if it fails. -/
def orNull (action : Action Value) : Action Value := fun h =>
  match action h with
  | .ok value h => .ok value h
  | .error _ h => .ok .null h

/-- A new element of the buffer that is called, null if its element class is not known. -/
def runGet (id : ResolverId) (factory : ObjectFactory) (call : Call) : Action Value := do
  match call.receiver with
  | .object buffer =>
    match (← get).objects[buffer]? with
    | none => return .null
    | some o =>
      let (element, h) := (← get).resolve id o.className
      set h
      match element with
      | some className => orNull (factory className)
      | none => return .null
  | _ => return .null

/-- The handlers of element calls. -/
def handlers (id : ResolverId) (factory : ObjectFactory) : List (MethodKey × Handler) :=
  [(getIndex, .ofRun (runGet id factory)), (getNext, .ofRun (runGet id factory))]

end ElementCalls

end ClassPatch.Headless
