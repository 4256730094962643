import ClassPatch.ConstantPool.Basic

/-!
# Interning constants

Finding the index of a constant, or adding the constant at the end of the pool. Asking again gives
the same index. What a failing step added before it failed stays in the pool.
-/

namespace ClassPatch

/-- An edit of a constant pool. -/
abbrev PoolEdit := EStateM Error ConstantPool

/-- A computation that leaves the pool alone. -/
def PoolEdit.ofExcept {α : Type} : Except Error α → PoolEdit α
  | .ok a => return a
  | .error e => throw e

namespace ConstantPool

/-- The index of the first entry equal to a constant. -/
def find? (pool : ConstantPool) (c : Constant) : Option UInt16 :=
  match pool.entries.idxOf? c with
  | some index => if index < UInt16.size then some (UInt16.ofNat index) else none
  | none => none

/-- The pool with a constant added. -/
def push (pool : ConstantPool) (c : Constant) : ConstantPool := ⟨pool.entries ++ c.slots⟩

/-- The index of a constant, which is added if it is new. -/
def intern (c : Constant) : PoolEdit UInt16 := fun pool =>
  match pool.find? c with
  | some index => .ok index pool
  | none =>
    if maxSize < pool.size then .error (.rewriteFailed .poolFull) pool
    else
      let index := UInt16.ofNat pool.size
      let grown := pool.push c
      if maxSize < grown.size then .error (.rewriteFailed .poolFull) grown else .ok index grown

/-! ## Kinds of constants -/

/-- The index of a text. -/
def internText (text : String) : PoolEdit UInt16 := intern (.utf8 text)

/-- The index of the constant for a class. -/
def internClass (name : String) : PoolEdit UInt16 := do intern (.classRef (← internText name))

/-- The index of the constant for a string. -/
def internString (text : String) : PoolEdit UInt16 := do intern (.string (← internText text))

/-- The index of a name with a descriptor. -/
def internNameAndType (name descriptor : String) : PoolEdit UInt16 := do
  let name ← internText name
  intern (.nameAndType name (← internText descriptor))

/-- The index of a reference to a member of a class. -/
def internMember (kind : MemberKind) (owner name descriptor : String) : PoolEdit UInt16 := do
  let owner ← internClass owner
  intern (.member kind owner (← internNameAndType name descriptor))

/-- The index of a reference to a method. -/
def internMethod (owner name descriptor : String) : PoolEdit UInt16 :=
  internMember .method owner name descriptor

/-- The index of a reference to a field. -/
def internField (owner name descriptor : String) : PoolEdit UInt16 :=
  internMember .field owner name descriptor

end ConstantPool

end ClassPatch
