import ClassPatch.ClassFile.Edit
import ClassPatch.ClassFile.Format

/-!
# Rewriting stored classes

An edit of a class from bytes to bytes. A failed edit gives no bytes, and an edit that gives the same
bytes again leaves the class unchanged.
-/

namespace ClassPatch

/-- What came of rewriting a stored class. -/
inductive RewriteOutcome where
  | rewritten (data : List UInt8)
  | unchanged
  | failed (error : Error)
deriving Repr, DecidableEq

/-- The stored class after an edit. -/
def editStored (data : List UInt8) (edit : ClassEdit Unit) : Except Error (List UInt8) := do
  let c ← ClassFile.parse data
  match edit c with
  | .ok _ edited => edited.toBytes
  | .error e _ => .error e

/-- Rewrite a stored class by an edit. -/
def rewriteStored (data : List UInt8) (edit : ClassEdit Unit) : RewriteOutcome :=
  match editStored data edit with
  | .ok bytes => if bytes = data then .unchanged else .rewritten bytes
  | .error e => .failed e

end ClassPatch
