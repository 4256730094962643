import ClassPatch.Descriptor

/-!
# Method keys

The text by which a call site and the handler of a redirected method find each other: `L`, the owner
class, `;`, the method's name and its descriptor. Keys are compared as texts and may be malformed
until their parts are asked for.
-/

namespace ClassPatch

/-- The key of a method. -/
structure MethodKey where
  text : String
deriving Repr, DecidableEq, Hashable

/-- The owner, the name and the descriptor in a key. -/
structure MethodKey.Parts where
  owner : String
  name : String
  descriptor : String
deriving Repr, DecidableEq

namespace MethodKey

/-- The key of the method `name` with `descriptor` in the class `owner`. -/
def ofParts (owner name descriptor : String) : MethodKey :=
  ⟨"L" ++ owner ++ ";" ++ name ++ descriptor⟩

/-- The parts of a key: the owner ends at the first semicolon, and the name at the first parenthesis
after it. Owner and name must not be empty, and the descriptor must be one of a method. -/
def parts? (key : MethodKey) : Option Parts :=
  match key.text.toList with
  | 'L' :: rest =>
    let owner := rest.takeWhile (· != ';')
    let member := rest.drop owner.length
    let name := (member.drop 1).takeWhile (· != '(')
    let descriptor := String.ofList (member.drop (name.length + 1))
    if member.isEmpty || owner.isEmpty || name.isEmpty then none
    else (MethodDescriptor.parse? descriptor).map fun _ =>
      { owner := String.ofList owner, name := String.ofList name, descriptor }
  | _ => none

/-- The parts of a key. -/
def parts (key : MethodKey) : Except Error Parts :=
  key.parts?.elim (.error (.invalidDescriptor key.text)) .ok

/-- The key that a text writes. -/
def parse (text : String) : Except Error MethodKey :=
  (parts ⟨text⟩).map fun _ => ⟨text⟩

/-- Keys in the order of their texts, each of them once. -/
def sort (keys : List MethodKey) : List MethodKey :=
  (keys.mergeSort fun a b => a.text ≤ b.text).eraseReps

/-- The descriptor in a key. -/
def descriptor (key : MethodKey) : Except Error MethodDescriptor := do
  MethodDescriptor.parse (← key.parts).descriptor

end MethodKey

end ClassPatch
