import ClassPatch.Error

/-!
# Generic class signatures

The type parameters, the superclass and the interfaces that a class declares with their type
arguments. A nested class is named by its outer class, a `$` and its own name, and has the arguments
of its innermost part.
-/

namespace ClassPatch

mutual

/-- A type as it stands in a signature. -/
inductive TypeSignature where
  | base (letter : Char)
  | ofClass (type : ClassType)
  | variable (name : String)
  | array (component : TypeSignature)
deriving Repr

/-- A class with the arguments it is used with. -/
inductive ClassType where
  | mk (name : String) (arguments : List TypeArgument)
deriving Repr

/-- An argument of a generic class. -/
inductive TypeArgument where
  | wildcard
  | upper (type : TypeSignature)
  | lower (type : TypeSignature)
  | exact (type : TypeSignature)
deriving Repr

end

namespace ClassType

/-- The name of the class. -/
def name : ClassType → String
  | mk name _ => name

/-- The arguments of the class. -/
def arguments : ClassType → List TypeArgument
  | mk _ arguments => arguments

/-- A class used without arguments. -/
def raw (name : String) : ClassType := mk name []

end ClassType

/-- The class that an argument names exactly, if it is used without arguments of its own. -/
def TypeArgument.concreteClass? : TypeArgument → Option String
  | .exact (.ofClass (.mk name [])) => some name
  | _ => none

/-- What a class declares to extend. -/
structure ClassSignature where
  parameters : List String
  superclass : ClassType
  interfaces : List ClassType
deriving Repr

namespace ClassSignature

/-! ## Reading -/

/-- The non-empty name at the head of `text` up to the first character among `stops`, which stays. -/
def readName? (stops : List Char) (text : List Char) : Option (String × List Char) :=
  let name := text.takeWhile (!stops.contains ·)
  let rest := text.drop name.length
  if name.isEmpty || rest.isEmpty then none else some (String.ofList name, rest)

/-- The letters of the primitive types. -/
def baseLetters : List Char := ['B', 'C', 'D', 'F', 'I', 'J', 'S', 'Z']

mutual

/-- A class type. Each reading step below spends one unit of a bound on the nesting and on the
length of the lists. -/
def readClass? : Nat → List Char → Option (ClassType × List Char)
  | bound + 1, 'L' :: rest => do
    let (name, rest) ← readName? ['<', '.', ';'] rest
    let (arguments, rest) ← readArguments? bound rest
    readNested? bound name arguments rest
  | _, _ => none

/-- The nested parts of the class `outer` up to the semicolon. -/
def readNested? : Nat → String → List TypeArgument → List Char → Option (ClassType × List Char)
  | _, outer, arguments, ';' :: rest => some (.mk outer arguments, rest)
  | bound + 1, outer, _, '.' :: rest => do
    let (name, rest) ← readName? ['<', '.', ';'] rest
    let (arguments, rest) ← readArguments? bound rest
    readNested? bound (outer ++ "$" ++ name) arguments rest
  | _, _, _, _ => none

/-- The arguments in angle brackets, none if there are no brackets. -/
def readArguments? : Nat → List Char → Option (List TypeArgument × List Char)
  | _, [] => none
  | bound + 1, '<' :: rest => readArgumentList? bound [] rest
  | 0, '<' :: _ => none
  | _, rest => some ([], rest)

/-- The arguments up to the closing bracket, after those in `acc` (last one first). -/
def readArgumentList? :
    Nat → List TypeArgument → List Char → Option (List TypeArgument × List Char)
  | _, acc, '>' :: rest => some (acc.reverse, rest)
  | bound + 1, acc, '*' :: rest => readArgumentList? bound (.wildcard :: acc) rest
  | bound + 1, acc, '+' :: rest => do
    let (type, rest) ← readReference? bound rest
    readArgumentList? bound (.upper type :: acc) rest
  | bound + 1, acc, '-' :: rest => do
    let (type, rest) ← readReference? bound rest
    readArgumentList? bound (.lower type :: acc) rest
  | bound + 1, acc, rest => do
    let (type, rest) ← readReference? bound rest
    readArgumentList? bound (.exact type :: acc) rest
  | 0, _, _ => none

/-- A class, a type variable or an array. -/
def readReference? : Nat → List Char → Option (TypeSignature × List Char)
  | bound + 1, 'L' :: rest => do
    let (type, rest) ← readClass? bound ('L' :: rest)
    return (.ofClass type, rest)
  | _ + 1, 'T' :: rest => do
    let (name, rest) ← readName? [';'] rest
    return (.variable name, rest.drop 1)
  | bound + 1, '[' :: rest =>
    match rest with
    | [] => none
    | letter :: after =>
      if baseLetters.contains letter then some (.array (.base letter), after)
      else do
        let (component, rest) ← readReference? bound rest
        return (.array component, rest)
  | _, _ => none

end

/-- A bound under which every type in `text` is read: no character is looked at by more than three
steps. -/
def boundFor (text : List Char) : Nat := 3 * text.length + 3

/-- The interface bounds of a type parameter, each after a colon. The first argument bounds the
reading of one type, the second the number of types. -/
def skipInterfaceBounds? (bound : Nat) : Nat → List Char → Option (List Char)
  | _, [] => none
  | n + 1, ':' :: rest =>
    match readReference? bound rest with
    | some (_, after) => skipInterfaceBounds? bound n after
    | none => none
  | _, rest => some rest

/-- The class bound of a type parameter, which may be left out. What follows a bound that is left
out is told from a bound by its first letter. -/
def skipClassBound? (bound : Nat) (text : List Char) : Option (List Char) :=
  match text with
  | [] => none
  | c :: _ =>
    if c = 'L' ∨ c = 'T' ∨ c = '[' then (readReference? bound text).map (·.2) else some text

/-- The names of the type parameters up to the closing bracket, after those in `acc` (last one
first). -/
def readParameters? (bound : Nat) (acc : List String) :
    Nat → List Char → Option (List String × List Char)
  | _, '>' :: rest => some (acc.reverse, rest)
  | 0, _ => none
  | n + 1, rest => do
    let (name, rest) ← readName? [':'] rest
    let rest ← skipClassBound? bound (rest.drop 1)
    let rest ← skipInterfaceBounds? bound n rest
    readParameters? bound (name :: acc) n rest

/-- The class types that make up a whole text, after those in `acc` (last one first). -/
def readClasses? (bound : Nat) (acc : List ClassType) : Nat → List Char → Option (List ClassType)
  | _, [] => some acc.reverse
  | 0, _ => none
  | n + 1, rest =>
    match readClass? bound rest with
    | some (type, after) => readClasses? bound (type :: acc) n after
    | none => none

/-- The signature in `text`, with a bound on the reading of one type that also bounds the number of
types. -/
def read? (bound : Nat) (text : List Char) : Option ClassSignature := do
  let (parameters, rest) ← match text with
    | '<' :: rest => readParameters? bound [] bound rest
    | rest => some ([], rest)
  let (superclass, rest) ← readClass? bound rest
  let interfaces ← readClasses? bound [] bound rest
  return { parameters, superclass, interfaces }

/-- The signature that a text writes. -/
def parse? (text : String) : Option ClassSignature :=
  read? (boundFor text.toList) text.toList

/-- The signature that a text writes. -/
def parse (text : String) : Except Error ClassSignature :=
  (parse? text).elim (.error (.invalidDescriptor text)) .ok

end ClassSignature

end ClassPatch
