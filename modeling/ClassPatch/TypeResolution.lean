import Std.Data.HashMap
import ClassPatch.ClassFile.Format

/-!
# Type resolution

Which class a generic base class is instantiated with by a subclass. The superclasses of a class are
followed until one of them is the base with a concrete first argument. Answers are remembered.
-/

namespace ClassPatch

open Std (HashMap)

/-- The superclasses of classes, with the arguments that they are used with. -/
structure Hierarchy where
  supers : HashMap String ClassType

namespace Hierarchy

/-- The hierarchy without classes. -/
def empty : Hierarchy := ⟨∅⟩

/-- The superclass of a class. -/
def super? (h : Hierarchy) (name : String) : Option ClassType := h.supers[name]?

/-- The number of classes with a known superclass. -/
def size (h : Hierarchy) : Nat := h.supers.size

/-- Give a class a superclass. -/
def insert (h : Hierarchy) (name : String) (superclass : ClassType) : Hierarchy :=
  ⟨h.supers.insert name superclass⟩

/-- Make a class extend a base with one exact argument. -/
def bind (h : Hierarchy) (name base argument : String) : Hierarchy :=
  h.insert name (.mk base [.exact (.ofClass (.raw argument))])

/-- Make a class extend another one without arguments. -/
def extend (h : Hierarchy) (name superclass : String) : Hierarchy :=
  h.insert name (.raw superclass)

/-- The superclass that a class declares, without arguments if its signature is missing or
damaged. -/
def declaredSuper (c : ClassFile) (raw : String) : ClassType :=
  match c.signature with
  | .ok (some signature) => signature.superclass
  | _ => .raw raw

/-- Add the superclass of a class, if it has one. -/
def add (h : Hierarchy) (c : ClassFile) : Except Error Hierarchy := do
  let name ← c.name
  match ← c.superName with
  | none => return h
  | some raw => return h.insert name (declaredSuper c raw)

/-- Add the superclass of a stored class; a damaged class adds nothing. -/
def addStored (h : Hierarchy) (data : List UInt8) : Hierarchy :=
  match ClassFile.parse data >>= h.add with
  | .ok added => added
  | .error _ => h

/-- The hierarchy of stored classes. -/
def ofStored (modules : List (List UInt8)) : Hierarchy := modules.foldl addStored empty

/-- The class that all classes extend. -/
def root : String := "java/lang/Object"

/-- The class that a superclass gives the base as its argument. -/
def argument? (base : String) (superclass : ClassType) : Option String :=
  if superclass.name = base then superclass.arguments.head?.bind (·.concreteClass?) else none

/-- The argument of the base among at most `depth` superclasses of a class. -/
def walk (h : Hierarchy) (base : String) : Nat → String → Option String
  | 0, _ => none
  | depth + 1, name =>
    match h.super? name with
    | none => none
    | some superclass =>
      match argument? base superclass with
      | some found => some found
      | none => if superclass.name = root then none else h.walk base depth superclass.name

end Hierarchy

/-- A base class whose argument is asked for, and the answers so far. An answer is none if the
argument could not be resolved. -/
structure Resolver where
  base : String
  hierarchy : Hierarchy
  maxDepth : Nat
  answers : HashMap String (Option String)

namespace Resolver

/-- A resolver without answers, which follows at most 64 superclasses. -/
def create (base : String) (hierarchy : Hierarchy) : Resolver := ⟨base, hierarchy, 64, ∅⟩

/-- The number of answers. -/
def size (r : Resolver) : Nat := r.answers.size

/-- The argument of the base for a subclass. -/
def resolve (r : Resolver) (name : String) : Option String × Resolver :=
  match r.answers[name]? with
  | some answer => (answer, r)
  | none =>
    let answer := r.hierarchy.walk r.base r.maxDepth name
    (answer, { r with answers := r.answers.insert name answer })

end Resolver

end ClassPatch
