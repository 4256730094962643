import Mathlib
import ClassPatch.Signature

/-!
# The grammar of class signatures

The texts that declare what a class extends, with what they declare: `Reference`, `Class` and the
relations beside them derive a text together with the type that it stands for, one constructor for
each production. A class is named by its package, its outer classes joined by `$` and its own name,
and has the arguments of its innermost part.
-/

namespace ClassPatch.ClassSignature

/-! ## Names -/

/-- The characters that stand for something in a signature and are in no name. -/
def reserved : List Char := ['.', ';', '[', '/', '<', '>', ':']

/-- The name of a class, of a package or of a type variable. -/
structure Identifier (name : List Char) : Prop where
  ne_nil : name ≠ []
  not_reserved : ∀ c ∈ name, c ∉ reserved

/-- A name of one letter. -/
theorem Identifier.singleton {c : Char} (hc : c ∉ reserved) : Identifier [c] :=
  ⟨List.cons_ne_nil _ _, fun _ hd => List.mem_singleton.mp hd ▸ hc⟩

/-- The packages in front of the name of a class, each with a slash behind it. -/
inductive Package : List Char → Prop
  | nil : Package []
  | cons {name rest : List Char} : Identifier name → Package rest → Package (name ++ '/' :: rest)

/-! ## Types -/

mutual

/-- The text of a reference type. -/
inductive Reference : List Char → TypeSignature → Prop
  | ofClass {text : List Char} {type : ClassType} : Class text type → Reference text (.ofClass type)
  | variable {name : List Char} : Identifier name →
      Reference ('T' :: (name ++ [';'])) (.variable (String.ofList name))
  | baseArray {letter : Char} : letter ∈ baseLetters →
      Reference ['[', letter] (.array (.base letter))
  | array {text : List Char} {component : TypeSignature} : Reference text component →
      Reference ('[' :: text) (.array component)

/-- The text of a class type, from the letter at its head to the semicolon. -/
inductive Class : List Char → ClassType → Prop
  | mk {package name arguments nested : List Char} {args : List TypeArgument} {type : ClassType} :
      Package package → Identifier name → Arguments arguments args →
      Nested (String.ofList (package ++ name)) args nested type →
      Class ('L' :: (package ++ name ++ arguments ++ nested)) type

/-- The text of the nested parts of a class, whose outer part has a name and arguments, up to the
semicolon. -/
inductive Nested : String → List TypeArgument → List Char → ClassType → Prop
  | stop {outer : String} {args : List TypeArgument} : Nested outer args [';'] (.mk outer args)
  | cons {outer : String} {outerArgs args : List TypeArgument}
      {name arguments nested : List Char} {type : ClassType} :
      Identifier name → Arguments arguments args →
      Nested (outer ++ "$" ++ String.ofList name) args nested type →
      Nested outer outerArgs ('.' :: (name ++ arguments ++ nested)) type

/-- The text of the arguments of a class, empty if it is used without any. -/
inductive Arguments : List Char → List TypeArgument → Prop
  | none : Arguments [] []
  | some {text : List Char} {args : List TypeArgument} : ArgumentList text args →
      Arguments ('<' :: (text ++ ['>'])) args

/-- The text of one or more arguments. -/
inductive ArgumentList : List Char → List TypeArgument → Prop
  | one {text : List Char} {arg : TypeArgument} : Argument text arg → ArgumentList text [arg]
  | cons {text rest : List Char} {arg : TypeArgument} {args : List TypeArgument} :
      Argument text arg → ArgumentList rest args → ArgumentList (text ++ rest) (arg :: args)

/-- The text of an argument. -/
inductive Argument : List Char → TypeArgument → Prop
  | wildcard : Argument ['*'] .wildcard
  | upper {text : List Char} {type : TypeSignature} : Reference text type →
      Argument ('+' :: text) (.upper type)
  | lower {text : List Char} {type : TypeSignature} : Reference text type →
      Argument ('-' :: text) (.lower type)
  | exact {text : List Char} {type : TypeSignature} : Reference text type →
      Argument text (.exact type)

end

/-! ## Declarations -/

/-- A type parameter by its name and the texts of its bounds. A class bound may be left out. -/
structure Parameter where
  name : List Char
  classBound : Option (List Char)
  interfaceBounds : List (List Char)

namespace Parameter

/-- The parameter has a name, and its bounds are reference types. -/
structure WellFormed (p : Parameter) : Prop where
  name : Identifier p.name
  classBound : ∀ text ∈ p.classBound, ∃ type, Reference text type
  interfaceBounds : ∀ text ∈ p.interfaceBounds, ∃ type, Reference text type

/-- The text of the bounds: the class bound, and each interface bound behind a colon of its own. -/
def bounds (p : Parameter) : List Char :=
  p.classBound.getD [] ++ p.interfaceBounds.flatMap (':' :: ·)

/-- The text of the parameter. -/
def text (p : Parameter) : List Char := p.name ++ ':' :: p.bounds

/-- The parameter has no bounds at all. -/
def Bare (p : Parameter) : Prop := p.classBound = none ∧ p.interfaceBounds = []

/-- The name starts with a letter that starts a type as well. -/
def LooksLikeType (p : Parameter) : Prop := ∃ c ∈ p.name.head?, c = 'L' ∨ c = 'T'

end Parameter

/-- The text of the type parameters, empty if there are none. -/
def parametersText (parameters : List Parameter) : List Char :=
  if parameters.isEmpty then [] else '<' :: (parameters.flatMap Parameter.text ++ ['>'])

/-- The text derives from the grammar with these type parameters, and declares the signature. -/
inductive Declares (parameters : List Parameter) : List Char → ClassSignature → Prop
  | mk {superText : List Char} {superclass : ClassType} {interfaceTexts : List (List Char)}
      {interfaces : List ClassType} :
      (∀ p ∈ parameters, p.WellFormed) → Class superText superclass →
      List.Forall₂ Class interfaceTexts interfaces →
      Declares parameters (parametersText parameters ++ superText ++ interfaceTexts.flatten)
        { parameters := parameters.map (String.ofList ·.name), superclass, interfaces }

end ClassPatch.ClassSignature
