import ClassPatch.Rewrite.Module
import ClassPatch.Rewrite.Redirect
import ClassPatch.Rewrite.ReplaceBody
import ClassPatch.Selection

/-!
# Transformers

What can be done to the selected entries of an artifact: giving methods constant bodies, redirecting
calls, or copying a resource out. Only the first two change entries.
-/

namespace ClassPatch

/-- The methods of a class that are to return a value: all of a name, or the one of a descriptor. -/
structure MethodPatch where
  className : String
  method : String
  descriptor : Option String
  value : ConstantValue
deriving Repr, DecidableEq

/-- A transformer of entries. -/
inductive Transformer where
  | constantReturn (name : String) (selection : Selection) (patches : List MethodPatch)
  | extract (resource : String) (artifacts : ArtifactPattern)
  | redirect (name : String) (selection : Selection) (dispatcher : Dispatcher)
      (targets : List MethodKey)

/-- What a transformer is of. -/
inductive TransformerKind where
  | constantReturn
  | extractResource
  | redirect
deriving Repr, DecidableEq

/-- All kinds of transformers, in the order in which they are reported. -/
def TransformerKind.all : List TransformerKind := [constantReturn, extractResource, redirect]

/-- The name of each kind of transformer. -/
def TransformerKind.name : TransformerKind → String
  | constantReturn => "ConstantReturn"
  | extractResource => "ExtractResource"
  | redirect => "Redirect"

/-- What came of handing an entry to a transformer. -/
inductive Outcome where
  | rewritten (data : List UInt8)
  | unchanged
  | extracted
  | failed (error : Error)
deriving Repr, DecidableEq

/-- Where extracted resources go. It may refuse one, and it has a state that tells what it took. -/
structure Sink (σ : Type) where
  accept : String → List UInt8 → EStateM Error σ Unit

namespace Sink

/-- The sink that takes every resource and lists them. -/
def collecting : Sink (List Entry) := ⟨fun name data => modify (· ++ [⟨name, data⟩])⟩

/-- The sink that refuses every resource. -/
def refusing {σ : Type} (error : String → Error) : Sink σ := ⟨fun name _ => throw (error name)⟩

end Sink

namespace MethodPatch

/-- Apply the patches of a class to it, in order. -/
def applyAll (patches : List MethodPatch) : ClassEdit Unit := do
  let name ← ClassEdit.check (·.name)
  (patches.filter (·.className = name)).forM fun patch => do
    let _ ← ClassFile.replaceMethods patch.method patch.descriptor patch.value

end MethodPatch

namespace Transformer

/-- The kind of a transformer. -/
def kind : Transformer → TransformerKind
  | constantReturn _ _ _ => .constantReturn
  | extract _ _ => .extractResource
  | redirect _ _ _ _ => .redirect

/-- The name of a transformer in listings. -/
def name : Transformer → String
  | constantReturn name _ _ | redirect name _ _ _ => name
  | extract resource _ => "extract " ++ resource

/-- The entries that a transformer is for. -/
def selection : Transformer → Selection
  | constantReturn _ selection _ | redirect _ selection _ _ => selection
  | extract resource artifacts => ⟨artifacts, .exact resource⟩

/-- Redirect the calls in a class. The class of the dispatcher keeps its calls, which must reach the
methods themselves. -/
def redirectCalls (dispatcher : Dispatcher) (targets : List MethodKey) : ClassEdit Unit := do
  let name ← ClassEdit.check (·.name)
  if name ≠ dispatcher.owner then
    let _ ← ClassFile.injectRedirects targets dispatcher

/-- The outcome of a rewrite. -/
def ofRewrite : RewriteOutcome → Outcome
  | .rewritten data => .rewritten data
  | .unchanged => .unchanged
  | .failed e => .failed e

/-- Hand an entry to a transformer. Without targets there is nothing to look for in the entry. -/
def apply {σ : Type} (sink : Sink σ) (entry : Entry) : Transformer → StateM σ Outcome
  | constantReturn _ _ patches =>
    return ofRewrite (rewriteStored entry.data (MethodPatch.applyAll patches))
  | redirect _ _ dispatcher targets =>
    if targets.isEmpty then return .unchanged
    else return ofRewrite (rewriteStored entry.data (redirectCalls dispatcher targets))
  | extract _ _ => fun s =>
    match sink.accept entry.name entry.data s with
    | .ok () s => (.extracted, s)
    | .error e s => (.failed e, s)

end Transformer

end ClassPatch
