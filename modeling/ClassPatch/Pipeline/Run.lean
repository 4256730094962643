import ClassPatch.Pipeline.Feature
import ClassPatch.Pipeline.Report

/-!
# Running pipelines

A pipeline is a list of transformers, each of which is handed the entries that it selects, in order.
An entry that one transformer has rewritten is not handed to later ones.
-/

namespace ClassPatch

variable {σ : Type}

/-- A transformer, with the features that a pipeline must have to carry it. -/
structure Candidate where
  required : Features
  transformer : Transformer

/-- An ordered list of transformers. -/
structure Pipeline where
  transformers : List Transformer

/-- An entry on its way through a pipeline. -/
structure Slot where
  entry : Entry
  isRewritten : Bool

namespace Slot

/-- A slot with an entry that no transformer has seen. -/
def ofEntry (entry : Entry) : Slot := ⟨entry, false⟩

/-- The slot after a transformer gave the outcome. -/
def after (slot : Slot) : Outcome → Slot
  | .rewritten data => ⟨{ slot.entry with data }, true⟩
  | _ => slot

end Slot

namespace Transformer

/-- Hand an entry of a selected artifact to a transformer, if it selects the entry and no other one
has rewritten it. -/
def visit (t : Transformer) (sink : Sink σ) (slot : Slot) : StateM σ (Slot × Option Event) := do
  if slot.isRewritten || !t.selection.entries.holds slot.entry.name then return (slot, none)
  else
    let outcome ← t.apply sink slot.entry
    return (slot.after outcome, some ⟨t.kind, slot.entry.name, outcome⟩)

/-- Hand the entries of an artifact to a transformer. -/
def pass (t : Transformer) (sink : Sink σ) (path : String) (slots : List Slot) :
    StateM σ (List Slot × List Event) := do
  if t.selection.artifacts.holds path then
    let visited ← slots.mapM (t.visit sink)
    return (visited.map (·.1), visited.filterMap (·.2))
  else return (slots, [])

end Transformer

namespace Pipeline

/-- The pipeline of the candidates that a set of features asks for. -/
def ofCandidates (features : Features) (candidates : List Candidate) : Pipeline :=
  ⟨(candidates.filter fun c => features.contains c.required).map (·.transformer)⟩

/-- Hand the entries of an artifact to transformers in turn. -/
def passAll (sink : Sink σ) (path : String) :
    List Transformer → List Slot → StateM σ (List Slot × List Event)
  | [], slots => return (slots, [])
  | t :: rest, slots => do
    let (slots, events) ← t.pass sink path slots
    let (slots, later) ← passAll sink path rest slots
    return (slots, events ++ later)

/-- Run a pipeline over an artifact. -/
def run (p : Pipeline) (sink : Sink σ) (a : Artifact) : StateM σ (Artifact × Report) := do
  let (slots, events) ← passAll sink a.path p.transformers (a.entries.map .ofEntry)
  return ({ a with entries := slots.map (·.entry) }, ⟨events⟩)

end Pipeline

end ClassPatch
