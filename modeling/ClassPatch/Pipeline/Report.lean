import ClassPatch.Pipeline.Transformer

/-!
# Reports

The record of a run: an event for every entry that was handed to a transformer, in order. What a
report tells is read off its events, and is what counters kept event by event would tell.
-/

namespace ClassPatch

/-- An entry, the kind of the transformer that it was handed to, and the outcome. -/
structure Event where
  kind : TransformerKind
  entry : String
  outcome : Outcome
deriving Repr, DecidableEq

/-- The events of a run. -/
structure Report where
  events : List Event
deriving Repr, DecidableEq

namespace Event

/-- The name of the entry if it was rewritten. -/
def rewritten? (e : Event) : Option String :=
  match e.outcome with
  | .rewritten _ => some e.entry
  | _ => none

/-- The name of the entry if it was extracted. -/
def extracted? (e : Event) : Option String :=
  match e.outcome with
  | .extracted => some e.entry
  | _ => none

/-- The name of the entry and the error if the transformer failed. -/
def failed? (e : Event) : Option (String × Error) :=
  match e.outcome with
  | .failed error => some (e.entry, error)
  | _ => none

/-- Whether the transformer did something with the entry. -/
def isApplied (e : Event) : Bool := e.rewritten?.isSome || e.extracted?.isSome

end Event

namespace Report

/-- The report of no run. -/
def empty : Report := ⟨[]⟩

/-- The report of one run after another. -/
def append (a b : Report) : Report := ⟨a.events ++ b.events⟩

/-- The names of the rewritten entries. -/
def rewritten (r : Report) : List String := r.events.filterMap Event.rewritten?

/-- The names of the extracted entries. -/
def extracted (r : Report) : List String := r.events.filterMap Event.extracted?

/-- The names of the entries that a transformer failed on, with the errors. -/
def failed (r : Report) : List (String × Error) := r.events.filterMap Event.failed?

/-- How often an entry needed no change. -/
def unchanged (r : Report) : Nat := r.events.countP (·.outcome = .unchanged)

/-- How many entries the transformers of a kind rewrote or extracted. -/
def applied (r : Report) (kind : TransformerKind) : Nat :=
  r.events.countP fun e => e.kind = kind && e.isApplied

/-- How many entries each kind of transformer rewrote or extracted. -/
def summary (r : Report) : List (TransformerKind × Nat) :=
  TransformerKind.all.map fun kind => (kind, r.applied kind)

/-- Whether no entry was rewritten or extracted and no transformer failed. -/
def isUntouched (r : Report) : Bool :=
  r.rewritten.isEmpty && r.extracted.isEmpty && r.failed.isEmpty

end Report

end ClassPatch
