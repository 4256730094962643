import Mathlib
import ClassPatch.Pipeline.Run

/-!
# Runs of pipelines, entry by entry

A run goes through the transformers, and for each of them through the entries. Seen from one entry
it is a search for the first transformer that rewrites it: this one decides on the bytes of the
entry, and later ones do not get it. So the outer loop can be exchanged for the inner one: what
becomes of an entry depends on nothing but the transformers and the entry, and a run is the handing
over of the pairs that are left, each with the bytes that the entry had at first.

The counters of a report are kept event by event. What one event does to them is a step, and the sum
of what the kinds of transformers were applied to is an invariant of it.
-/

namespace ClassPatch

variable {σ : Type}

/-- The new bytes of an entry that was rewritten. -/
def Outcome.newData? : Outcome → Option (List UInt8)
  | .rewritten data => some data
  | _ => none

theorem Slot.after_eq (slot : Slot) (outcome : Outcome) :
    slot.after outcome = match outcome.newData? with
      | some data => ⟨{ slot.entry with data }, true⟩
      | none => slot := by
  cases outcome <;> rfl

/-! ## Which pairs are handed over -/

namespace Transformer

/-- What a transformer rewrites an entry of an artifact to, if it selects the entry and rewrites
it. -/
def rewrite? (sink : Sink σ) (s : σ) (path : String) (entry : Entry) (t : Transformer) :
    Option (List UInt8) :=
  if t.selection.holds path entry.name then (t.apply sink entry s).1.newData? else none

/-- The new bytes of an entry do not depend on what the sink has taken. -/
theorem newData?_apply (t : Transformer) (sink : Sink σ) (entry : Entry) (s s' : σ) :
    (t.apply sink entry s).1.newData? = (t.apply sink entry s').1.newData? := by
  cases t with
  | constantReturn name selection patches => rfl
  | redirect name selection dispatcher targets =>
    show Outcome.newData? ((if targets.isEmpty then _ else _ : StateM σ Outcome) s).1 =
      Outcome.newData? ((if targets.isEmpty then _ else _ : StateM σ Outcome) s').1
    by_cases hempty : targets.isEmpty
    · simp only [if_pos hempty]
      rfl
    · simp only [if_neg hempty]
      rfl
  | extract resource artifacts =>
    -- a resource is taken or refused, and the entry stays as it is in both cases
    have hnone (s : σ) : ((extract resource artifacts).apply sink entry s).1.newData? = none := by
      unfold apply
      dsimp only
      cases sink.accept entry.name entry.data s <;> rfl
    rw [hnone, hnone]

/-- Whether an entry of an artifact comes to a transformer: it is selected, and none of the
transformers before rewrites it. -/
def isHanded (sink : Sink σ) (s : σ) (path : String) (before : List Transformer)
    (t : Transformer) (entry : Entry) : Bool :=
  t.selection.holds path entry.name && (before.findSome? (rewrite? sink s path entry)).isNone

/-- Hand an entry to a transformer, and note what came of it. -/
def hand (t : Transformer) (sink : Sink σ) (entry : Entry) : StateM σ Event := do
  return ⟨t.kind, entry.name, ← t.apply sink entry⟩

end Transformer

open Transformer

/-- The entries that come to each of the transformers, which have others before them. -/
def Pipeline.handedAfter (sink : Sink σ) (s : σ) (path : String) (entries : List Entry) :
    List Transformer → List Transformer → List (Transformer × Entry)
  | _, [] => []
  | before, t :: rest =>
    (entries.filter (t.isHanded sink s path before)).map (t, ·) ++
      handedAfter sink s path entries (before ++ [t]) rest

/-- The pairs of a transformer and an entry that is handed to it, for each transformer in turn: the
entries that it selects and none before it rewrites. -/
def Pipeline.handed (p : Pipeline) (sink : Sink σ) (s : σ) (a : Artifact) :
    List (Transformer × Entry) :=
  handedAfter sink s a.path a.entries [] p.transformers

/-! ## One transformer -/

/-- The slot of an entry when transformers have had their turn. -/
def Slot.settled (sink : Sink σ) (s : σ) (path : String) (before : List Transformer)
    (entry : Entry) : Slot :=
  match before.findSome? (rewrite? sink s path entry) with
  | some data => ⟨{ entry with data }, true⟩
  | none => .ofEntry entry

section

variable (sink : Sink σ) (asked : σ) (path : String) (before : List Transformer) (t : Transformer)
  (entry : Entry)

theorem Slot.settled_snoc :
    Slot.settled sink asked path (before ++ [t]) entry =
      if t.isHanded sink asked path before entry
      then (Slot.ofEntry entry).after (t.apply sink entry asked).1
      else Slot.settled sink asked path before entry := by
  unfold Slot.settled isHanded
  rw [List.findSome?_append]
  cases hbefore : before.findSome? (rewrite? sink asked path entry) with
  | some data => simp
  | none =>
    by_cases hselected : t.selection.holds path entry.name
    · simp [rewrite?, hselected, Slot.after_eq, Slot.ofEntry]
    · simp [rewrite?, hselected]

/-- In a selected artifact, a transformer is handed the entries that come to it. -/
theorem Transformer.visit_settled (hartifact : t.selection.artifacts.holds path) :
    t.visit sink (Slot.settled sink asked path before entry) =
      if t.isHanded sink asked path before entry then do
        let event ← t.hand sink entry
        return (Slot.settled sink asked path (before ++ [t]) entry, some event)
      else return (Slot.settled sink asked path (before ++ [t]) entry, none) := by
  rw [Slot.settled_snoc]
  cases hbefore : before.findSome? (rewrite? sink asked path entry) with
  | some data => simp [visit, Slot.settled, isHanded, hbefore]
  | none =>
    by_cases hentry : t.selection.entries.holds entry.name
    · -- only here the entry is handed over, and the sink may be in any state then
      have hhanded : t.isHanded sink asked path before entry := by
        simp [isHanded, Selection.holds, hartifact, hentry, hbefore]
      have hslot : Slot.settled sink asked path before entry = .ofEntry entry := by
        simp [Slot.settled, hbefore]
      simp only [if_pos hhanded]
      rw [hslot, visit, if_neg (by simp [Slot.ofEntry, hentry])]
      funext s
      have hafter : (Slot.ofEntry entry).after (t.apply sink entry s).1 =
          (Slot.ofEntry entry).after (t.apply sink entry asked).1 := by
        rw [Slot.after_eq, Slot.after_eq, t.newData?_apply sink entry s asked]
      let event : Event := ⟨t.kind, entry.name, (t.apply sink entry s).1⟩
      exact congrArg (fun slot => ((slot, some event), (t.apply sink entry s).2)) hafter
    · simp [visit, Slot.settled, isHanded, hbefore, Selection.holds, hentry, Slot.ofEntry]

/-- The slots and the events of visits. -/
def collect (visited : List (Slot × Option Event)) : List Slot × List Event :=
  (visited.map (·.1), visited.filterMap (·.2))

theorem collect_mapM_cons (visit : Slot → StateM σ (Slot × Option Event)) (slot : Slot)
    (slots : List Slot) :
    collect <$> (slot :: slots).mapM visit = do
      let visited ← visit slot
      let rest ← collect <$> slots.mapM visit
      return (visited.1 :: rest.1, visited.2.toList ++ rest.2) := by
  have hcons (visited : Slot × Option Event) (rest : List (Slot × Option Event)) :
      collect (visited :: rest) =
        (visited.1 :: (collect rest).1, visited.2.toList ++ (collect rest).2) := by
    obtain ⟨slot, event?⟩ := visited
    cases event? <;> simp [collect]
  simp [List.mapM_cons, hcons]

/-- A transformer is handed the entries that come to it, in order. -/
theorem Transformer.pass_settled (entries : List Entry) :
    t.pass sink path (entries.map (Slot.settled sink asked path before)) = do
      let events ← (entries.filter (t.isHanded sink asked path before)).mapM (t.hand sink)
      return (entries.map (Slot.settled sink asked path (before ++ [t])), events) := by
  by_cases hartifact : t.selection.artifacts.holds path
  · have hpass (slots : List Slot) :
        t.pass sink path slots = collect <$> slots.mapM (t.visit sink) := by
      rw [pass, if_pos hartifact, bind_pure_comp]
      rfl
    rw [hpass]
    induction entries with
    | nil => simp [collect]
    | cons entry entries ih =>
      rw [List.map_cons, collect_mapM_cons, ih, visit_settled _ _ _ _ _ _ hartifact]
      by_cases hhanded : t.isHanded sink asked path before entry
      · simp [hhanded, List.mapM_cons]
      · simp [hhanded]
  · have hnot : t.isHanded sink asked path before = fun _ => false := by
      funext entry
      simp [isHanded, Selection.holds, hartifact]
    have hsame : Slot.settled sink asked path (before ++ [t]) =
        Slot.settled sink asked path before := by
      funext entry
      simp [Slot.settled_snoc, hnot]
    simp [pass, hartifact, hnot, hsame]

/-- Transformers are handed the entries that come to them, one after the other. -/
theorem Pipeline.passAll_settled (entries : List Entry) (transformers : List Transformer) :
    passAll sink path transformers (entries.map (Slot.settled sink asked path before)) = do
      let events ← (handedAfter sink asked path entries before transformers).mapM fun pair =>
        pair.1.hand sink pair.2
      return (entries.map (Slot.settled sink asked path (before ++ transformers)), events) := by
  induction transformers generalizing before with
  | nil => simp [passAll, handedAfter]
  | cons t rest ih =>
    rw [passAll, Transformer.pass_settled]
    simp [ih, handedAfter, List.mapM_append, List.mapM_map, Function.comp_def]

end

/-! ## What a report counts -/

/-- The counters of a report as they stand between two events. -/
structure Counters where
  rewritten : List String
  extracted : List String
  failed : List (String × Error)
  unchanged : Nat
  applied : TransformerKind → Nat

namespace Counters

/-- The counters before the first event. -/
def zero : Counters := ⟨[], [], [], 0, fun _ => 0⟩

/-- Count an event under its outcome. -/
def count (c : Counters) (e : Event) : Counters :=
  let applied := Function.update c.applied e.kind (c.applied e.kind + 1)
  match e.outcome with
  | .rewritten _ => { c with rewritten := c.rewritten ++ [e.entry], applied }
  | .extracted => { c with extracted := c.extracted ++ [e.entry], applied }
  | .failed error => { c with failed := c.failed ++ [(e.entry, error)] }
  | .unchanged => { c with unchanged := c.unchanged + 1 }

/-- How many events were counted. -/
def total (c : Counters) : Nat :=
  c.rewritten.length + c.extracted.length + c.failed.length + c.unchanged

/-- The kinds of transformers together were applied to what was rewritten or extracted. -/
def Balanced (c : Counters) : Prop :=
  (TransformerKind.all.map c.applied).sum = c.rewritten.length + c.extracted.length

variable {c : Counters}

/-- Every event is counted under exactly one of the four outcomes. -/
theorem total_count (c : Counters) (e : Event) : (c.count e).total = c.total + 1 := by
  obtain ⟨kind, entry, outcome⟩ := e
  cases outcome <;> simp only [count, total, List.length_append, List.length_singleton] <;> omega

theorem Balanced.count (h : c.Balanced) (e : Event) : (c.count e).Balanced := by
  obtain ⟨kind, entry, outcome⟩ := e
  -- one kind was applied once more
  have hsum : (TransformerKind.all.map
      (Function.update c.applied kind (c.applied kind + 1))).sum =
        (TransformerKind.all.map c.applied).sum + 1 := by
    cases kind <;> simp [TransformerKind.all] <;> omega
  unfold Balanced at h
  cases outcome with
  | rewritten data | extracted =>
    simp only [Balanced, Counters.count, hsum, h, List.length_append, List.length_singleton]
    omega
  | unchanged | failed => exact h

theorem total_foldl (c : Counters) (events : List Event) :
    (events.foldl Counters.count c).total = c.total + events.length := by
  induction events generalizing c with
  | nil => rfl
  | cons event events ih =>
    rw [List.foldl_cons, ih, total_count, List.length_cons]
    omega

theorem Balanced.foldl (h : c.Balanced) (events : List Event) :
    (events.foldl Counters.count c).Balanced := by
  induction events generalizing c with
  | nil => exact h
  | cons event events ih => exact ih (h.count event)

theorem balanced_zero : zero.Balanced := rfl

end Counters

namespace Report

/-- What is read off a report is what was counted event by event. -/
theorem foldl_count (r : Report) :
    r.events.foldl Counters.count .zero =
      ⟨r.rewritten, r.extracted, r.failed, r.unchanged, r.applied⟩ := by
  obtain ⟨events⟩ := r
  induction events using List.reverseRecOn with
  | nil => rfl
  | append_singleton events event ih =>
    rw [List.foldl_append, ih]
    obtain ⟨kind, entry, outcome⟩ := event
    have happlied : (applied ⟨events ++ [⟨kind, entry, outcome⟩]⟩) = fun k =>
        applied ⟨events⟩ k + if kind = k ∧ Event.isApplied ⟨kind, entry, outcome⟩ then 1 else 0 := by
      funext k
      simp [applied, List.countP_append, List.countP_cons]
    have hupdate (f : TransformerKind → Nat) :
        Function.update f kind (f kind + 1) = fun k => f k + if kind = k then 1 else 0 := by
      funext k
      by_cases hkind : kind = k
      · subst hkind
        simp
      · rw [Function.update_of_ne (Ne.symm hkind), if_neg hkind, Nat.add_zero]
    rw [happlied]
    cases outcome <;> simp [Counters.count, rewritten, extracted, failed, unchanged,
      Event.rewritten?, Event.extracted?, Event.failed?, Event.isApplied, List.filterMap_append,
      List.countP_append, hupdate]

theorem length_events (r : Report) :
    r.events.length =
      r.rewritten.length + r.extracted.length + r.failed.length + r.unchanged := by
  have htotal := Counters.total_foldl .zero r.events
  rw [r.foldl_count] at htotal
  simpa [Counters.total, Counters.zero] using htotal.symm

theorem sum_summary (r : Report) :
    (r.summary.map (·.2)).sum = r.rewritten.length + r.extracted.length := by
  have hbalanced := Counters.balanced_zero.foldl r.events
  rw [r.foldl_count] at hbalanced
  rw [summary, List.map_map]
  exact hbalanced

end Report

/-! ## The run -/

namespace Pipeline

variable (p : Pipeline) (sink : Sink σ) (asked : σ) (a : Artifact)

/-- A run hands over the pairs in order, with the entries as they were at first. -/
theorem run_eq_hand :
    p.run sink a = do
      let events ← (p.handed sink asked a).mapM fun pair => pair.1.hand sink pair.2
      return ({ a with entries := a.entries.map fun entry => { entry with
        data := (p.transformers.findSome? (rewrite? sink asked a.path entry)).getD entry.data } },
        ⟨events⟩) := by
  have hfirst : Slot.ofEntry = Slot.settled sink asked a.path [] := rfl
  have hlast (entry : Entry) : (Slot.settled sink asked a.path p.transformers entry).entry =
      { entry with
        data := (p.transformers.findSome? (rewrite? sink asked a.path entry)).getD entry.data } := by
    unfold Slot.settled
    cases p.transformers.findSome? (rewrite? sink asked a.path entry) <;> rfl
  rw [run, hfirst, passAll_settled]
  simp [handed, Function.comp_def, hlast]

theorem events_run (s : σ) : (p.run sink a s).1.2.events =
    ((p.handed sink asked a).mapM (fun pair => pair.1.hand sink pair.2) s).1 := by
  rw [p.run_eq_hand sink asked a]
  rfl

/-- Every pair that is handed over gives one event. -/
theorem map_mapM_hand (pairs : List (Transformer × Entry)) (s : σ) :
    (pairs.mapM (fun pair => pair.1.hand sink pair.2) s).1.map (fun event => (event.kind, event.entry)) =
      pairs.map fun pair => (pair.1.kind, pair.2.name) := by
  induction pairs generalizing s with
  | nil => rfl
  | cons pair pairs ih =>
    rw [List.mapM_cons]
    exact congrArg (_ :: ·) (ih _)

/-- A run keeps the path and the entries with their names. The bytes of an entry are those of the
first transformer that selects it and rewrites it as it was at first, whatever state the sink is
asked in, and otherwise they stay. The report has one event for every entry that is handed to a
transformer, which is each that it selects and none before it rewrites, with the outcome for the
entry as it was at first. Every event is counted once, and the kinds of transformers together were
applied to what was rewritten or extracted. -/
theorem run_entrywise (s : σ) :
    (p.run sink a s).1.1.path = a.path ∧
    (p.run sink a s).1.1.entries = (a.entries.map fun entry => { entry with
      data := (p.transformers.findSome? (rewrite? sink asked a.path entry)).getD entry.data }) ∧
    ((p.run sink a s).1.2.events, (p.run sink a s).2) =
      (p.handed sink asked a).mapM (fun pair => pair.1.hand sink pair.2) s ∧
    (p.run sink a s).1.2.events.map (fun event => (event.kind, event.entry)) =
      (p.handed sink asked a).map (fun pair => (pair.1.kind, pair.2.name)) ∧
    (p.run sink a s).1.2.rewritten.length + (p.run sink a s).1.2.extracted.length +
      (p.run sink a s).1.2.failed.length + (p.run sink a s).1.2.unchanged =
      (p.handed sink asked a).length ∧
    ((p.run sink a s).1.2.summary.map (·.2)).sum =
      (p.run sink a s).1.2.rewritten.length + (p.run sink a s).1.2.extracted.length := by
  have hrun := congrFun (p.run_eq_hand sink asked a) s
  have hevents := p.events_run sink asked a s
  have hpairs := map_mapM_hand sink (p.handed sink asked a) s
  rw [← hevents] at hpairs
  refine ⟨by rw [hrun]; rfl, by rw [hrun]; rfl, Prod.ext hevents (by rw [hrun]; rfl), hpairs, ?_,
    Report.sum_summary _⟩
  have hlength := congrArg List.length hpairs
  rw [List.length_map, List.length_map] at hlength
  rw [← Report.length_events, hlength]

/-- At every point of a run the counters are balanced, and each pair that was handed over so far is
counted once. -/
theorem run_counters (s : σ) (n : Nat) :
    let counters := ((p.run sink a s).1.2.events.take n).foldl Counters.count .zero
    counters.Balanced ∧ counters.total = min n (p.handed sink asked a).length := by
  intro counters
  refine ⟨Counters.balanced_zero.foldl _, ?_⟩
  have hlength := congrArg List.length (map_mapM_hand sink (p.handed sink asked a) s)
  rw [← p.events_run, List.length_map, List.length_map] at hlength
  rw [Counters.total_foldl, List.length_take, hlength]
  exact Nat.zero_add _

/-- An event tells of a rewritten entry if the transformer has new bytes for it. -/
theorem filterMap_mapM_hand (pairs : List (Transformer × Entry)) (s : σ) :
    (pairs.mapM (fun pair => pair.1.hand sink pair.2) s).1.filterMap Event.rewritten? =
      (pairs.filter fun pair => (pair.1.apply sink pair.2 asked).1.newData?.isSome).map
        (·.2.name) := by
  induction pairs generalizing s with
  | nil => rfl
  | cons pair pairs ih =>
    have hevent : Event.rewritten? (pair.1.hand sink pair.2 s).1 =
        if (pair.1.apply sink pair.2 asked).1.newData?.isSome then some pair.2.name else none := by
      rw [← pair.1.newData?_apply sink pair.2 s asked]
      show Event.rewritten? ⟨pair.1.kind, pair.2.name, (pair.1.apply sink pair.2 s).1⟩ = _
      cases (pair.1.apply sink pair.2 s).1 <;> rfl
    rw [List.mapM_cons]
    show ((pair.1.hand sink pair.2 s).1 :: (pairs.mapM (fun pair => pair.1.hand sink pair.2)
      (pair.1.hand sink pair.2 s).2).1).filterMap Event.rewritten? = _
    rw [List.filterMap_cons, hevent, ih, List.filter_cons]
    split_ifs <;> rfl

/-- Of the pairs that are handed over, those that rewrite have each rewritten entry once. -/
theorem rewriting_handedAfter (path : String) (entries : List Entry) (before : List Transformer)
    (transformers : List Transformer) :
    (((handedAfter sink asked path entries before transformers).filter fun pair =>
        (pair.1.apply sink pair.2 asked).1.newData?.isSome).map (·.2)).Perm
      (entries.filter fun entry => (before.findSome? (rewrite? sink asked path entry)).isNone &&
        (transformers.findSome? (rewrite? sink asked path entry)).isSome) := by
  induction transformers generalizing before with
  | nil => simp [handedAfter]
  | cons t rest ih =>
    -- the entries that are left for these transformers are divided by whether the first one takes them
    let candidates := entries.filter fun entry =>
      (before.findSome? (rewrite? sink asked path entry)).isNone &&
        ((t :: rest).findSome? (rewrite? sink asked path entry)).isSome
    let rewrites (entry : Entry) : Bool := (rewrite? sink asked path entry t).isSome
    have hfirst : ((((entries.filter (t.isHanded sink asked path before)).map (t, ·)).filter
        fun pair => (pair.1.apply sink pair.2 asked).1.newData?.isSome).map (·.2)) =
          candidates.filter rewrites := by
      rw [List.filter_map, List.map_map, List.filter_filter, List.filter_filter]
      refine (List.map_id' _).trans (List.filter_congr fun entry _ => ?_)
      by_cases hselected : t.selection.holds path entry.name <;>
        cases hnew : (t.apply sink entry asked).1.newData? <;>
          simp [rewrites, rewrite?, isHanded, hselected, hnew]
    have hrest : (entries.filter fun entry =>
        ((before ++ [t]).findSome? (rewrite? sink asked path entry)).isNone &&
          (rest.findSome? (rewrite? sink asked path entry)).isSome) =
        candidates.filter (! rewrites ·) := by
      rw [List.filter_filter]
      refine List.filter_congr fun entry _ => ?_
      cases hnew : rewrite? sink asked path entry t <;>
        simp [rewrites, hnew, List.findSome?_append, Bool.and_comm]
    rw [handedAfter, List.filter_append, List.map_append, hfirst]
    exact ((hrest ▸ ih (before ++ [t])).append_left _).trans (List.filter_append_perm rewrites _)

/-- The report names every entry that a transformer rewrites once, and no other one. -/
theorem run_rewritten (s : σ) :
    (p.run sink a s).1.2.rewritten.Perm
      ((a.entries.filter fun entry =>
        (p.transformers.findSome? (rewrite? sink asked a.path entry)).isSome).map (·.name)) := by
  have hperm := rewriting_handedAfter sink asked a.path a.entries [] p.transformers
  rw [Report.rewritten, p.events_run sink asked, filterMap_mapM_hand sink asked, handed]
  simpa [List.map_map, Function.comp_def] using hperm.map Entry.name

end Pipeline

end ClassPatch
