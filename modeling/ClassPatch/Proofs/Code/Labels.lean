import Mathlib
import ClassPatch.Code.Disassembly
import ClassPatch.Proofs.Code.Targets
import ClassPatch.Proofs.Success

/-!
# Labels of offsets

Handing out labels only adds bindings, and keeps different offsets apart. A computation
that hands out labels is described by what holds of its result in its final map and in
every later one, `Labelling.Gives`, so that facts about its parts survive the parts
after them.
-/

namespace ClassPatch.Code

namespace LabelMap

/-- Labels are in use below the next one only, and no two offsets share one. -/
structure Distinct (m : LabelMap) : Prop where
  id_lt : ∀ (offset : Nat) (label : Label), m.get? offset = some label → label.id < m.next
  injective : ∀ (offset offset' : Nat) (label : Label),
    m.get? offset = some label → m.get? offset' = some label → offset = offset'

/-- A later map: no binding is lost, and different offsets stay apart. -/
structure Grows (m m' : LabelMap) : Prop where
  get? : ∀ (offset : Nat) (label : Label), m.get? offset = some label → m'.get? offset = some label
  distinct : m.Distinct → m'.Distinct

theorem Grows.refl (m : LabelMap) : m.Grows m := ⟨fun _ _ h => h, id⟩

theorem Grows.trans {m₁ m₂ m₃ : LabelMap} (h : m₁.Grows m₂) (h' : m₂.Grows m₃) : m₁.Grows m₃ :=
  ⟨fun offset label hget => h'.get? offset label (h.get? offset label hget),
    fun hdistinct => h'.distinct (h.distinct hdistinct)⟩

theorem distinct_empty : empty.Distinct := by
  constructor <;> simp [empty, LabelMap.get?]

theorem Distinct.fresh {m : LabelMap} (h : m.Distinct) : m.fresh.2.Distinct :=
  ⟨fun offset label hget => Nat.lt_succ_of_lt (h.id_lt offset label hget), h.injective⟩

theorem labelAt_spec (m : LabelMap) (offset : Nat) :
    m.Grows (m.labelAt offset).2 ∧ (m.labelAt offset).2.get? offset = some (m.labelAt offset).1 := by
  unfold labelAt
  cases hget : m.get? offset with
  | some label => exact ⟨.refl m, hget⟩
  | none =>
    dsimp only
    have hinsert (other : Nat) :
        LabelMap.get? ⟨m.byOffset.insert offset ⟨m.next⟩, m.next + 1⟩ other =
          if offset = other then some ⟨m.next⟩ else m.get? other := by
      simp [LabelMap.get?, Std.TreeMap.getElem?_insert]
    refine ⟨⟨?_, ?_⟩, by rw [hinsert, if_pos rfl]⟩
    · intro other label hother
      rw [hinsert, if_neg, hother]
      rintro rfl
      rw [hget] at hother
      contradiction
    · intro hdistinct
      constructor
      · intro other label hother
        rw [hinsert] at hother
        show label.id < m.next + 1
        split at hother
        · obtain rfl := Option.some.inj hother
          exact Nat.lt_succ_self m.next
        · exact Nat.lt_succ_of_lt (hdistinct.id_lt other label hother)
      · intro first second label hfirst hsecond
        rw [hinsert] at hfirst hsecond
        -- the label of a fresh binding is not in use
        split at hfirst <;> split at hsecond
        · omega
        · obtain rfl := Option.some.inj hfirst
          exact absurd (hdistinct.id_lt second _ hsecond) (Nat.lt_irrefl _)
        · obtain rfl := Option.some.inj hsecond
          exact absurd (hdistinct.id_lt first _ hfirst) (Nat.lt_irrefl _)
        · exact hdistinct.injective first second label hfirst hsecond

end LabelMap

namespace Labelling

variable {α β : Type}

/-- The computation only adds labels, and its result has a property in all later maps. -/
def Gives (x : Labelling α) (P : LabelMap → α → Prop) : Prop :=
  ∀ m, m.Grows (x m).2 ∧ ∀ m', (x m).2.Grows m' → P m' (x m).1

theorem Gives.mono {x : Labelling α} {P Q : LabelMap → α → Prop} (hx : x.Gives P)
    (h : ∀ m a, P m a → Q m a) : x.Gives Q :=
  fun m => ⟨(hx m).1, fun m' hgrows => h m' _ ((hx m).2 m' hgrows)⟩

theorem Gives.pure {a : α} {P : LabelMap → α → Prop} (h : ∀ m, P m a) :
    (Pure.pure a : Labelling α).Gives P :=
  fun m => ⟨.refl m, fun m' _ => h m'⟩

theorem Gives.bind {x : Labelling α} {f : α → Labelling β} {P : LabelMap → α → Prop}
    {Q : α → LabelMap → β → Prop} (hx : x.Gives P) (hf : ∀ a, (f a).Gives (Q a)) :
    (x >>= f).Gives fun m b => ∃ a, P m a ∧ Q a m b := by
  intro m
  obtain ⟨hgrows, hP⟩ := hx m
  obtain ⟨hgrows', hQ⟩ := hf (x m).1 (x m).2
  refine ⟨hgrows.trans hgrows', fun m' hlater => ⟨(x m).1, ?_, hQ m' hlater⟩⟩
  exact hP m' (hgrows'.trans hlater)

theorem gives_label (offset : Nat) :
    (label offset).Gives fun m label => m.get? offset = some label := by
  intro m
  obtain ⟨hgrows, hget⟩ := m.labelAt_spec offset
  exact ⟨hgrows, fun m' hlater => hlater.get? offset _ hget⟩

theorem gives_mapM {f : α → Labelling β} {R : α → LabelMap → β → Prop}
    (hf : ∀ a, (f a).Gives (R a)) (as : List α) :
    (as.mapM f).Gives fun m bs => List.Forall₂ (fun a b => R a m b) as bs := by
  induction as with
  | nil =>
    rw [List.mapM_nil]
    exact .pure fun _ => .nil
  | cons a as ih =>
    rw [List.mapM_cons]
    refine ((hf a).bind fun b => ih.bind fun bs =>
      .pure (P := fun _ new => new = b :: bs) fun _ => rfl).mono fun m new h => ?_
    obtain ⟨b, hb, bs, hbs, rfl⟩ := h
    exact .cons hb hbs

/-- The targets of an operand get the labels of their offsets. -/
theorem gives_mapTargetsM_operand (operand : Operand Nat) :
    (operand.mapTargetsM label).Gives fun m new => operand.mapTargetsM m.get? = some new := by
  cases operand with
  | branch target =>
    refine ((gives_label target).bind fun new =>
      .pure (P := fun _ operand => operand = .branch new) fun _ => rfl).mono fun m new h => ?_
    obtain ⟨label, hlabel, rfl⟩ := h
    exact Operand.mapTargetsM_branch_eq_some.mpr ⟨label, hlabel, rfl⟩
  | tableSwitch fallback low targets =>
    refine ((gives_label fallback).bind fun newFallback => (gives_mapM gives_label targets).bind
      fun newTargets => .pure (P := fun _ operand => operand =
        .tableSwitch newFallback low newTargets) fun _ => rfl).mono fun m new h => ?_
    obtain ⟨newFallback, hfallback, newTargets, htargets, rfl⟩ := h
    exact Operand.mapTargetsM_tableSwitch_eq_some.mpr
      ⟨newFallback, newTargets, hfallback, htargets, rfl⟩
  | lookupSwitch fallback pairs =>
    have hpair (pair : Int32 × Nat) : (do return (pair.1, ← label pair.2) :
        Labelling (Int32 × Label)).Gives fun m new =>
          new.1 = pair.1 ∧ m.get? pair.2 = some new.2 := by
      refine ((gives_label pair.2).bind fun label =>
        .pure (P := fun _ new => new = (pair.1, label)) fun _ => rfl).mono fun m new h => ?_
      obtain ⟨label, hlabel, rfl⟩ := h
      exact ⟨rfl, hlabel⟩
    refine ((gives_label fallback).bind fun newFallback => (gives_mapM hpair pairs).bind
      fun newPairs => .pure (P := fun _ operand => operand =
        .lookupSwitch newFallback newPairs) fun _ => rfl).mono fun m new h => ?_
    obtain ⟨newFallback, hfallback, newPairs, hpairs, rfl⟩ := h
    exact Operand.mapTargetsM_lookupSwitch_eq_some.mpr
      ⟨newFallback, newPairs, hfallback, hpairs, rfl⟩
  | _ => exact .pure fun _ => rfl

theorem gives_mapTargetsM (i : Instruction Nat) :
    (i.mapTargetsM label).Gives fun m new => i.mapTargetsM m.get? = some new := by
  refine ((gives_mapTargetsM_operand i.operand).bind fun operand =>
    .pure (P := fun _ new => new = ⟨i.opcode, operand⟩) fun _ => rfl).mono fun m new h => ?_
  obtain ⟨operand, hoperand, rfl⟩ := h
  simp [Instruction.mapTargetsM, hoperand]

/-- The computation hands out labels for the given places only. -/
def Only (x : Labelling α) (places : List Nat) : Prop :=
  ∀ m place, ((x m).2.get? place).isSome → (m.get? place).isSome ∨ place ∈ places

theorem Only.pure {a : α} : (Pure.pure a : Labelling α).Only [] := fun _ _ h => .inl h

theorem Only.bind {x : Labelling α} {f : α → Labelling β} {places places' : List Nat}
    (hx : x.Only places) (hf : ∀ a, (f a).Only places') : (x >>= f).Only (places ++ places') := by
  intro m place h
  rw [List.mem_append]
  rcases hf (x m).1 (x m).2 place h with hmid | hmem
  · exact (hx m place hmid).imp id .inl
  · exact .inr (.inr hmem)

theorem Only.map {x : Labelling α} {places : List Nat} (hx : x.Only places) (f : α → β) :
    (do return f (← x) : Labelling β).Only places :=
  List.append_nil places ▸ hx.bind fun _ => .pure

theorem only_label (offset : Nat) : (label offset).Only [offset] := by
  intro m place h
  show (m.get? place).isSome ∨ place ∈ [offset]
  have hlabel : ((m.labelAt offset).2.get? place).isSome := h
  unfold LabelMap.labelAt at hlabel
  split at hlabel
  · exact .inl hlabel
  · by_cases hsame : offset = place
    · exact .inr (List.mem_singleton.mpr hsame.symm)
    · left
      simpa [LabelMap.get?, Std.TreeMap.getElem?_insert, hsame] using hlabel

theorem only_mapM {f : α → Labelling β} {places : α → List Nat}
    (hf : ∀ a, (f a).Only (places a)) (as : List α) : (as.mapM f).Only (as.flatMap places) := by
  induction as with
  | nil => exact .pure
  | cons a as ih =>
    rw [List.mapM_cons]
    exact (hf a).bind fun b => ih.map (b :: ·)

theorem only_mapTargetsM_operand (operand : Operand Nat) :
    (operand.mapTargetsM label).Only operand.targets := by
  cases operand with
  | branch target => exact (only_label target).map _
  | tableSwitch fallback low targets =>
    have htargets := only_mapM only_label targets
    rw [List.flatMap_singleton'] at htargets
    exact (only_label fallback).bind fun _ => htargets.map _
  | lookupSwitch fallback pairs =>
    have hpairs := only_mapM (fun pair : Int32 × Nat => (only_label pair.2).map (pair.1, ·)) pairs
    rw [← List.map_eq_flatMap] at hpairs
    exact (only_label fallback).bind fun _ => hpairs.map _
  | _ => exact .pure

end Labelling

/-- An instruction whose targets have the labels of their offsets. -/
def Located.Labels (m : LabelMap) (l : Located Nat) (labelled : Located Label) : Prop :=
  labelled.offset = l.offset ∧
    l.instruction.mapTargetsM m.get? = some labelled.instruction

theorem gives_labelled (l : Located Nat) :
    l.labelled.Gives fun m labelled => l.Labels m labelled := by
  refine ((Labelling.gives_mapTargetsM l.instruction).bind fun i =>
    .pure (P := fun _ labelled => labelled = ⟨l.offset, i⟩) fun _ => rfl).mono fun m new h => ?_
  obtain ⟨i, hi, rfl⟩ := h
  exact ⟨rfl, hi⟩

theorem only_labelled (l : Located Nat) : l.labelled.Only l.instruction.targets :=
  ((Labelling.only_mapTargetsM_operand l.instruction.operand).map _).map _

theorem labelNodes_of_none {m : LabelMap} {offset : Nat} (h : m.get? offset = none) :
    labelNodes m offset = [] := by
  rw [labelNodes, h]
  rfl

/-- The nodes of instructions whose targets have their labels. -/
theorem labelledNodes_of_labels {m : LabelMap} {read : List (Located Nat)}
    {found : List (Located Label)} (h : List.Forall₂ (fun l new => l.Labels m new) read found) :
    labelledNodes m found = read.flatMap fun l => labelNodes m l.offset ++
      ((l.instruction.mapTargetsM m.get?).map Node.instruction).toList := by
  induction h with
  | nil => rfl
  | cons hlabels _ ih =>
    obtain ⟨hoffset, hinstruction⟩ := hlabels
    rw [labelledNodes, List.flatMap_cons, ← labelledNodes, ih, List.flatMap_cons, hoffset,
      hinstruction]
    rfl

/-- Decoding is taking code apart and giving the targets the labels of their offsets. -/
theorem decode_eq_ok {code : List UInt8} {labels : LabelMap} {read : List (Located Nat)}
    (h : disassemble code = .ok read) :
    ∃ labelled labels', decode code labels = .ok (labelled, labels') ∧ labels.Grows labels' ∧
      List.Forall₂ (fun l new => l.Labels labels' new) read labelled := by
  obtain ⟨hgrows, hlabels⟩ := Labelling.gives_mapM gives_labelled read labels
  refine ⟨_, _, ?_, hgrows, hlabels _ (.refl _)⟩
  rw [decode, h]
  rfl

end ClassPatch.Code
