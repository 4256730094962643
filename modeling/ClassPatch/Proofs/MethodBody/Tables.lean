import Mathlib
import ClassPatch.MethodBody.Decode
import ClassPatch.Proofs.Code.Labels
import ClassPatch.Proofs.Code.ShortestFrames

/-!
# Tables of code

The tables of a method as one value, with offsets as places where they are stored and labels
where they belong to a body. Decoding gives every place the label of its offset; what becomes of
the places when the code is edited is said by moving them.
-/

namespace ClassPatch

open Bytes Code Labelling

/-- The tables of code. -/
structure CodeTables (τ : Type) where
  exceptions : List (TryBlock τ)
  lines : List (LineNumber τ)
  locals : List (LocalVariable τ)
  localTypes : List (LocalVariable τ)
  frames : Option (List (Frame τ))
deriving Repr, DecidableEq

namespace CodeTables

variable {τ : Type}

/-- Several tables as one: their entries one after the other, and the last of the stack maps. -/
def merge (exceptions : List (TryBlock τ)) (tables : List (CodeTable τ)) : CodeTables τ where
  exceptions
  lines := tables.flatMap fun | .lines entries => entries | _ => []
  locals := tables.flatMap fun | .locals entries => entries | _ => []
  localTypes := tables.flatMap fun | .localTypes entries => entries | _ => []
  frames := (tables.filterMap fun | .frames entries => some entries | _ => none).getLast?

end CodeTables

namespace MethodBody

/-- The tables of a body. -/
def tables (body : MethodBody) : CodeTables Label where
  exceptions := body.tryBlocks
  lines := body.lines
  locals := body.locals
  localTypes := body.localTypes
  frames := body.frames

/-- The tables of stored code. -/
def storedTables (pool : ConstantPool) (code : CodeAttribute) : Except Error (CodeTables Nat) := do
  let tables ← code.attributes.mapM (CodeTable.ofAttribute? pool code.code.length)
  return .merge (code.exceptions.map tryBlock) (tables.filterMap id)

end MethodBody

/-! ## Labels of places -/

/-- The block has the labels of its places. -/
structure TryBlock.Labels (m : LabelMap) (b : TryBlock Nat) (new : TryBlock Label) : Prop where
  start : m.get? b.start = some new.start
  stop : m.get? b.stop = some new.stop
  handler : m.get? b.handler = some new.handler
  catchType_eq : new.catchType = b.catchType

/-- The line has the label of its place. -/
structure LineNumber.Labels (m : LabelMap) (l : LineNumber Nat) (new : LineNumber Label) :
    Prop where
  start : m.get? l.start = some new.start
  line_eq : new.line = l.line

/-- The variable has the labels of its places. -/
structure LocalVariable.Labels (m : LabelMap) (v : LocalVariable Nat)
    (new : LocalVariable Label) : Prop where
  start : m.get? v.start = some new.start
  stop : m.get? v.stop = some new.stop
  nameIndex_eq : new.nameIndex = v.nameIndex
  descriptorIndex_eq : new.descriptorIndex = v.descriptorIndex
  slot_eq : new.slot = v.slot

/-- The frame has the labels of its places. -/
def Code.Frame.Labels (m : LabelMap) (frame : Frame Nat) (new : Frame Label) : Prop :=
  frame.mapPlacesM m.get? = some new

theorem Code.Frame.Labels.place {m : LabelMap} {frame : Frame Nat} {new : Frame Label}
    (h : frame.Labels m new) : m.get? frame.place = some new.place := by
  obtain ⟨_, -, h⟩ := Option.bind_eq_some_iff.mp h
  obtain ⟨label, hlabel, h⟩ := Option.bind_eq_some_iff.mp h
  cases h
  exact hlabel

/-- The table has the labels of its places. -/
inductive CodeTable.Labels (m : LabelMap) : CodeTable Nat → CodeTable Label → Prop
  | lines {entries : List (LineNumber Nat)} {new : List (LineNumber Label)} :
      List.Forall₂ (LineNumber.Labels m) entries new → Labels m (.lines entries) (.lines new)
  | locals {entries : List (LocalVariable Nat)} {new : List (LocalVariable Label)} :
      List.Forall₂ (LocalVariable.Labels m) entries new → Labels m (.locals entries) (.locals new)
  | localTypes {entries : List (LocalVariable Nat)} {new : List (LocalVariable Label)} :
      List.Forall₂ (LocalVariable.Labels m) entries new →
      Labels m (.localTypes entries) (.localTypes new)
  | frames {entries : List (Frame Nat)} {new : List (Frame Label)} :
      List.Forall₂ (Frame.Labels m) entries new → Labels m (.frames entries) (.frames new)

/-- The tables have the labels of their places. -/
structure CodeTables.Labels (m : LabelMap) (stored : CodeTables Nat) (new : CodeTables Label) :
    Prop where
  exceptions : List.Forall₂ (TryBlock.Labels m) stored.exceptions new.exceptions
  lines : List.Forall₂ (LineNumber.Labels m) stored.lines new.lines
  locals : List.Forall₂ (LocalVariable.Labels m) stored.locals new.locals
  localTypes : List.Forall₂ (LocalVariable.Labels m) stored.localTypes new.localTypes
  frames : Option.Rel (List.Forall₂ (Frame.Labels m)) stored.frames new.frames

theorem gives_labelled_tryBlock (b : TryBlock Nat) :
    b.labelled.Gives fun m new => b.Labels m new := by
  refine ((gives_label b.start).bind fun start => (gives_label b.stop).bind fun stop =>
    (gives_label b.handler).bind fun handler => .pure (P := fun _ new => new =
      TryBlock.mk start stop handler b.catchType) fun _ => rfl).mono fun m new h => ?_
  obtain ⟨start, hstart, stop, hstop, handler, hhandler, rfl⟩ := h
  exact ⟨hstart, hstop, hhandler, rfl⟩

theorem gives_labelled_line (l : LineNumber Nat) :
    l.labelled.Gives fun m new => l.Labels m new := by
  refine ((gives_label l.start).bind fun start => .pure (P := fun _ new => new =
    LineNumber.mk start l.line) fun _ => rfl).mono fun m new h => ?_
  obtain ⟨start, hstart, rfl⟩ := h
  exact ⟨hstart, rfl⟩

theorem gives_labelled_variable (v : LocalVariable Nat) :
    v.labelled.Gives fun m new => v.Labels m new := by
  refine ((gives_label v.start).bind fun start => (gives_label v.stop).bind fun stop =>
    .pure (P := fun _ new => new = LocalVariable.mk start stop v.nameIndex v.descriptorIndex v.slot)
      fun _ => rfl).mono fun m new h => ?_
  obtain ⟨start, hstart, stop, hstop, rfl⟩ := h
  exact ⟨hstart, hstop, rfl, rfl, rfl⟩

theorem gives_mapPlaceM (type : VerificationType Nat) :
    (type.mapPlaceM label).Gives fun m new => type.mapPlaceM m.get? = some new := by
  cases type with
  | uninitialized creation =>
    refine ((gives_label creation).bind fun label => .pure (P := fun _ new => new =
      VerificationType.uninitialized label) fun _ => rfl).mono fun m new h => ?_
    obtain ⟨label, hlabel, rfl⟩ := h
    exact Option.bind_eq_some_iff.mpr ⟨label, hlabel, rfl⟩
  | _ => exact .pure fun _ => rfl

theorem gives_mapPlacesM_kind (kind : FrameKind Nat) :
    (kind.mapPlacesM label).Gives fun m new => kind.mapPlacesM m.get? = some new := by
  have htypes (types : List (VerificationType Nat)) :
      (types.mapM (VerificationType.mapPlaceM label)).Gives fun m new =>
        types.mapM (VerificationType.mapPlaceM m.get?) = some new :=
    (gives_mapM gives_mapPlaceM types).mono fun m new h => Success.option_mapM.mpr h
  cases kind with
  | same => exact .pure fun _ => rfl
  | chop count => exact .pure fun _ => rfl
  | sameLocals stack =>
    refine ((gives_mapPlaceM stack).bind fun new => .pure (P := fun _ kind => kind =
      FrameKind.sameLocals new) fun _ => rfl).mono fun m new h => ?_
    obtain ⟨new, hnew, rfl⟩ := h
    exact Option.bind_eq_some_iff.mpr ⟨new, hnew, rfl⟩
  | append locals =>
    refine ((htypes locals).bind fun new => .pure (P := fun _ kind => kind =
      FrameKind.append new) fun _ => rfl).mono fun m new h => ?_
    obtain ⟨new, hnew, rfl⟩ := h
    exact Option.bind_eq_some_iff.mpr ⟨new, hnew, rfl⟩
  | full locals stack =>
    refine ((htypes locals).bind fun newLocals => (htypes stack).bind fun newStack =>
      .pure (P := fun _ kind => kind = FrameKind.full newLocals newStack) fun _ => rfl).mono
        fun m new h => ?_
    obtain ⟨newLocals, hlocals, newStack, hstack, rfl⟩ := h
    exact Option.bind_eq_some_iff.mpr ⟨newLocals, hlocals,
      Option.bind_eq_some_iff.mpr ⟨newStack, hstack, rfl⟩⟩

theorem gives_mapPlacesM_frame (frame : Frame Nat) :
    (frame.mapPlacesM label).Gives fun m new => frame.Labels m new := by
  refine ((gives_mapPlacesM_kind frame.kind).bind fun kind => (gives_label frame.place).bind
    fun place => .pure (P := fun _ new => new = Frame.mk place kind) fun _ => rfl).mono
      fun m new h => ?_
  obtain ⟨kind, hkind, place, hplace, rfl⟩ := h
  exact Option.bind_eq_some_iff.mpr ⟨kind, hkind, Option.bind_eq_some_iff.mpr ⟨place, hplace, rfl⟩⟩

theorem gives_labelled_table (table : CodeTable Nat) :
    table.labelled.Gives fun m new => table.Labels m new := by
  have hentries {α β : Type} {R : LabelMap → α → β → Prop} {f : α → Labelling β}
      (hf : ∀ a, (f a).Gives fun m b => R m a b) (as : List α) (make : List β → CodeTable Label) :
      (do return make (← as.mapM f) : Labelling (CodeTable Label)).Gives fun m new =>
        ∃ bs, List.Forall₂ (R m) as bs ∧ new = make bs :=
    (gives_mapM hf as).bind fun bs => .pure fun _ => rfl
  cases table with
  | lines entries =>
    refine (hentries gives_labelled_line entries .lines).mono fun m new h => ?_
    obtain ⟨new, hnew, rfl⟩ := h
    exact .lines hnew
  | locals entries =>
    refine (hentries gives_labelled_variable entries .locals).mono fun m new h => ?_
    obtain ⟨new, hnew, rfl⟩ := h
    exact .locals hnew
  | localTypes entries =>
    refine (hentries gives_labelled_variable entries .localTypes).mono fun m new h => ?_
    obtain ⟨new, hnew, rfl⟩ := h
    exact .localTypes hnew
  | frames entries =>
    refine (hentries gives_mapPlacesM_frame entries .frames).mono fun m new h => ?_
    obtain ⟨new, hnew, rfl⟩ := h
    exact .frames hnew

/-! ## Places in tables -/

/-- The places of the block. -/
def TryBlock.places (b : TryBlock Nat) : List Nat := [b.start, b.stop, b.handler]

/-- The places of the variable. -/
def LocalVariable.places (v : LocalVariable Nat) : List Nat := [v.start, v.stop]

/-- The place in the type, if it has one. -/
def Code.VerificationType.places : VerificationType Nat → List Nat
  | .uninitialized creation => [creation]
  | _ => []

/-- The places in the types of the kind. -/
def Code.FrameKind.places : FrameKind Nat → List Nat
  | .sameLocals stack => stack.places
  | .append locals => locals.flatMap (·.places)
  | .full locals stack => locals.flatMap (·.places) ++ stack.flatMap (·.places)
  | _ => []

/-- The places of the frame. -/
def Code.Frame.places (frame : Frame Nat) : List Nat := frame.kind.places ++ [frame.place]

/-- The places of the table. -/
def CodeTable.places : CodeTable Nat → List Nat
  | .lines entries => entries.flatMap fun l => [l.start]
  | .locals entries => entries.flatMap (·.places)
  | .localTypes entries => entries.flatMap (·.places)
  | .frames entries => entries.flatMap (·.places)

theorem only_labelled_tryBlock (b : TryBlock Nat) : b.labelled.Only b.places :=
  (only_label _).bind fun _ => (only_label _).bind fun _ => (only_label _).map _

theorem only_labelled_line (l : LineNumber Nat) : l.labelled.Only [l.start] :=
  (only_label _).map _

theorem only_labelled_variable (v : LocalVariable Nat) : v.labelled.Only v.places :=
  (only_label _).bind fun _ => (only_label _).map _

theorem only_mapPlaceM (type : VerificationType Nat) : (type.mapPlaceM label).Only type.places := by
  cases type with
  | uninitialized creation => exact (only_label creation).map _
  | _ => exact .pure

theorem only_mapPlacesM_kind (kind : FrameKind Nat) : (kind.mapPlacesM label).Only kind.places := by
  cases kind with
  | same => exact .pure
  | chop count => exact .pure
  | sameLocals stack => exact (only_mapPlaceM stack).map _
  | append locals => exact (only_mapM only_mapPlaceM locals).map _
  | full locals stack =>
    exact (only_mapM only_mapPlaceM locals).bind fun _ => (only_mapM only_mapPlaceM stack).map _

theorem only_mapPlacesM_frame (frame : Frame Nat) : (frame.mapPlacesM label).Only frame.places :=
  (only_mapPlacesM_kind frame.kind).bind fun _ => (only_label frame.place).map _

theorem only_labelled_table (table : CodeTable Nat) : table.labelled.Only table.places := by
  cases table with
  | lines entries => exact (only_mapM only_labelled_line entries).map _
  | locals entries => exact (only_mapM only_labelled_variable entries).map _
  | localTypes entries => exact (only_mapM only_labelled_variable entries).map _
  | frames entries => exact (only_mapM only_mapPlacesM_frame entries).map _

/-- The places in what has labels have them. -/
theorem Code.FrameKind.exists_label {m : LabelMap} {kind : FrameKind Nat} {new : FrameKind Label}
    (h : kind.mapPlacesM m.get? = some new) : ∀ place ∈ kind.places, (m.get? place).isSome := by
  have htype {type : VerificationType Nat} {new : VerificationType Label}
      (h : type.mapPlaceM m.get? = some new) : ∀ place ∈ type.places, (m.get? place).isSome := by
    intro place hplace
    cases type with
    | uninitialized creation =>
      obtain rfl := List.mem_singleton.mp hplace
      obtain ⟨label, hlabel, -⟩ := Option.bind_eq_some_iff.mp h
      exact Option.isSome_of_eq_some hlabel
    | _ => cases hplace
  have htypes {types : List (VerificationType Nat)} {new : List (VerificationType Label)}
      (h : types.mapM (VerificationType.mapPlaceM m.get?) = some new) :
      ∀ place ∈ types.flatMap (·.places), (m.get? place).isSome := by
    intro place hplace
    obtain ⟨type, hmem, hplace⟩ := List.mem_flatMap.mp hplace
    obtain ⟨new, -, hnew⟩ := exists_of_mem_left (Success.option_mapM.mp h) hmem
    exact htype hnew place hplace
  intro place hplace
  cases kind with
  | same => cases hplace
  | chop count => cases hplace
  | sameLocals stack =>
    obtain ⟨new, hnew, -⟩ := Option.bind_eq_some_iff.mp h
    exact htype hnew place hplace
  | append locals =>
    obtain ⟨new, hnew, -⟩ := Option.bind_eq_some_iff.mp h
    exact htypes hnew place hplace
  | full locals stack =>
    obtain ⟨newLocals, hlocals, h⟩ := Option.bind_eq_some_iff.mp h
    obtain ⟨newStack, hstack, -⟩ := Option.bind_eq_some_iff.mp h
    exact (List.mem_append.mp hplace).elim (htypes hlocals place) (htypes hstack place)

theorem Code.Frame.Labels.exists_label {m : LabelMap} {frame : Frame Nat} {new : Frame Label}
    (h : frame.Labels m new) : ∀ place ∈ frame.places, (m.get? place).isSome := by
  obtain ⟨kind, hkind, -⟩ := Option.bind_eq_some_iff.mp h
  intro place hplace
  rcases List.mem_append.mp hplace with hplace | hplace
  · exact FrameKind.exists_label hkind place hplace
  · obtain rfl := List.mem_singleton.mp hplace
    exact Option.isSome_of_eq_some h.place

/-! ## Moved places -/

section Map

variable (f : Nat → Nat)

/-- The block with its places moved. -/
def TryBlock.map (b : TryBlock Nat) : TryBlock Nat :=
  { b with start := f b.start, stop := f b.stop, handler := f b.handler }

/-- The line with its place moved. -/
def LineNumber.map (l : LineNumber Nat) : LineNumber Nat := { l with start := f l.start }

/-- The variable with its places moved. -/
def LocalVariable.map (v : LocalVariable Nat) : LocalVariable Nat :=
  { v with start := f v.start, stop := f v.stop }

/-- The tables with all places moved, without ranges that hold no code and without lines at the
end of the code. -/
def CodeTables.moved (codeLength : Nat) (t : CodeTables Nat) : CodeTables Nat where
  exceptions := (t.exceptions.filter fun b => b.start < b.stop).map (·.map f)
  lines := (t.lines.filter fun l => l.start < codeLength).map (·.map f)
  locals := t.locals.map (·.map f)
  localTypes := t.localTypes.map (·.map f)
  frames := t.frames.map (·.map (·.map f))

theorem Code.FrameKind.places_map (kind : FrameKind Nat) :
    (kind.map f).places = kind.places.map f := by
  have htype (type : VerificationType Nat) : (type.map f).places = type.places.map f := by
    cases type <;> rfl
  have htypes (types : List (VerificationType Nat)) :
      (types.map (·.map f)).flatMap (·.places) = (types.flatMap (·.places)).map f := by
    simp only [List.flatMap_map, List.map_flatMap, htype]
  cases kind with
  | same => rfl
  | chop count => rfl
  | sameLocals stack => exact htype stack
  | append locals => exact htypes locals
  | full locals stack =>
    show _ ++ _ = _
    rw [htypes, htypes, ← List.map_append]
    rfl

theorem Code.Frame.places_map (frame : Frame Nat) : (frame.map f).places = frame.places.map f := by
  rw [Frame.places, Frame.map, FrameKind.places_map, Frame.places, List.map_append]
  rfl

end Map

/-- The entries of a list that a count of two bytes leaves of it. -/
def countedPart {α : Type} (entries : List α) : List α :=
  entries.take (entries.length % UInt16.size)

/-- The tables that are read where these were stored. -/
def CodeTables.counted (t : CodeTables Nat) : CodeTables Nat :=
  { t with
    lines := countedPart t.lines
    locals := countedPart t.locals
    localTypes := countedPart t.localTypes }

theorem countedPart_of_lt {α : Type} {entries : List α} (h : entries.length < UInt16.size) :
    countedPart entries = entries := by
  rw [countedPart, Nat.mod_eq_of_lt h, List.take_length]

/-- Short tables are read as they were stored. -/
theorem CodeTables.counted_moved {moved : Nat → Nat} {codeLength : Nat} {t : CodeTables Nat}
    (hlines : t.lines.length < UInt16.size) (hlocals : t.locals.length < UInt16.size)
    (hlocalTypes : t.localTypes.length < UInt16.size) :
    (t.moved moved codeLength).counted = t.moved moved codeLength := by
  rw [counted, countedPart_of_lt, countedPart_of_lt, countedPart_of_lt]
  · simpa [CodeTables.moved] using hlocalTypes
  · simpa [CodeTables.moved] using hlocals
  · have hle := List.length_filter_le (fun l => l.start < codeLength) t.lines
    simpa [CodeTables.moved] using hle.trans_lt hlines

theorem mem_of_mem_countedPart {α : Type} {entries : List α} {a : α} (h : a ∈ countedPart entries) :
    a ∈ entries :=
  List.mem_of_mem_take h

/-! ## Tables that were put together -/

/-- The table is one of those that were put together. -/
inductive CodeTables.Has {τ : Type} (t : CodeTables τ) : CodeTable τ → Prop
  | lines : t.Has (.lines t.lines)
  | locals : t.Has (.locals t.locals)
  | localTypes : t.Has (.localTypes t.localTypes)
  | frames {entries : List (Frame τ)} : t.frames = some entries → t.Has (.frames entries)

section Moved

variable {m : LabelMap} {moved : Nat → Nat} {codeLength : Nat} {stored : CodeTables Nat}
  {new : CodeTables Label}

/-- The place is where a place with a label is moved. -/
def MovedFrom (m : LabelMap) (moved : Nat → Nat) (place : Nat) : Prop :=
  ∃ old, (m.get? old).isSome ∧ moved old = place

theorem movedFrom_of_labels {old : Nat} {label : Label} (h : m.get? old = some label) :
    MovedFrom m moved (moved old) :=
  ⟨old, Option.isSome_of_eq_some h, rfl⟩

theorem CodeTables.Labels.movedFrom_exception (h : stored.Labels m new) :
    ∀ b ∈ (stored.moved moved codeLength).exceptions, ∀ place ∈ b.places,
      MovedFrom m moved place := by
  intro b hb place hplace
  obtain ⟨old, hold, rfl⟩ := List.mem_map.mp hb
  obtain ⟨label, -, hlabels⟩ := exists_of_mem_left h.exceptions (List.mem_of_mem_filter hold)
  simp only [TryBlock.places, TryBlock.map, List.mem_cons, List.not_mem_nil, or_false] at hplace
  rcases hplace with rfl | rfl | rfl
  · exact movedFrom_of_labels hlabels.start
  · exact movedFrom_of_labels hlabels.stop
  · exact movedFrom_of_labels hlabels.handler

/-- Places in tables that were moved are those where places with labels are moved. -/
theorem CodeTables.Labels.movedFrom_table (h : stored.Labels m new) {table : CodeTable Nat}
    (htable : (stored.moved moved codeLength).counted.Has table) :
    ∀ place ∈ table.places, MovedFrom m moved place := by
  have hvariable {entries : List (LocalVariable Nat)} {new : List (LocalVariable Label)}
      (h : List.Forall₂ (LocalVariable.Labels m) entries new) :
      ∀ v ∈ countedPart (entries.map (·.map moved)), ∀ place ∈ v.places,
        MovedFrom m moved place := by
    intro v hv place hplace
    obtain ⟨old, hold, rfl⟩ := List.mem_map.mp (mem_of_mem_countedPart hv)
    obtain ⟨label, -, hlabels⟩ := exists_of_mem_left h hold
    simp only [LocalVariable.places, LocalVariable.map, List.mem_cons, List.not_mem_nil,
      or_false] at hplace
    rcases hplace with rfl | rfl
    · exact movedFrom_of_labels hlabels.start
    · exact movedFrom_of_labels hlabels.stop
  intro place hplace
  cases htable with
  | lines =>
    obtain ⟨l, hl, hplace⟩ := List.mem_flatMap.mp hplace
    obtain rfl := List.mem_singleton.mp hplace
    obtain ⟨old, hold, rfl⟩ := List.mem_map.mp (mem_of_mem_countedPart hl)
    obtain ⟨label, -, hlabels⟩ := exists_of_mem_left h.lines (List.mem_of_mem_filter hold)
    exact movedFrom_of_labels hlabels.start
  | locals =>
    obtain ⟨v, hv, hplace⟩ := List.mem_flatMap.mp hplace
    exact hvariable h.locals v hv place hplace
  | localTypes =>
    obtain ⟨v, hv, hplace⟩ := List.mem_flatMap.mp hplace
    exact hvariable h.localTypes v hv place hplace
  | frames hframes =>
    obtain ⟨frame, hframe, hplace⟩ := List.mem_flatMap.mp hplace
    obtain ⟨old, hold, rfl⟩ := Option.map_eq_some_iff.mp hframes
    obtain ⟨oldFrame, hmem, rfl⟩ := List.mem_map.mp hframe
    rw [Frame.places_map] at hplace
    obtain ⟨oldPlace, holdPlace, rfl⟩ := List.mem_map.mp hplace
    have hrel := h.frames
    generalize new.frames = newFrames at hrel
    rw [hold] at hrel
    cases hrel with
    | some hentries =>
      obtain ⟨label, -, hlabels⟩ := exists_of_mem_left hentries hmem
      exact ⟨oldPlace, hlabels.exists_label oldPlace holdPlace, rfl⟩

end Moved

end ClassPatch
