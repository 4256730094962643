import Mathlib
import ClassPatch.Proofs.Code.FrameTable

/-!
# Shortest forms of frames

What a stack map table is written as. A kind at a distance can have two stored forms, and writing
takes the shorter one, so the bytes of a table are a function of its frames and their places. Any
frames that ascend and whose numbers fit have such bytes, and they are read as the frames again.

A stored table is in its shortest form if and only if it is compact: its tags tell that no frame is
stored with a distance of two bytes where its kind has a form without.
-/

namespace ClassPatch.Code

open Bytes Bytes.Reader

/-! ## Moved places -/

section Map

variable {τ υ : Type} (f : τ → υ)

/-- The type with its place moved. -/
def VerificationType.map : VerificationType τ → VerificationType υ
  | .top => .top
  | .integer => .integer
  | .float => .float
  | .double => .double
  | .long => .long
  | .null => .null
  | .uninitializedThis => .uninitializedThis
  | .object index => .object index
  | .uninitialized creation => .uninitialized (f creation)

/-- The kind with its places moved. -/
def FrameKind.map : FrameKind τ → FrameKind υ
  | .same => .same
  | .sameLocals stack => .sameLocals (stack.map f)
  | .chop count => .chop count
  | .append locals => .append (locals.map (·.map f))
  | .full locals stack => .full (locals.map (·.map f)) (stack.map (·.map f))

/-- The frame with its places moved. -/
def Frame.map (frame : Frame τ) : Frame υ := ⟨f frame.place, frame.kind.map f⟩

end Map

/-- Labels have the places that their offsets are moved to, which fit in two bytes. -/
def LabelMap.MovesTo (m : LabelMap) (moved : Nat → Nat) (places : Places) : Prop :=
  ∀ place label, m.get? place = some label →
    places[label]? = some (moved place) ∧ moved place < UInt16.size

section Replaced

variable {τ υ ω : Type} {f : τ → Option υ} {g : υ → Option ω} {moved : τ → ω}

theorem VerificationType.mapPlaceM_map
    (hg : ∀ place new, f place = some new → g new = some (moved place))
    {type : VerificationType τ} {new : VerificationType υ} (h : type.mapPlaceM f = some new) :
    new.mapPlaceM g = some (type.map moved) := by
  cases type with
  | uninitialized creation =>
    obtain ⟨place, hplace, hnew⟩ := Option.bind_eq_some_iff.mp h
    cases hnew
    exact Option.bind_eq_some_iff.mpr ⟨moved creation, hg creation place hplace, rfl⟩
  | _ =>
    cases h
    rfl

theorem mapM_mapPlaceM_map (hg : ∀ place new, f place = some new → g new = some (moved place))
    {types : List (VerificationType τ)} {new : List (VerificationType υ)}
    (h : types.mapM (·.mapPlaceM f) = some new) :
    new.mapM (·.mapPlaceM g) = some (types.map (·.map moved)) := by
  rw [Success.option_mapM] at h ⊢
  rw [List.forall₂_map_right_iff]
  exact h.flip.imp fun new type htype => VerificationType.mapPlaceM_map hg htype

/-- A kind whose places were replaced once has them replaced again by where they are moved to. -/
theorem FrameKind.mapPlacesM_map (hg : ∀ place new, f place = some new → g new = some (moved place))
    {kind : FrameKind τ} {new : FrameKind υ} (h : kind.mapPlacesM f = some new) :
    new.mapPlacesM g = some (kind.map moved) := by
  cases kind with
  | same =>
    cases h
    rfl
  | chop count =>
    cases h
    rfl
  | sameLocals stack =>
    obtain ⟨newStack, hstack, hnew⟩ := Option.bind_eq_some_iff.mp h
    cases hnew
    exact Option.bind_eq_some_iff.mpr ⟨_, VerificationType.mapPlaceM_map hg hstack, rfl⟩
  | append locals =>
    obtain ⟨newLocals, hlocals, hnew⟩ := Option.bind_eq_some_iff.mp h
    cases hnew
    exact Option.bind_eq_some_iff.mpr ⟨_, mapM_mapPlaceM_map hg hlocals, rfl⟩
  | full locals stack =>
    obtain ⟨newLocals, hlocals, h⟩ := Option.bind_eq_some_iff.mp h
    obtain ⟨newStack, hstack, hnew⟩ := Option.bind_eq_some_iff.mp h
    cases hnew
    exact Option.bind_eq_some_iff.mpr ⟨_, mapM_mapPlaceM_map hg hlocals,
      Option.bind_eq_some_iff.mpr ⟨_, mapM_mapPlaceM_map hg hstack, rfl⟩⟩

theorem Frame.mapPlacesM_map (hg : ∀ place new, f place = some new → g new = some (moved place))
    {frame : Frame τ} {new : Frame υ} (h : frame.mapPlacesM f = some new) :
    new.mapPlacesM g = some (frame.map moved) := by
  obtain ⟨newKind, hkind, h⟩ := Option.bind_eq_some_iff.mp h
  obtain ⟨newPlace, hplace, hnew⟩ := Option.bind_eq_some_iff.mp h
  cases hnew
  exact Option.bind_eq_some_iff.mpr ⟨_, FrameKind.mapPlacesM_map hg hkind,
    Option.bind_eq_some_iff.mpr ⟨_, hg frame.place newPlace hplace, rfl⟩⟩

end Replaced

/-! ## Shortest forms -/

namespace FrameKind

/-- The form with a distance of two bytes. -/
def farForm (distance : Nat) (kind : FrameKind Nat) : List UInt8 :=
  UInt8.ofNat kind.tag :: (BigEndian.bytes 2 distance ++ kind.types)

/-- The shortest form at a distance from the frame before. -/
def shortest (distance : Nat) : FrameKind Nat → List UInt8
  | .same => if distance < 64 then [UInt8.ofNat distance] else farForm distance .same
  | .sameLocals stack =>
    if distance < 64 then UInt8.ofNat (64 + distance) :: stack.stored
    else farForm distance (.sameLocals stack)
  | kind => farForm distance kind

theorem stored_shortest {kind : FrameKind Nat} (hfits : kind.Fits) {distance : Nat}
    (hdistance : distance < UInt16.size) : kind.Stored distance (kind.shortest distance) := by
  have hfar : kind.Stored distance (kind.farForm distance) := .far hdistance hfits
  cases kind with
  | same =>
    by_cases hnear : distance < 64
    · rw [shortest, if_pos hnear]
      exact .same hnear
    · rwa [shortest, if_neg hnear]
  | sameLocals stack =>
    by_cases hnear : distance < 64
    · rw [shortest, if_pos hnear]
      exact .sameLocals hnear hfits
    · rwa [shortest, if_neg hnear]
  | chop count => exact hfar
  | append locals => exact hfar
  | full locals stack => exact hfar

theorem length_shortest_le {kind : FrameKind Nat} {distance : Nat} {data : List UInt8}
    (h : kind.Stored distance data) : (kind.shortest distance).length ≤ data.length := by
  cases h with
  | same hnear => rw [shortest, if_pos hnear]
  | sameLocals hnear _ => rw [shortest, if_pos hnear]
  | far _ _ =>
    cases kind with
    | same =>
      rw [shortest]
      split
      · exact Nat.succ_le_succ (Nat.zero_le _)
      · exact Nat.le_refl _
    | sameLocals stack =>
      rw [shortest]
      split
      · exact Nat.succ_le_succ ((List.suffix_append _ _).length_le)
      · exact Nat.le_refl _
    | chop count => exact Nat.le_refl _
    | append locals => exact Nat.le_refl _
    | full locals stack => exact Nat.le_refl _

end FrameKind

/-- The tags of the kinds that have a form for short distances, followed by a distance of two bytes,
are used for distances without such a form only. -/
def CompactForm (distance : Nat) (data : List UInt8) : Prop :=
  ∀ tag ∈ data.head?, tag = 247 ∨ tag = 251 → 64 ≤ distance

namespace FrameKind

theorem compactForm_shortest {kind : FrameKind Nat} (hfits : kind.Fits) (distance : Nat) :
    CompactForm distance (kind.shortest distance) := by
  -- the tags of the other kinds are different, whatever the distance is
  have hother (hkind : kind.tag ≠ 247 ∧ kind.tag ≠ 251) :
      CompactForm distance (kind.farForm distance) := by
    intro tag htag hextended
    obtain rfl : UInt8.ofNat kind.tag = tag := Option.some.inj htag
    rw [← UInt8.toNat_inj, ← UInt8.toNat_inj, hfits.toNat_tag] at hextended
    exact (hextended.elim hkind.1 hkind.2).elim
  have hshort {tag : Nat} (htag : tag < 128) (back : List UInt8) :
      CompactForm distance (UInt8.ofNat tag :: back) := by
    intro tag' htag' hextended
    obtain rfl : UInt8.ofNat tag = tag' := Option.some.inj htag'
    rw [← UInt8.toNat_inj, ← UInt8.toNat_inj,
      UInt8.toNat_ofNat_of_lt' (htag.trans (by decide))] at hextended
    have hlow : tag = 247 ∨ tag = 251 := hextended
    omega
  cases kind with
  | same =>
    rw [shortest]
    split
    · exact hshort (by omega) []
    · exact fun _ _ _ => Nat.not_lt.mp ‹_›
  | sameLocals stack =>
    rw [shortest]
    split
    · exact hshort (by omega) stack.stored
    · exact fun _ _ _ => Nat.not_lt.mp ‹_›
  | chop count =>
    have hcount : 1 ≤ count.toNat ∧ count.toNat ≤ 3 := hfits
    exact hother (by rw [tag]; omega)
  | append locals =>
    have hcount : 1 ≤ locals.length := hfits.1.1
    exact hother (by rw [tag]; omega)
  | full locals stack => exact hother (by rw [tag]; decide)

theorem Stored.eq_shortest {kind : FrameKind Nat} {distance : Nat} {data : List UInt8}
    (h : kind.Stored distance data) (hcompact : CompactForm distance data) :
    data = kind.shortest distance := by
  cases h with
  | same hnear => rw [shortest, if_pos hnear]
  | sameLocals hnear _ => rw [shortest, if_pos hnear]
  | far _ _ =>
    cases kind with
    | same =>
      have hfar : 64 ≤ distance := hcompact 251 rfl (.inr rfl)
      rw [shortest, if_neg (Nat.not_lt.mpr hfar)]
      rfl
    | sameLocals stack =>
      have hfar : 64 ≤ distance := hcompact 247 rfl (.inl rfl)
      rw [shortest, if_neg (Nat.not_lt.mpr hfar)]
      rfl
    | chop count => rfl
    | append locals => rfl
    | full locals stack => rfl

end FrameKind

theorem Places.frameOffset_eq_ok {places : Places} {label : Label} {place : Nat} :
    places.frameOffset label = .ok place ↔ places[label]? = some place ∧ place < UInt16.size := by
  unfold frameOffset
  cases hplace : places[label]? with
  | none => simp [refuse]
  | some found =>
    dsimp only
    by_cases hsmall : found < UInt16.size
    · rw [if_pos hsmall]
      constructor
      · intro h
        cases h
        exact ⟨rfl, hsmall⟩
      · intro h
        cases h.1
        rfl
    · rw [if_neg hsmall]
      constructor
      · intro h
        cases h
      · intro h
        cases h.1
        exact absurd h.2 hsmall

section Placed

variable {places : Places}

theorem bytes_type {type : VerificationType Label} {placed : VerificationType Nat}
    (h : type.mapPlaceM (fun label => places[label]?) = some placed) (hfits : placed.Fits) :
    type.bytes places = .ok placed.stored := by
  cases type with
  | uninitialized creation =>
    obtain ⟨place, hplace, hplaced⟩ := Option.bind_eq_some_iff.mp h
    cases hplaced
    rw [VerificationType.bytes, Places.frameOffset_eq_ok.mpr ⟨hplace, hfits⟩]
    rfl
  | _ =>
    cases h
    rfl

theorem typeBytes_types {types : List (VerificationType Label)}
    {placed : List (VerificationType Nat)}
    (h : types.mapM (·.mapPlaceM fun label => places[label]?) = some placed)
    (hfits : ∀ type ∈ placed, type.Fits) :
    FrameTable.typeBytes places types = .ok (storedTypes placed) ∧
      types.length = placed.length := by
  rw [Success.option_mapM] at h
  have hparts : types.mapM (VerificationType.bytes places) =
      .ok (placed.map VerificationType.stored) := by
    rw [Success.except_mapM, List.forall₂_map_right_iff]
    exact ((List.forall₂_and_left _ _).mpr ⟨fun type htype => htype, h.flip⟩).flip.imp
      fun type placed htype => bytes_type htype.2 (hfits placed htype.1)
  refine ⟨?_, h.length_eq⟩
  rw [FrameTable.typeBytes, hparts, storedTypes, List.flatMap_def]
  rfl

/-- A kind is written in the shortest form of the kind with the places of its labels. -/
theorem bytes_kind {kind : FrameKind Label} {placed : FrameKind Nat}
    (h : kind.mapPlacesM (fun label => places[label]?) = some placed) (hfits : placed.Fits)
    (distance : Nat) : kind.bytes places distance = .ok (placed.shortest distance) := by
  cases kind with
  | same =>
    cases h
    rw [FrameKind.bytes, FrameKind.shortest, FrameKind.farForm, FrameKind.types, List.append_nil]
    rfl
  | sameLocals stack =>
    obtain ⟨placedStack, hstack, hplaced⟩ := Option.bind_eq_some_iff.mp h
    cases hplaced
    rw [FrameKind.bytes, bytes_type hstack hfits]
    show Except.ok _ = _
    rw [FrameKind.shortest]
    split <;> rfl
  | chop count =>
    cases h
    have hcount : 1 ≤ count ∧ count ≤ 3 := by
      rw [UInt8.le_iff_toNat_le, UInt8.le_iff_toNat_le]
      exact hfits
    rw [FrameKind.bytes, if_pos hcount, sub_eq_ofNat (hfits.2.trans (by decide)),
      FrameKind.shortest, FrameKind.farForm, FrameKind.types, List.append_nil]
    · rfl
    all_goals simp
  | append locals =>
    obtain ⟨placedLocals, hlocals, hplaced⟩ := Option.bind_eq_some_iff.mp h
    cases hplaced
    obtain ⟨hcount, htypes⟩ := hfits
    obtain ⟨hbytes, hlength⟩ := typeBytes_types hlocals htypes
    rw [FrameKind.bytes, if_pos (hlength ▸ hcount), hbytes, hlength]
    rfl
  | full locals stack =>
    obtain ⟨placedLocals, hlocals, h⟩ := Option.bind_eq_some_iff.mp h
    obtain ⟨placedStack, hstack, hplaced⟩ := Option.bind_eq_some_iff.mp h
    cases hplaced
    obtain ⟨⟨-, hlocalsFit⟩, -, hstackFits⟩ := hfits
    obtain ⟨hlocalBytes, hlocalsLength⟩ := typeBytes_types hlocals hlocalsFit
    obtain ⟨hstackBytes, hstackLength⟩ := typeBytes_types hstack hstackFits
    rw [FrameKind.bytes, hlocalBytes, hstackBytes, hlocalsLength, hstackLength]
    show Except.ok _ = _
    simp [FrameKind.shortest, FrameKind.farForm, FrameKind.types, FrameKind.tag]

end Placed

namespace FrameTable

/-- The distance of a place from the frame before. -/
def gap (previous : Option Nat) (place : Nat) : Nat :=
  match previous with
  | none => place
  | some before => place - before - 1

theorem gap_le (previous : Option Nat) (place : Nat) : gap previous place ≤ place := by
  cases previous with
  | none => exact Nat.le_refl place
  | some before => exact (Nat.sub_le _ 1).trans (Nat.sub_le place before)

theorem distanceAfter_eq_gap {previous : Option Nat} {place : Nat}
    (h : ∀ before ∈ previous, before < place) :
    distanceAfter previous place = .ok (gap previous place) := by
  cases previous with
  | none => rfl
  | some before => exact if_pos (h before rfl)

theorem offsetAfter_gap {previous : Option Nat} {place : Nat}
    (h : ∀ before ∈ previous, before < place) : offsetAfter previous (gap previous place) = place := by
  cases previous with
  | none => rfl
  | some before =>
    have hlt := h before rfl
    simp only [offsetAfter, gap]
    omega

theorem gap_offsetAfter (previous : Option Nat) (distance : Nat) :
    gap previous (offsetAfter previous distance) = distance := by
  cases previous with
  | none => rfl
  | some before =>
    simp only [offsetAfter, gap]
    omega

/-- The shortest forms of frames one after the other, the first one after `previous`. -/
def shortestAfter (previous : Option Nat) : List (Frame Nat) → List UInt8
  | [] => []
  | frame :: frames =>
    frame.kind.shortest (gap previous frame.place) ++ shortestAfter (some frame.place) frames

/-- The shortest form of a table. -/
def shortestTable (frames : List (Frame Nat)) : List UInt8 :=
  BigEndian.bytes 2 frames.length ++ shortestAfter none frames

/-- Frames that can be stored after one at `previous`: they ascend from it, and their numbers fit. -/
structure StorableAfter (previous : Option Nat) (frames : List (Frame Nat)) : Prop where
  ascending : (previous.toList ++ frames.map (·.place)).Pairwise (· < ·)
  small : ∀ frame ∈ frames, frame.place < UInt16.size
  fits : ∀ frame ∈ frames, frame.kind.Fits

theorem StorableAfter.of_cons {previous : Option Nat} {frame : Frame Nat}
    {frames : List (Frame Nat)} (h : StorableAfter previous (frame :: frames)) :
    (∀ before ∈ previous, before < frame.place) ∧ StorableAfter (some frame.place) frames := by
  obtain ⟨hascending, hsmall, hfits⟩ := h
  rw [List.map_cons, List.pairwise_append] at hascending
  refine ⟨fun before hbefore => ?_, hascending.2.1, (List.forall_mem_cons.mp hsmall).2,
    (List.forall_mem_cons.mp hfits).2⟩
  exact hascending.2.2 before (Option.mem_toList.mpr hbefore) frame.place List.mem_cons_self

/-- Frames stored one after the other as in `StoredAfter`, each of them compact. -/
inductive CompactAfter (codeLength : Nat) : Option Nat → List (Frame Nat) → List UInt8 → Prop
  | nil {previous : Option Nat} : CompactAfter codeLength previous [] []
  | cons {previous : Option Nat} {distance : Nat} {frame : Frame Nat} {frames : List (Frame Nat)}
        {front back : List UInt8} :
      frame.place = offsetAfter previous distance → frame.place < codeLength →
      frame.kind.Stored distance front → CompactForm distance front →
      CompactAfter codeLength (some frame.place) frames back →
      CompactAfter codeLength previous (frame :: frames) (front ++ back)

/-- The bytes are those of a table for code of the given length, with compact frames. -/
def Compact (codeLength : Nat) (data : List UInt8) : Prop :=
  ∃ (frames : List (Frame Nat)) (body : List UInt8), frames.length < UInt16.size ∧
    CompactAfter codeLength none frames body ∧ data = BigEndian.bytes 2 frames.length ++ body

section

variable {codeLength : Nat} {previous : Option Nat} {frames : List (Frame Nat)}
  {data : List UInt8}

theorem CompactAfter.stored (h : CompactAfter codeLength previous frames data) :
    StoredAfter codeLength previous frames data := by
  induction h with
  | nil => exact .nil
  | cons hplace hlt hkind _ _ ih => exact .cons hplace hlt hkind ih

theorem compactAfter_shortestAfter (hstorable : StorableAfter previous frames)
    (hinside : ∀ frame ∈ frames, frame.place < codeLength) :
    CompactAfter codeLength previous frames (shortestAfter previous frames) := by
  induction frames generalizing previous with
  | nil => exact .nil
  | cons frame frames ih =>
    obtain ⟨hafter, hrest⟩ := hstorable.of_cons
    obtain ⟨hinsideHead, hinsideRest⟩ := List.forall_mem_cons.mp hinside
    have hsmall := hstorable.small frame List.mem_cons_self
    have hfits := hstorable.fits frame List.mem_cons_self
    exact .cons (offsetAfter_gap hafter).symm hinsideHead
      (FrameKind.stored_shortest hfits ((gap_le previous frame.place).trans_lt hsmall))
      (FrameKind.compactForm_shortest hfits _) (ih hrest hinsideRest)

theorem CompactAfter.eq_shortestAfter (h : CompactAfter codeLength previous frames data) :
    data = shortestAfter previous frames := by
  induction h with
  | nil => rfl
  | cons hplace _ hkind hcompact _ ih =>
    rw [shortestAfter, hplace, gap_offsetAfter, ← hplace, ← hkind.eq_shortest hcompact, ← ih]

theorem StoredAfter.length_shortestAfter_le (h : StoredAfter codeLength previous frames data) :
    (shortestAfter previous frames).length ≤ data.length := by
  induction h with
  | nil => exact Nat.le_refl 0
  | cons hplace _ hkind _ ih =>
    rw [shortestAfter, hplace, gap_offsetAfter, ← hplace, List.length_append, List.length_append]
    exact Nat.add_le_add (FrameKind.length_shortest_le hkind) ih

end

/-- The frames of a table that was read ascend, and their numbers fit where the places do. -/
theorem StoredAfter.storable {codeLength : Nat} {previous : Option Nat} {frames : List (Frame Nat)}
    {data : List UInt8} (h : StoredAfter codeLength previous frames data) :
    (previous.toList ++ frames.map (·.place)).Pairwise (· < ·) ∧
      ∀ frame ∈ frames, frame.kind.Fits := by
  induction h with
  | nil =>
    refine ⟨?_, List.forall_mem_nil _⟩
    cases ‹Option Nat› <;> simp
  | @cons previous distance frame frames front back hplace _ hkind _ ih =>
    obtain ⟨hascending, hfits⟩ := ih
    refine ⟨?_, List.forall_mem_cons.mpr ⟨hkind.fits, hfits⟩⟩
    cases previous with
    | none => exact hascending
    | some before =>
      have hlt : before < frame.place := by
        rw [hplace, offsetAfter]
        omega
      refine List.pairwise_cons.mpr ⟨fun place hmem => ?_, hascending⟩
      rcases List.mem_cons.mp hmem with rfl | hmem
      · exact hlt
      · exact hlt.trans ((List.pairwise_cons.mp hascending).1 place hmem)

/-- A shortest table is read as its frames, and it is compact. -/
theorem readTable_shortestTable {codeLength : Nat} {frames : List (Frame Nat)}
    (hstorable : StorableAfter none frames) (hfew : frames.length < UInt16.size)
    (hinside : ∀ frame ∈ frames, frame.place < codeLength) :
    (readTable codeLength).runOn (shortestTable frames) = .ok frames ∧
      Compact codeLength (shortestTable frames) := by
  have hcompact := compactAfter_shortestAfter hstorable hinside
  exact ⟨(parsesAll_readTable codeLength).runOn.mpr ⟨hfew, _, hcompact.stored, rfl⟩,
    frames, _, hfew, hcompact, rfl⟩

/-- A table that was read is no shorter than the shortest form of its frames, and is that form if it
is compact. -/
theorem shortestTable_of_readTable {codeLength : Nat} {frames : List (Frame Nat)}
    {data : List UInt8} (h : (readTable codeLength).runOn data = .ok frames) :
    (shortestTable frames).length ≤ data.length ∧
      (Compact codeLength data → shortestTable frames = data) := by
  constructor
  · obtain ⟨-, body, hbody, rfl⟩ := (parsesAll_readTable codeLength).runOn.mp h
    rw [shortestTable, List.length_append, List.length_append]
    exact Nat.add_le_add_left hbody.length_shortestAfter_le _
  · intro hcompact
    obtain ⟨frames', body, hfew, hbody, rfl⟩ := hcompact
    have hread := (parsesAll_readTable codeLength).runOn.mpr ⟨hfew, body, hbody.stored, rfl⟩
    obtain rfl : frames = frames' := Except.ok.inj (h.symm.trans hread)
    rw [shortestTable, ← hbody.eq_shortestAfter]

section Placed

variable {places : Places}

theorem writeFrames_eq_shortestAfter {previous : Option Nat} {new : List (Frame Label)}
    {frames : List (Frame Nat)}
    (hplaced : List.Forall₂ (fun new frame => new.mapPlacesM (fun label => places[label]?) =
      some frame) new frames)
    (hstorable : StorableAfter previous frames) (acc : List (List UInt8)) :
    writeFrames places previous acc new =
      .ok (acc.reverse.flatten ++ shortestAfter previous frames) := by
  induction hplaced generalizing previous acc with
  | nil => rw [writeFrames, shortestAfter, List.append_nil]
  | @cons newFrame frame new frames hframe _ ih =>
    obtain ⟨kind, hkind, hframe⟩ := Option.bind_eq_some_iff.mp hframe
    obtain ⟨place, hplace, hframe⟩ := Option.bind_eq_some_iff.mp hframe
    cases hframe
    obtain ⟨hafter, hrest⟩ := hstorable.of_cons
    have hsmall : place < UInt16.size := hstorable.small _ List.mem_cons_self
    have hoffset : places.frameOffset newFrame.place = .ok place :=
      Places.frameOffset_eq_ok.mpr ⟨hplace, hsmall⟩
    have hbytes := bytes_kind hkind (hstorable.fits _ List.mem_cons_self) (gap previous place)
    calc writeFrames places previous acc (newFrame :: new)
      _ = writeFrames places (some place) (kind.shortest (gap previous place) :: acc) new := by
        rw [writeFrames, hoffset]
        show (distanceAfter previous place >>= fun distance => newFrame.kind.bytes places distance
          >>= fun data => writeFrames places (some place) (data :: acc) new) = _
        rw [distanceAfter_eq_gap hafter]
        show (newFrame.kind.bytes places (gap previous place) >>=
          fun data => writeFrames places (some place) (data :: acc) new) = _
        rw [hbytes]
        rfl
      _ = .ok (acc.reverse.flatten ++ shortestAfter previous (⟨place, kind⟩ :: frames)) := by
        rw [ih hrest, shortestAfter]
        simp

/-- A table is written in its shortest form. -/
theorem write_eq_shortestTable {new : List (Frame Label)} {frames : List (Frame Nat)}
    (hplaced : List.Forall₂ (fun new frame => new.mapPlacesM (fun label => places[label]?) =
      some frame) new frames)
    (hstorable : StorableAfter none frames) (hfew : frames.length < UInt16.size) :
    write new places = .ok (shortestTable frames) := by
  rw [write, if_neg (by rw [hplaced.length_eq]; exact Nat.not_le.mpr hfew), hplaced.length_eq,
    writeFrames_eq_shortestAfter hplaced hstorable []]
  rfl

end Placed

end FrameTable

section Moved

variable {m : LabelMap} {moved : Nat → Nat} {places : Places}

theorem LabelMap.MovesTo.fits_type (hmoves : m.MovesTo moved places) {type : VerificationType Nat}
    {new : VerificationType Label} (h : type.mapPlaceM m.get? = some new) :
    (type.map moved).Fits := by
  cases type with
  | uninitialized creation =>
    obtain ⟨label, hlabel, -⟩ := Option.bind_eq_some_iff.mp h
    exact (hmoves creation label hlabel).2
  | _ => trivial

theorem LabelMap.MovesTo.fits_types (hmoves : m.MovesTo moved places)
    {types : List (VerificationType Nat)} {new : List (VerificationType Label)}
    (h : types.mapM (·.mapPlaceM m.get?) = some new) :
    ∀ type ∈ types.map (·.map moved), type.Fits := by
  rw [Success.option_mapM] at h
  intro type htype
  obtain ⟨old, hold, rfl⟩ := List.mem_map.mp htype
  obtain ⟨new, -, hnew⟩ := exists_of_mem_left h hold
  exact hmoves.fits_type hnew

theorem LabelMap.MovesTo.fits_kind (hmoves : m.MovesTo moved places) {kind : FrameKind Nat}
    {new : FrameKind Label} (h : kind.mapPlacesM m.get? = some new) (hfits : kind.Fits) :
    (kind.map moved).Fits := by
  cases kind with
  | same => trivial
  | chop count => exact hfits
  | sameLocals stack =>
    obtain ⟨newStack, hstack, -⟩ := Option.bind_eq_some_iff.mp h
    exact hmoves.fits_type hstack
  | append locals =>
    obtain ⟨newLocals, hlocals, -⟩ := Option.bind_eq_some_iff.mp h
    exact ⟨by rw [List.length_map]; exact hfits.1, hmoves.fits_types hlocals⟩
  | full locals stack =>
    obtain ⟨newLocals, hlocals, h⟩ := Option.bind_eq_some_iff.mp h
    obtain ⟨newStack, hstack, -⟩ := Option.bind_eq_some_iff.mp h
    exact ⟨⟨by rw [List.length_map]; exact hfits.1.1, hmoves.fits_types hlocals⟩,
      by rw [List.length_map]; exact hfits.2.1, hmoves.fits_types hstack⟩

namespace FrameTable

/-- Frames that were read can be stored with their places moved: the order of the places is kept
between labels. -/
theorem storable_map {codeLength : Nat} {frames : List (Frame Nat)} {data : List UInt8}
    {new : List (Frame Label)} (hstored : StoredAfter codeLength none frames data)
    (hnew : List.Forall₂ (fun frame new => frame.mapPlacesM m.get? = some new) frames new)
    (hmoves : m.MovesTo moved places)
    (hmono : StrictMonoOn moved {place | ∃ label, m.get? place = some label}) :
    StorableAfter none (frames.map (·.map moved)) := by
  obtain ⟨hascending, hfits⟩ := hstored.storable
  have hlabel : ∀ frame ∈ frames, ∃ label, m.get? frame.place = some label := by
    intro frame hframe
    obtain ⟨new, -, hnew⟩ := exists_of_mem_left hnew hframe
    obtain ⟨kind, -, hnew⟩ := Option.bind_eq_some_iff.mp hnew
    obtain ⟨label, hlabel, -⟩ := Option.bind_eq_some_iff.mp hnew
    exact ⟨label, hlabel⟩
  refine ⟨?_, fun frame hframe => ?_, fun frame hframe => ?_⟩
  · have hpairs : frames.Pairwise fun a b => a.place < b.place := List.pairwise_map.mp hascending
    show ((frames.map (·.map moved)).map (·.place)).Pairwise (· < ·)
    rw [List.map_map, List.pairwise_map]
    exact hpairs.imp_of_mem fun ha hb hlt => hmono (hlabel _ ha) (hlabel _ hb) hlt
  · obtain ⟨old, hold, rfl⟩ := List.mem_map.mp hframe
    obtain ⟨label, hget⟩ := hlabel old hold
    exact (hmoves old.place label hget).2
  · obtain ⟨old, hold, rfl⟩ := List.mem_map.mp hframe
    obtain ⟨new, -, hnew⟩ := exists_of_mem_left hnew hold
    obtain ⟨kind, hkind, -⟩ := Option.bind_eq_some_iff.mp hnew
    exact hmoves.fits_kind hkind (hfits old hold)

/-- Frames that were read can be stored with their places moved, and are read as what they were
moved to. -/
theorem exists_write {codeLength newLength : Nat} {frames : List (Frame Nat)} {data : List UInt8}
    {new : List (Frame Label)} (hread : (readTable codeLength).runOn data = .ok frames)
    (hnew : List.Forall₂ (fun frame new => frame.mapPlacesM m.get? = some new) frames new)
    (hmoves : m.MovesTo moved places)
    (hmono : StrictMonoOn moved {place | ∃ label, m.get? place = some label})
    (hinside : ∀ frame ∈ frames, moved frame.place < newLength) :
    ∃ data', write new places = .ok data' ∧
      (readTable newLength).runOn data' = .ok (frames.map (·.map moved)) := by
  obtain ⟨hfew, body, hbody, rfl⟩ := (parsesAll_readTable codeLength).runOn.mp hread
  have hstorable := storable_map hbody hnew hmoves hmono
  have hplaced : List.Forall₂ (fun new frame => new.mapPlacesM (fun label => places[label]?) =
      some frame) new (frames.map (·.map moved)) := by
    rw [List.forall₂_map_right_iff]
    exact hnew.flip.imp fun new frame hframe =>
      Frame.mapPlacesM_map (fun place label hlabel => (hmoves place label hlabel).1) hframe
  have hfewMoved : (frames.map (·.map moved)).length < UInt16.size := by rwa [List.length_map]
  refine ⟨_, write_eq_shortestTable hplaced hstorable hfewMoved,
    (readTable_shortestTable hstorable hfewMoved fun frame hframe => ?_).1⟩
  obtain ⟨old, hold, rfl⟩ := List.mem_map.mp hframe
  exact hinside old hold

end FrameTable

end Moved

end ClassPatch.Code
