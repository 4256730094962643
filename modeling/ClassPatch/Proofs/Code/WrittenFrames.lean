import Mathlib
import ClassPatch.Proofs.MethodBody.Tables

/-!
# Written frames

What is read back from a stack map table that was written. Writing puts places for labels, reading
puts labels of its own for places, so the frames are the same ones up to the labels.
-/

namespace ClassPatch.Code

open Bytes Bytes.Reader

section Placed

variable {places : Places}

theorem placed_of_bytes_type {type : VerificationType Label} {data : List UInt8}
    (h : type.bytes places = .ok data) : ∃ placed : VerificationType Nat,
      type.mapPlaceM (fun label => places[label]?) = some placed ∧ placed.Fits := by
  cases type with
  | uninitialized creation =>
    obtain ⟨place, hoffset, -⟩ := Success.except_bind.mp h
    obtain ⟨hplace, hsmall⟩ := Places.frameOffset_eq_ok.mp hoffset
    exact ⟨.uninitialized place, Option.bind_eq_some_iff.mpr ⟨place, hplace, rfl⟩, hsmall⟩
  | _ => exact ⟨_, rfl, trivial⟩

theorem placed_of_typeBytes {types : List (VerificationType Label)} {data : List UInt8}
    (h : FrameTable.typeBytes places types = .ok data) : ∃ placed : List (VerificationType Nat),
      types.mapM (·.mapPlaceM fun label => places[label]?) = some placed ∧
        types.length = placed.length ∧ ∀ type ∈ placed, type.Fits := by
  obtain ⟨parts, hparts, -⟩ := Success.except_bind.mp h
  have hplaced : ∃ placed : List (VerificationType Nat),
      List.Forall₂ (fun type placed => type.mapPlaceM (fun label => places[label]?) = some placed)
        types placed ∧ ∀ type ∈ placed, type.Fits := by
    rw [Success.except_mapM] at hparts
    clear h
    induction hparts with
    | nil => exact ⟨[], .nil, List.forall_mem_nil _⟩
    | @cons type front types parts htype _ ih =>
      obtain ⟨placed, hplaced, hfits⟩ := placed_of_bytes_type htype
      obtain ⟨rest, hrest, hrestFits⟩ := ih
      exact ⟨placed :: rest, .cons hplaced hrest, List.forall_mem_cons.mpr ⟨hfits, hrestFits⟩⟩
  obtain ⟨placed, hplaced, hfits⟩ := hplaced
  exact ⟨placed, Success.option_mapM.mpr hplaced, hplaced.length_eq, hfits⟩

/-- The lists of types are no longer than their stored lengths can say. -/
def FrameKind.ListsFit {τ : Type} : FrameKind τ → Prop
  | .full locals stack => locals.length < UInt16.size ∧ stack.length < UInt16.size
  | _ => True

/-- The labels of a kind that is written have places, and the numbers of the kind fit. -/
theorem placed_of_bytes_kind {kind : FrameKind Label} {distance : Nat} {data : List UInt8}
    (hlists : kind.ListsFit) (h : kind.bytes places distance = .ok data) :
    ∃ placed : FrameKind Nat,
      kind.mapPlacesM (fun label => places[label]?) = some placed ∧ placed.Fits := by
  cases kind with
  | same => exact ⟨.same, rfl, trivial⟩
  | sameLocals stack =>
    obtain ⟨front, hfront, -⟩ := Success.except_bind.mp h
    obtain ⟨placed, hplaced, hfits⟩ := placed_of_bytes_type hfront
    exact ⟨.sameLocals placed, Option.bind_eq_some_iff.mpr ⟨placed, hplaced, rfl⟩, hfits⟩
  | chop count =>
    rw [FrameKind.bytes] at h
    by_cases hcount : 1 ≤ count ∧ count ≤ 3
    · exact ⟨.chop count, rfl, hcount⟩
    · rw [if_neg hcount] at h
      cases h
  | append locals =>
    rw [FrameKind.bytes] at h
    by_cases hcount : 1 ≤ locals.length ∧ locals.length ≤ 3
    · rw [if_pos hcount] at h
      obtain ⟨back, hback, -⟩ := Success.except_bind.mp h
      obtain ⟨placed, hplaced, hlength, hfits⟩ := placed_of_typeBytes hback
      exact ⟨.append placed, Option.bind_eq_some_iff.mpr ⟨placed, hplaced, rfl⟩,
        hlength ▸ hcount, hfits⟩
    · rw [if_neg hcount] at h
      cases h
  | full locals stack =>
    obtain ⟨localBytes, hlocals, h⟩ := Success.except_bind.mp h
    obtain ⟨stackBytes, hstack, -⟩ := Success.except_bind.mp h
    obtain ⟨newLocals, hnewLocals, hlocalsLength, hlocalsFit⟩ := placed_of_typeBytes hlocals
    obtain ⟨newStack, hnewStack, hstackLength, hstackFits⟩ := placed_of_typeBytes hstack
    obtain ⟨hlocalsFew, hstackFew⟩ := hlists
    exact ⟨.full newLocals newStack, Option.bind_eq_some_iff.mpr ⟨newLocals, hnewLocals,
      Option.bind_eq_some_iff.mpr ⟨newStack, hnewStack, rfl⟩⟩,
      ⟨hlocalsLength ▸ hlocalsFew, hlocalsFit⟩, hstackLength ▸ hstackFew, hstackFits⟩

/-- A kind is written as one of the stored forms of the kind with the places of its labels. -/
theorem stored_of_bytes_kind {kind : FrameKind Label} {distance : Nat} {data : List UInt8}
    (hlists : kind.ListsFit) (hdistance : distance < UInt16.size)
    (h : kind.bytes places distance = .ok data) : ∃ placed : FrameKind Nat,
      kind.mapPlacesM (fun label => places[label]?) = some placed ∧
        placed.Stored distance data := by
  obtain ⟨placed, hplaced, hfits⟩ := placed_of_bytes_kind hlists h
  rw [bytes_kind hplaced hfits distance] at h
  cases h
  exact ⟨placed, hplaced, FrameKind.stored_shortest hfits hdistance⟩

namespace FrameTable

/-- A distance leads from the frame before to the frame it was computed for. -/
theorem offsetAfter_of_distanceAfter {previous : Option Nat} {place distance : Nat}
    (h : distanceAfter previous place = .ok distance) :
    place = offsetAfter previous distance ∧ distance ≤ place := by
  cases previous with
  | none =>
    cases h
    exact ⟨rfl, Nat.le_refl _⟩
  | some before =>
    rw [distanceAfter] at h
    by_cases hlt : before < place
    · rw [if_pos hlt] at h
      cases h
      rw [offsetAfter]
      omega
    · rw [if_neg hlt] at h
      cases h

/-- The frames that are left to write follow those that are written. -/
theorem storedAfter_of_writeFrames {codeLength : Nat} {previous : Option Nat}
    {acc : List (List UInt8)} {frames : List (Frame Label)} {data : List UInt8}
    (hlists : ∀ frame ∈ frames, frame.kind.ListsFit)
    (hinside : ∀ frame ∈ frames, ∀ place, places[frame.place]? = some place → place < codeLength)
    (h : writeFrames places previous acc frames = .ok data) : ∃ body placed,
      data = acc.reverse.flatten ++ body ∧
        List.Forall₂ (fun frame placed => frame.mapPlacesM (fun label => places[label]?) =
          some placed) frames placed ∧
        StoredAfter codeLength previous placed body := by
  induction frames generalizing previous acc with
  | nil =>
    cases h
    exact ⟨[], [], (List.append_nil _).symm, .nil, .nil⟩
  | cons frame rest ih =>
    obtain ⟨hlistsHead, hlistsRest⟩ := List.forall_mem_cons.mp hlists
    obtain ⟨hinsideHead, hinsideRest⟩ := List.forall_mem_cons.mp hinside
    obtain ⟨place, hoffset, h⟩ := Success.except_bind.mp h
    obtain ⟨distance, hdistance, h⟩ := Success.except_bind.mp h
    obtain ⟨front, hfront, h⟩ := Success.except_bind.mp h
    obtain ⟨hplace, hsmall⟩ := Places.frameOffset_eq_ok.mp hoffset
    -- a distance fits in two bytes because the place does
    obtain ⟨hafter, hle⟩ := offsetAfter_of_distanceAfter hdistance
    obtain ⟨kind, hkind, hstored⟩ :=
      stored_of_bytes_kind hlistsHead (hle.trans_lt hsmall) hfront
    obtain ⟨body, placed, rfl, hplaced, hbody⟩ := ih hlistsRest hinsideRest h
    have hframe : frame.mapPlacesM (fun label => places[label]?) = some ⟨place, kind⟩ :=
      Option.bind_eq_some_iff.mpr ⟨kind, hkind, Option.bind_eq_some_iff.mpr ⟨place, hplace, rfl⟩⟩
    refine ⟨front ++ body, ⟨place, kind⟩ :: placed, ?_, .cons hframe hplaced,
      .cons hafter (hinsideHead place hplace) hstored hbody⟩
    simp

/-- A written table is read as the frames at the places of their labels. -/
theorem readTable_of_write {codeLength : Nat} {frames : List (Frame Label)} {data : List UInt8}
    (hlists : ∀ frame ∈ frames, frame.kind.ListsFit)
    (hinside : ∀ frame ∈ frames, ∀ place, places[frame.place]? = some place → place < codeLength)
    (h : write frames places = .ok data) : ∃ placed,
      (readTable codeLength).runOn data = .ok placed ∧
        List.Forall₂ (fun frame placed => frame.mapPlacesM (fun label => places[label]?) =
          some placed) frames placed := by
  rw [write] at h
  by_cases hmany : UInt16.size ≤ frames.length
  · rw [if_pos hmany] at h
    cases h
  · rw [if_neg hmany] at h
    obtain ⟨body, hbody, hdata⟩ := Success.except_bind.mp h
    cases hdata
    obtain ⟨_, placed, rfl, hplaced, hstored⟩ :=
      storedAfter_of_writeFrames hlists hinside hbody
    have hlength : frames.length = placed.length := hplaced.length_eq
    rw [hlength] at hmany ⊢
    exact ⟨placed, (parsesAll_readTable codeLength).runOn.mpr ⟨Nat.not_le.mp hmany, _, hstored, rfl⟩,
      hplaced⟩

end FrameTable

end Placed

/-! ## Labels of places -/

section Composition

variable {τ υ ω : Type} {f : τ → Option υ} {g : υ → Option ω}

theorem VerificationType.mapPlaceM_bind {type : VerificationType τ} {mid : VerificationType υ}
    {new : VerificationType ω} (h : type.mapPlaceM f = some mid) (h' : mid.mapPlaceM g = some new) :
    type.mapPlaceM (fun place => f place >>= g) = some new := by
  cases type with
  | uninitialized creation =>
    obtain ⟨place, hplace, hmid⟩ := Option.bind_eq_some_iff.mp h
    cases hmid
    obtain ⟨label, hlabel, hnew⟩ := Option.bind_eq_some_iff.mp h'
    cases hnew
    exact Option.bind_eq_some_iff.mpr ⟨label, Option.bind_eq_some_iff.mpr ⟨place, hplace, hlabel⟩,
      rfl⟩
  | _ =>
    cases h
    exact h'

theorem mapM_mapPlaceM_bind {types : List (VerificationType τ)} {mid : List (VerificationType υ)}
    {new : List (VerificationType ω)} (h : types.mapM (·.mapPlaceM f) = some mid)
    (h' : mid.mapM (·.mapPlaceM g) = some new) :
    types.mapM (·.mapPlaceM fun place => f place >>= g) = some new := by
  rw [Success.option_mapM] at h h' ⊢
  refine (forall₂_comp h h').imp fun type new htype => ?_
  obtain ⟨mid, hmid, hnew⟩ := htype
  exact VerificationType.mapPlaceM_bind hmid hnew

theorem FrameKind.mapPlacesM_bind {kind : FrameKind τ} {mid : FrameKind υ} {new : FrameKind ω}
    (h : kind.mapPlacesM f = some mid) (h' : mid.mapPlacesM g = some new) :
    kind.mapPlacesM (fun place => f place >>= g) = some new := by
  cases kind with
  | same =>
    cases h
    exact h'
  | chop count =>
    cases h
    exact h'
  | sameLocals stack =>
    obtain ⟨midStack, hmidStack, hmid⟩ := Option.bind_eq_some_iff.mp h
    cases hmid
    obtain ⟨newStack, hnewStack, hnew⟩ := Option.bind_eq_some_iff.mp h'
    exact Option.bind_eq_some_iff.mpr
      ⟨newStack, VerificationType.mapPlaceM_bind hmidStack hnewStack, hnew⟩
  | append locals =>
    obtain ⟨midLocals, hmidLocals, hmid⟩ := Option.bind_eq_some_iff.mp h
    cases hmid
    obtain ⟨newLocals, hnewLocals, hnew⟩ := Option.bind_eq_some_iff.mp h'
    exact Option.bind_eq_some_iff.mpr
      ⟨newLocals, mapM_mapPlaceM_bind hmidLocals hnewLocals, hnew⟩
  | full locals stack =>
    obtain ⟨midLocals, hmidLocals, h⟩ := Option.bind_eq_some_iff.mp h
    obtain ⟨midStack, hmidStack, hmid⟩ := Option.bind_eq_some_iff.mp h
    cases hmid
    obtain ⟨newLocals, hnewLocals, h'⟩ := Option.bind_eq_some_iff.mp h'
    obtain ⟨newStack, hnewStack, hnew⟩ := Option.bind_eq_some_iff.mp h'
    exact Option.bind_eq_some_iff.mpr ⟨newLocals, mapM_mapPlaceM_bind hmidLocals hnewLocals,
      Option.bind_eq_some_iff.mpr ⟨newStack, mapM_mapPlaceM_bind hmidStack hnewStack, hnew⟩⟩

theorem Frame.mapPlacesM_bind {frame : Frame τ} {mid : Frame υ} {new : Frame ω}
    (h : frame.mapPlacesM f = some mid) (h' : mid.mapPlacesM g = some new) :
    frame.mapPlacesM (fun place => f place >>= g) = some new := by
  obtain ⟨midKind, hmidKind, h⟩ := Option.bind_eq_some_iff.mp h
  obtain ⟨midPlace, hmidPlace, hmid⟩ := Option.bind_eq_some_iff.mp h
  cases hmid
  obtain ⟨newKind, hnewKind, h'⟩ := Option.bind_eq_some_iff.mp h'
  obtain ⟨newPlace, hnewPlace, hnew⟩ := Option.bind_eq_some_iff.mp h'
  exact Option.bind_eq_some_iff.mpr ⟨newKind, FrameKind.mapPlacesM_bind hmidKind hnewKind,
    Option.bind_eq_some_iff.mpr ⟨newPlace,
      Option.bind_eq_some_iff.mpr ⟨midPlace, hmidPlace, hnewPlace⟩, hnew⟩⟩

end Composition

namespace FrameTable

/-- Parsing is reading, and then giving the places their labels. -/
theorem parse_of_readTable {codeLength : Nat} {data : List UInt8} {read : List (Frame Nat)}
    (h : (readTable codeLength).runOn data = .ok read) (labels : LabelMap) : ∃ parsed labels',
      parse data codeLength labels = .ok (parsed, labels') ∧ labels.Grows labels' ∧
        List.Forall₂ (Frame.Labels labels') read parsed := by
  obtain ⟨hgrows, hlabels⟩ := Labelling.gives_mapM gives_mapPlacesM_frame read labels
  refine ⟨_, _, ?_, hgrows, hlabels _ (.refl _)⟩
  rw [parse, h]
  rfl

/-- A written table is parsed as the same frames in the same order, each with the label of the place
of its label. -/
theorem parse_of_write {places : Places} {frames : List (Frame Label)} {data : List UInt8}
    {codeLength : Nat} (hlists : ∀ frame ∈ frames, frame.kind.ListsFit)
    (hinside : ∀ frame ∈ frames, ∀ place, places[frame.place]? = some place → place < codeLength)
    (hwrite : write frames places = .ok data) : ∃ parsed labels,
      parse data codeLength .empty = .ok (parsed, labels) ∧ labels.Distinct ∧
        List.Forall₂ (fun frame read =>
          frame.mapPlacesM (fun label => places[label]? >>= labels.get?) = some read)
          frames parsed := by
  obtain ⟨placed, hread, hplaced⟩ := readTable_of_write hlists hinside hwrite
  obtain ⟨parsed, labels, hparse, hgrows, hlabels⟩ := parse_of_readTable hread .empty
  refine ⟨parsed, labels, hparse, hgrows.distinct LabelMap.distinct_empty, ?_⟩
  refine (forall₂_comp hplaced hlabels).imp fun frame read hframe => ?_
  obtain ⟨mid, hmid, hnew⟩ := hframe
  exact Frame.mapPlacesM_bind hmid hnew

/-- Frames at the last distance with a short form, at the first one without and far away, the later
ones with objects that are created at places with and without a frame. -/
def spreadFrames : List (Frame Label) :=
  [⟨⟨0⟩, .same⟩, ⟨⟨1⟩, .sameLocals (.uninitialized ⟨3⟩)⟩,
    ⟨⟨2⟩, .full [.object 2, .long] [.uninitialized ⟨0⟩]⟩]

/-- The places of the labels in `spreadFrames`. -/
def spreadPlaces : Places :=
  Std.HashMap.ofList [(⟨0⟩, 63), (⟨1⟩, 128), (⟨2⟩, 1000), (⟨3⟩, 5)]

theorem parse_of_write_spread :
    write spreadFrames spreadPlaces = .ok [0, 3, 63, 247, 0, 64, 8, 0, 5,
        255, 3, 103, 0, 2, 7, 0, 2, 4, 0, 1, 8, 0, 63] ∧
      ∃ parsed labels,
        parse [0, 3, 63, 247, 0, 64, 8, 0, 5, 255, 3, 103, 0, 2, 7, 0, 2, 4, 0, 1, 8, 0, 63] 1001
          .empty = .ok (parsed, labels) ∧ labels.Distinct ∧
        List.Forall₂ (fun frame read =>
          frame.mapPlacesM (fun label => spreadPlaces[label]? >>= labels.get?) = some read)
          spreadFrames parsed := by
  have hplace (entry : Label × Nat) (hentry : entry ∈ [(⟨0⟩, 63), (⟨1⟩, 128), (⟨2⟩, 1000), (⟨3⟩, 5)]) :
      spreadPlaces[entry.1]? = some entry.2 :=
    Std.HashMap.getElem?_ofList_of_mem (beq_self_eq_true _) (by decide) hentry
  have h0 : spreadPlaces[(⟨0⟩ : Label)]? = some 63 := hplace (⟨0⟩, 63) (by decide)
  have h1 : spreadPlaces[(⟨1⟩ : Label)]? = some 128 := hplace (⟨1⟩, 128) (by decide)
  have h2 : spreadPlaces[(⟨2⟩ : Label)]? = some 1000 := hplace (⟨2⟩, 1000) (by decide)
  have h3 : spreadPlaces[(⟨3⟩ : Label)]? = some 5 := hplace (⟨3⟩, 5) (by decide)
  have hwrite : write spreadFrames spreadPlaces = .ok [0, 3, 63, 247, 0, 64, 8, 0, 5,
      255, 3, 103, 0, 2, 7, 0, 2, 4, 0, 1, 8, 0, 63] := by
    simp only [write, spreadFrames, writeFrames, FrameKind.bytes, typeBytes, List.mapM_cons,
      List.mapM_nil, VerificationType.bytes, Places.frameOffset, h0, h1, h2, h3]
    decide
  refine ⟨hwrite, parse_of_write ?_ ?_ hwrite⟩
  · simp [spreadFrames, FrameKind.ListsFit, UInt16.size]
  · simp [spreadFrames, h0, h1, h2]

end FrameTable

end ClassPatch.Code
