import Mathlib
import ClassPatch.Code.FrameTable
import ClassPatch.Proofs.Bytes.Reader
import ClassPatch.Proofs.Code.Labels

/-!
# Stored frames

Which bytes a stack map table is stored as, with offsets as places. A frame has its distance from
the frame before, so a table is stored from one offset to the next.
-/

namespace ClassPatch.Code

open Bytes Bytes.Reader

/-! ## Types -/

/-- The bytes of a type. -/
def VerificationType.stored : VerificationType Nat → List UInt8
  | .top => [0]
  | .integer => [1]
  | .float => [2]
  | .double => [3]
  | .long => [4]
  | .null => [5]
  | .uninitializedThis => [6]
  | .object index => 7 :: BigEndian.u16 index
  | .uninitialized creation => 8 :: BigEndian.bytes 2 creation

/-- The place of a type fits in two bytes. -/
def VerificationType.Fits : VerificationType Nat → Prop
  | .uninitialized creation => creation < UInt16.size
  | _ => True

theorem u16_ofNat {n : Nat} (h : n < UInt16.size) :
    BigEndian.u16 (UInt16.ofNat n) = BigEndian.bytes 2 n := by
  rw [BigEndian.u16, UInt16.toNat_ofNat_of_lt' h]

theorem sub_eq_ofNat {n : UInt8} (h : n.toNat ≤ 251) :
    251 - n = UInt8.ofNat (251 - n.toNat) := by
  have hsub : (251 - n).toNat = 251 - n.toNat :=
    UInt8.toNat_sub_of_le 251 n (UInt8.le_iff_toNat_le.mpr h)
  rw [← UInt8.toNat_inj, UInt8.toNat_ofNat']
  omega

/-- A type without an operand is known from its tag. -/
theorem parses_constantType {tag : UInt8} {type : VerificationType Nat} (hfits : type.Fits)
    (htag : ∀ type' data, tag :: data = VerificationType.stored type' ↔ type' = type ∧ data = []) :
    (Pure.pure type : Reader (VerificationType Nat)).Parses
      fun _ type data => type.Fits ∧ tag :: data = type.stored := by
  refine (Parses.pure type).congr fun pos type' data => ?_
  rw [htag]
  constructor
  · intro h
    obtain ⟨rfl, rfl⟩ := h
    exact ⟨hfits, rfl, rfl⟩
  · exact fun h => h.2

/-- The place of an object that is not initialized is the only part that has to fit. -/
theorem parses_uninitialized :
    (do return .uninitialized (← u16).toNat : Reader (VerificationType Nat)).Parses
      fun _ type data => type.Fits ∧ 8 :: data = type.stored := by
  refine (Parses.u16.map fun place => VerificationType.uninitialized place.toNat).congr
    fun pos type data => ?_
  constructor
  · intro h
    obtain ⟨place, rfl, rfl⟩ := h
    exact ⟨place.toNat_lt, rfl⟩
  · intro h
    obtain ⟨hfits, hdata⟩ := h
    cases type with
    | uninitialized creation =>
      refine ⟨UInt16.ofNat creation, ?_, ?_⟩
      · rw [u16_ofNat hfits]
        exact (List.cons.inj hdata).2
      · rw [UInt16.toNat_ofNat_of_lt' hfits]
    | _ => simp [VerificationType.stored] at hdata

theorem FrameTable.parses_readType :
    readType.Parses fun _ type data => type.Fits ∧ data = type.stored := by
  refine (Parses.u8.bind (G := fun tag _ type data => type.Fits ∧ tag :: data = type.stored)
    fun tag => ?_).congr fun pos type data => ?_
  · -- the seven types without an operand, in the order of their tags
    iterate 7
      refine .cases (fun htag => parses_constantType trivial fun type data => ?_) fun _ => ?_
      · subst htag
        cases type <;> simp [VerificationType.stored]
    refine .cases (fun htag => ?_) fun _ => .cases (fun htag => ?_) fun _ => ?_
    · subst htag
      refine (Parses.u16.map VerificationType.object).congr fun pos type data => ?_
      cases type <;> simp [VerificationType.stored, VerificationType.Fits]
    · subst htag
      exact parses_uninitialized
    · refine (Parses.malformed _).congr fun pos type data => iff_of_false id ?_
      intro h
      cases type <;> simp_all [VerificationType.stored]
  · constructor
    · intro h
      obtain ⟨tag, _, back, rfl, ⟨hfits, hback⟩, rfl⟩ := h
      exact ⟨hfits, hback⟩
    · intro h
      obtain ⟨hfits, rfl⟩ := h
      cases type <;> exact ⟨_, _, _, rfl, ⟨hfits, rfl⟩, rfl⟩

/-! ## Kinds -/

/-- The bytes of types one after the other. -/
def storedTypes (types : List (VerificationType Nat)) : List UInt8 :=
  types.flatMap VerificationType.stored

namespace FrameKind

/-- The tag of the form with a distance of two bytes. -/
def tag : FrameKind Nat → Nat
  | .same => 251
  | .sameLocals _ => 247
  | .chop count => 251 - count.toNat
  | .append locals => 251 + locals.length
  | .full _ _ => 255

/-- The bytes after the distance. -/
def types : FrameKind Nat → List UInt8
  | .same => []
  | .sameLocals stack => stack.stored
  | .chop _ => []
  | .append locals => storedTypes locals
  | .full locals stack =>
    BigEndian.bytes 2 locals.length ++ (storedTypes locals ++
      (BigEndian.bytes 2 stack.length ++ storedTypes stack))

/-- The numbers in a kind can be stored. -/
def Fits : FrameKind Nat → Prop
  | .same => True
  | .sameLocals stack => stack.Fits
  | .chop count => 1 ≤ count.toNat ∧ count.toNat ≤ 3
  | .append locals => (1 ≤ locals.length ∧ locals.length ≤ 3) ∧ ∀ type ∈ locals, type.Fits
  | .full locals stack =>
    (locals.length < UInt16.size ∧ ∀ type ∈ locals, type.Fits) ∧
      stack.length < UInt16.size ∧ ∀ type ∈ stack, type.Fits

/-- The stored forms of a kind at a distance from the frame before. -/
inductive Stored : Nat → FrameKind Nat → List UInt8 → Prop
  | same {distance : Nat} : distance < 64 → Stored distance .same [UInt8.ofNat distance]
  | sameLocals {distance : Nat} {stack : VerificationType Nat} :
      distance < 64 → stack.Fits →
      Stored distance (.sameLocals stack) (UInt8.ofNat (64 + distance) :: stack.stored)
  | far {distance : Nat} {kind : FrameKind Nat} : distance < UInt16.size → kind.Fits →
      Stored distance kind (UInt8.ofNat kind.tag :: (BigEndian.bytes 2 distance ++ kind.types))

theorem Stored.fits {distance : Nat} {kind : FrameKind Nat} {data : List UInt8}
    (h : kind.Stored distance data) : kind.Fits := by
  cases h with
  | same _ => trivial
  | sameLocals _ hstack => exact hstack
  | far _ hfits => exact hfits

theorem Fits.tag_bounds {kind : FrameKind Nat} (h : kind.Fits) :
    247 ≤ kind.tag ∧ kind.tag < 256 := by
  cases kind with
  | chop count =>
    have hhigh : count.toNat ≤ 3 := h.2
    show 247 ≤ 251 - count.toNat ∧ 251 - count.toNat < 256
    omega
  | append locals =>
    have hlength : locals.length ≤ 3 := h.1.2
    show 247 ≤ 251 + locals.length ∧ 251 + locals.length < 256
    omega
  | same => simp [tag]
  | sameLocals => simp [tag]
  | full => simp [tag]

theorem Fits.toNat_tag {kind : FrameKind Nat} (h : kind.Fits) :
    (UInt8.ofNat kind.tag).toNat = kind.tag :=
  UInt8.toNat_ofNat_of_lt' h.tag_bounds.2

end FrameKind

namespace FrameTable

theorem parses_readTypes (n : Nat) :
    (times n readType).Parses fun _ types data => types.length = n ∧
      (∀ type ∈ types, type.Fits) ∧ data = storedTypes types :=
  (parses_readType.times n).congr fun pos types data => by
    rw [Format.sequence_iff_flatMap, storedTypes]

theorem parses_countedTypes :
    (do times (← u16).toNat readType : Reader (List (VerificationType Nat))).Parses
      fun _ types data => (types.length < UInt16.size ∧ ∀ type ∈ types, type.Fits) ∧
        data = BigEndian.bytes 2 types.length ++ storedTypes types := by
  refine parses_readType.counted.congr fun pos types data => ?_
  simp only [Format.Counted, Format.sequence_iff_flatMap, storedTypes]
  constructor
  · intro h
    obtain ⟨hlength, body, ⟨hfits, rfl⟩, rfl⟩ := h
    exact ⟨⟨hlength, hfits⟩, rfl⟩
  · intro h
    obtain ⟨⟨hlength, hfits⟩, rfl⟩ := h
    exact ⟨hlength, _, ⟨hfits, rfl⟩, rfl⟩

/-- What follows a tag and a distance of two bytes. -/
def FarFormat (tag distance : Nat) : Format (Nat × FrameKind Nat) := fun _ p data =>
  p.1 = distance ∧ (p.2.Fits ∧ p.2.tag = tag) ∧ data = p.2.types

/-- A reader of one kind with a distance of two bytes: no other kind has the tag. -/
theorem parses_far {α : Type} {tag distance : Nat} {x : Reader α} {F : Format α}
    {f : α → FrameKind Nat} (hx : x.Parses F)
    (hf : ∀ pos kind data, (kind.Fits ∧ kind.tag = tag) ∧ data = kind.types ↔
      ∃ a, F pos a data ∧ kind = f a) :
    (do return (distance, f (← x)) : Reader (Nat × FrameKind Nat)).Parses
      (FarFormat tag distance) := by
  refine (hx.map fun a => (distance, f a)).congr fun pos p data => ?_
  obtain ⟨distance', kind⟩ := p
  rw [FarFormat, hf pos kind data]
  constructor
  · intro h
    obtain ⟨a, ha, hp⟩ := h
    cases hp
    exact ⟨rfl, a, ha, rfl⟩
  · intro h
    obtain ⟨rfl, a, ha, rfl⟩ := h
    exact ⟨a, ha, rfl⟩

/-- A kind without types is known from its tag. -/
theorem parses_constantFar {tag distance : Nat} {kind : FrameKind Nat}
    (hkind : ∀ kind' data, (kind'.Fits ∧ kind'.tag = tag) ∧ data = kind'.types ↔
      kind' = kind ∧ data = []) :
    (Pure.pure (distance, kind) : Reader (Nat × FrameKind Nat)).Parses
      (FarFormat tag distance) := by
  refine (Parses.pure _).congr fun pos p data => ?_
  obtain ⟨distance', kind'⟩ := p
  rw [FarFormat, hkind kind' data, Prod.mk.injEq, and_assoc]

/-- The kinds with a tag, one line for each reader of a kind. -/
theorem fits_and_tag_eq {kind : FrameKind Nat} {tag : Nat} :
    kind.Fits ∧ kind.tag = tag ↔ match kind with
      | .same => tag = 251
      | .sameLocals stack => tag = 247 ∧ stack.Fits
      | .chop count => (248 ≤ tag ∧ tag ≤ 250) ∧ count = UInt8.ofNat (251 - tag)
      | .append locals => (252 ≤ tag ∧ tag ≤ 254) ∧ locals.length = tag - 251 ∧
          ∀ type ∈ locals, type.Fits
      | .full locals stack => tag = 255 ∧ (locals.length < UInt16.size ∧ ∀ type ∈ locals, type.Fits) ∧
          stack.length < UInt16.size ∧ ∀ type ∈ stack, type.Fits := by
  cases kind with
  | same => simp [FrameKind.Fits, FrameKind.tag, eq_comm]
  | sameLocals stack => simp [FrameKind.Fits, FrameKind.tag, eq_comm, and_comm]
  | chop count =>
    have hcount : count = UInt8.ofNat (251 - tag) ↔ count.toNat = (251 - tag) % 256 := by
      rw [← UInt8.toNat_inj, UInt8.toNat_ofNat']
    simp only [FrameKind.Fits, FrameKind.tag, hcount]
    omega
  | append locals =>
    simp only [FrameKind.Fits, FrameKind.tag]
    constructor
    · intro h
      obtain ⟨⟨hlength, hfits⟩, rfl⟩ := h
      exact ⟨by omega, by omega, hfits⟩
    · intro h
      obtain ⟨htag, hlength, hfits⟩ := h
      exact ⟨⟨by omega, hfits⟩, by omega⟩
  | full locals stack => simp [FrameKind.Fits, FrameKind.tag, eq_comm, and_comm]

/-- The stored forms that start with a tag, by its range. -/
theorem stored_cons {distance : Nat} {kind : FrameKind Nat} {tag : UInt8} {data : List UInt8} :
    kind.Stored distance (tag :: data) ↔
      (tag.toNat < 64 ∧ distance = tag.toNat ∧ kind = .same ∧ data = []) ∨
      ((64 ≤ tag.toNat ∧ tag.toNat < 128) ∧ distance = tag.toNat - 64 ∧
        ∃ stack : VerificationType Nat, (stack.Fits ∧ data = stack.stored) ∧ kind = .sameLocals stack) ∨
      (247 ≤ tag.toNat ∧ distance < UInt16.size ∧ (kind.Fits ∧ kind.tag = tag.toNat) ∧
        data = BigEndian.bytes 2 distance ++ kind.types) := by
  constructor
  · intro h
    cases h with
    | same hnear =>
      have htag : (UInt8.ofNat distance).toNat = distance :=
        UInt8.toNat_ofNat_of_lt' (hnear.trans (by decide))
      exact .inl ⟨by omega, htag.symm, rfl, rfl⟩
    | sameLocals hnear hstack =>
      have htag : (UInt8.ofNat (64 + distance)).toNat = 64 + distance :=
        UInt8.toNat_ofNat_of_lt' (by show 64 + distance < 256; omega)
      exact .inr (.inl ⟨by omega, by omega, _, ⟨hstack, rfl⟩, rfl⟩)
    | far hdistance hfits =>
      have hlow := hfits.tag_bounds.1
      rw [hfits.toNat_tag]
      exact .inr (.inr ⟨hlow, hdistance, ⟨hfits, rfl⟩, rfl⟩)
  · intro h
    rcases h with ⟨hlow, rfl, rfl, rfl⟩ | ⟨htag, rfl, stack, ⟨hstack, rfl⟩, rfl⟩ |
      ⟨-, hdistance, ⟨hfits, htag⟩, rfl⟩
    · have hstored := FrameKind.Stored.same hlow
      rwa [UInt8.ofNat_toNat] at hstored
    · have hnear : tag.toNat - 64 < 64 := by omega
      have hstored := FrameKind.Stored.sameLocals hnear hstack
      rwa [Nat.add_sub_cancel' htag.1, UInt8.ofNat_toNat] at hstored
    · have hstored := FrameKind.Stored.far hdistance hfits
      rwa [htag, UInt8.ofNat_toNat] at hstored

/-- The tags of frames that take locals away, one for each number of locals. -/
theorem parses_farChop {tag : UInt8} (hlow : 248 ≤ tag.toNat) (hhigh : tag.toNat ≤ 250)
    (distance : Nat) : (Pure.pure (distance, .chop (251 - tag)) :
      Reader (Nat × FrameKind Nat)).Parses (FarFormat tag.toNat distance) := by
  refine parses_constantFar fun kind data => ?_
  rw [fits_and_tag_eq, sub_eq_ofNat (hhigh.trans (by decide))]
  cases kind with
  | chop count =>
    simp only [FrameKind.types, FrameKind.chop.injEq]
    constructor
    · exact fun h => ⟨h.1.2, h.2⟩
    · exact fun h => ⟨⟨⟨hlow, hhigh⟩, h.1⟩, h.2⟩
  | _ =>
    simp only [reduceCtorEq, false_and, iff_false]
    omega

/-- The tags of frames that add locals, one for each number of locals. -/
theorem parses_farAppend {tag : Nat} (hlow : 252 ≤ tag) (hhigh : tag ≤ 254) (distance : Nat) :
    (do return (distance, .append (← times (tag - 251) readType)) :
      Reader (Nat × FrameKind Nat)).Parses (FarFormat tag distance) := by
  refine parses_far (parses_readTypes _) fun pos kind data => ?_
  rw [fits_and_tag_eq]
  cases kind with
  | append locals =>
    simp only [FrameKind.types, FrameKind.append.injEq]
    constructor
    · intro h
      obtain ⟨⟨-, hlength, hfits⟩, hdata⟩ := h
      exact ⟨locals, ⟨hlength, hfits, hdata⟩, rfl⟩
    · intro h
      obtain ⟨_, ⟨hlength, hfits, hdata⟩, rfl⟩ := h
      exact ⟨⟨⟨hlow, hhigh⟩, hlength, hfits⟩, hdata⟩
  | _ =>
    simp only [reduceCtorEq, and_false, exists_false, iff_false]
    omega

/-- A frame with all its types, after their numbers. -/
theorem parses_farFull (distance : Nat) :
    (do
      let locals ← times (← u16).toNat readType
      let stack ← times (← u16).toNat readType
      return (distance, .full locals stack) : Reader (Nat × FrameKind Nat)).Parses
      (FarFormat 255 distance) := by
  have hread := parses_countedTypes.bind fun locals => parses_countedTypes.bind fun stack =>
    Parses.pure (distance, FrameKind.full locals stack)
  simp only [bind_assoc] at hread
  refine hread.congr fun pos p data => ?_
  obtain ⟨distance', kind⟩ := p
  simp only [FarFormat, fits_and_tag_eq]
  constructor
  · intro h
    obtain ⟨locals, _, _, ⟨hlocals, rfl⟩, ⟨stack, _, _, ⟨hstack, rfl⟩, ⟨hp, rfl⟩, rfl⟩, rfl⟩ := h
    cases hp
    refine ⟨rfl, ⟨trivial, hlocals, hstack⟩, ?_⟩
    simp [FrameKind.types]
  · intro h
    obtain ⟨rfl, hkind, rfl⟩ := h
    cases kind with
    | full locals stack =>
      obtain ⟨-, hlocals, hstack⟩ := hkind
      refine ⟨locals, _, _, ⟨hlocals, rfl⟩, ⟨stack, _, [], ⟨hstack, rfl⟩, ⟨rfl, rfl⟩, rfl⟩, ?_⟩
      simp [FrameKind.types]
    | _ => simp at hkind

theorem parses_readFar {tag : UInt8} (htag : 247 ≤ tag.toNat) (distance : Nat) :
    (if tag = 247 then return (distance, .sameLocals (← readType))
      else if tag < 251 then return (distance, .chop (251 - tag))
      else if tag = 251 then return (distance, .same)
      else if tag < 255 then return (distance, .append (← times (tag.toNat - 251) readType))
      else do
        let locals ← times (← u16).toNat readType
        let stack ← times (← u16).toNat readType
        return (distance, .full locals stack) : Reader (Nat × FrameKind Nat)).Parses
      (FarFormat tag.toNat distance) := by
  have hlt := tag.toNat_lt
  refine .cases (fun hlocals => ?_) fun hlocals => .cases (fun hchop => ?_) fun hchop =>
    .cases (fun hsame => ?_) fun hsame => .cases (fun happend => ?_) fun happend => ?_
  · subst hlocals
    refine parses_far parses_readType fun pos kind data => ?_
    rw [fits_and_tag_eq]
    cases kind <;> simp [FrameKind.types]
  · change tag.toNat < 251 at hchop
    rw [← UInt8.toNat_inj] at hlocals
    change ¬tag.toNat = 247 at hlocals
    exact parses_farChop (by omega) (by omega) distance
  · subst hsame
    refine parses_constantFar fun kind data => ?_
    rw [fits_and_tag_eq]
    cases kind <;> simp [FrameKind.types]
  · change tag.toNat < 255 at happend
    change ¬tag.toNat < 251 at hchop
    rw [← UInt8.toNat_inj] at hsame
    change ¬tag.toNat = 251 at hsame
    exact parses_farAppend (by omega) (by omega) distance
  · have hfull : tag.toNat = 255 := by
      change ¬tag.toNat < 255 at happend
      omega
    rw [hfull]
    exact parses_farFull distance

theorem parses_readKind :
    readKind.Parses fun _ p data => p.2.Stored p.1 data := by
  refine (Parses.u8.bind (G := fun tag _ p data => p.2.Stored p.1 (tag :: data))
    fun tag => .cases (fun hsame => ?_) fun hsame => .cases (fun hlocals => ?_) fun hlocals =>
      .cases (fun hnone => ?_) fun hnone => ?_).congr fun pos p data => ?_
  · change tag.toNat < 64 at hsame
    refine (Parses.pure _).congr fun pos p data => ?_
    obtain ⟨distance, kind⟩ := p
    rw [stored_cons, Prod.mk.injEq, and_assoc]
    constructor
    · exact fun h => .inl ⟨hsame, h⟩
    · rintro (h | h | h)
      · exact h.2
      · omega
      · omega
  · change tag.toNat < 128 at hlocals
    change ¬tag.toNat < 64 at hsame
    refine (parses_readType.map fun stack => (tag.toNat - 64, FrameKind.sameLocals stack)).congr
      fun pos p data => ?_
    obtain ⟨distance, kind⟩ := p
    rw [stored_cons]
    simp only [Prod.mk.injEq]
    constructor
    · intro h
      obtain ⟨stack, hstack, hdistance, hkind⟩ := h
      exact .inr (.inl ⟨by omega, hdistance, stack, hstack, hkind⟩)
    · rintro (h | ⟨-, hdistance, stack, hstack, hkind⟩ | h)
      · omega
      · exact ⟨stack, hstack, hdistance, hkind⟩
      · omega
  · change tag.toNat < 247 at hnone
    change ¬tag.toNat < 128 at hlocals
    refine (Parses.malformed _).congr fun pos p data => iff_of_false id ?_
    rw [stored_cons]
    omega
  · change ¬tag.toNat < 247 at hnone
    refine (Parses.u16.bind fun distance => parses_readFar (Nat.not_lt.mp hnone)
      distance.toNat).congr fun pos p data => ?_
    obtain ⟨distance, kind⟩ := p
    rw [stored_cons]
    constructor
    · intro h
      obtain ⟨word, _, back, rfl, ⟨hdistance, hkind, rfl⟩, rfl⟩ := h
      obtain rfl : distance = word.toNat := hdistance
      exact .inr (.inr ⟨by omega, word.toNat_lt, hkind, rfl⟩)
    · rintro (h | h | ⟨-, hdistance, hkind, rfl⟩)
      · omega
      · omega
      · refine ⟨UInt16.ofNat distance, _, _, rfl, ⟨?_, hkind, rfl⟩, ?_⟩
        · exact (UInt16.toNat_ofNat_of_lt' hdistance).symm
        · rw [u16_ofNat hdistance]
  · obtain ⟨distance, kind⟩ := p
    constructor
    · intro h
      obtain ⟨tag, _, back, rfl, hback, rfl⟩ := h
      exact hback
    · intro h
      obtain ⟨tag, rest, rfl⟩ : ∃ tag rest, data = tag :: rest := by
        cases h <;> exact ⟨_, _, rfl⟩
      exact ⟨tag, _, _, rfl, h, rfl⟩

/-! ## Tables -/

/-- Frames of code of a given length stored one after the other, the first one after `previous`. -/
inductive StoredAfter (codeLength : Nat) : Option Nat → List (Frame Nat) → List UInt8 → Prop
  | nil {previous : Option Nat} : StoredAfter codeLength previous [] []
  | cons {previous : Option Nat} {distance : Nat} {frame : Frame Nat} {frames : List (Frame Nat)}
        {front back : List UInt8} :
      frame.place = offsetAfter previous distance → frame.place < codeLength →
      frame.kind.Stored distance front → StoredAfter codeLength (some frame.place) frames back →
      StoredAfter codeLength previous (frame :: frames) (front ++ back)

theorem parses_readFrames {codeLength : Nat} (n : Nat) (acc : List (Frame Nat)) :
    (readFrames codeLength acc n).Parses fun _ frames data => ∃ new, frames = acc.reverse ++ new ∧
      new.length = n ∧ StoredAfter codeLength (acc.head?.map (·.place)) new data := by
  induction n generalizing acc with
  | zero =>
    refine (Parses.pure acc.reverse).congr fun pos frames data => ?_
    constructor
    · intro h
      obtain ⟨rfl, rfl⟩ := h
      exact ⟨[], by simp, rfl, .nil⟩
    · intro h
      obtain ⟨new, rfl, hlength, hnew⟩ := h
      obtain rfl := List.length_eq_zero_iff.mp hlength
      cases hnew
      exact ⟨List.append_nil _, rfl⟩
  | succ n ih =>
    refine (parses_readKind.bind (G := fun p _ frames data => ∃ new,
      frames = acc.reverse ++ (⟨offsetAfter (acc.head?.map (·.place)) p.1, p.2⟩ :: new) ∧
        new.length = n ∧ offsetAfter (acc.head?.map (·.place)) p.1 < codeLength ∧
        StoredAfter codeLength (some (offsetAfter (acc.head?.map (·.place)) p.1)) new data)
      fun p => .cases (fun hout => ?_) fun hin => ?_).congr fun pos frames data => ?_
    · refine (Parses.malformed _).congr fun pos frames data => iff_of_false id ?_
      intro h
      obtain ⟨_, -, -, hlt, -⟩ := h
      omega
    · refine (ih _).congr fun pos frames data => exists_congr fun new => ?_
      simp [Nat.not_le.mp hin]
    · constructor
      · intro h
        obtain ⟨p, front, back, hkind, ⟨new, rfl, hlength, hlt, hnew⟩, rfl⟩ := h
        exact ⟨_, rfl, by simp [hlength], .cons rfl hlt hkind hnew⟩
      · intro h
        obtain ⟨new, rfl, hlength, hnew⟩ := h
        cases hnew with
        | nil => cases hlength
        | @cons _ distance frame frames front back hplace hlt hkind hnew =>
          obtain ⟨place, kind⟩ := frame
          obtain rfl : place = _ := hplace
          exact ⟨(distance, kind), front, back, hkind,
            ⟨frames, rfl, by simpa using hlength, hlt, hnew⟩, rfl⟩

theorem parsesAll_readTable (codeLength : Nat) :
    (readTable codeLength).ParsesAll fun _ frames data => frames.length < UInt16.size ∧
      ∃ body, StoredAfter codeLength none frames body ∧
        data = BigEndian.bytes 2 frames.length ++ body := by
  refine (Parses.u16.bindAll fun count => (parses_readFrames count.toNat []).bindAll fun frames =>
    ParsesAll.atEnd frames _ fun _ _ _ => malformed_ne_ok).congr fun pos frames data => ?_
  constructor
  · intro h
    obtain ⟨count, _, _, rfl, ⟨_, body, _, ⟨new, hread, hlength, hnew⟩, ⟨rfl, rfl⟩, rfl⟩, rfl⟩ := h
    obtain rfl : frames = new := hread
    refine ⟨hlength ▸ count.toNat_lt, body, hnew, ?_⟩
    rw [List.append_nil, BigEndian.u16, hlength]
  · intro h
    obtain ⟨hlength, body, hbody, rfl⟩ := h
    have hcount : (UInt16.ofNat frames.length).toNat = frames.length :=
      UInt16.toNat_ofNat_of_lt' hlength
    refine ⟨UInt16.ofNat frames.length, _, body, rfl, ⟨frames, body, [], ⟨frames, rfl, hcount.symm,
      hbody⟩, ⟨rfl, rfl⟩, (List.append_nil _).symm⟩, ?_⟩
    rw [u16_ofNat hlength]

theorem place_lt_of_runOn {codeLength : Nat} {data : List UInt8} {frames : List (Frame Nat)}
    (h : (readTable codeLength).runOn data = .ok frames) : ∀ frame ∈ frames,
      frame.place < codeLength := by
  obtain ⟨-, body, hbody, -⟩ := (parsesAll_readTable codeLength).runOn.mp h
  have hall {previous : Option Nat} {frames : List (Frame Nat)} {body : List UInt8}
      (h : StoredAfter codeLength previous frames body) :
      ∀ frame ∈ frames, frame.place < codeLength := by
    induction h with
    | nil =>
      intro frame hframe
      cases hframe
    | cons _ hlt _ _ ih => exact List.forall_mem_cons.mpr ⟨hlt, ih⟩
  exact hall hbody

end FrameTable

end ClassPatch.Code
