import Mathlib
import ClassPatch.Proofs.Code.Labels
import ClassPatch.Proofs.Code.Rounds

/-!
# Layout — what assembled code reads as

Code that was laid out from nodes is taken apart into the instructions of the nodes, in
their order. `ReadsAs` lists the differences that closing the offsets and widening
branches make to one instruction, and `LaidOut` walks the nodes with the instructions
that are read for them and the offset of each label.
-/

namespace ClassPatch.Code

open Bytes

/-! ## Closed offsets -/

/-- The bytes of pieces once all labels have their places. -/
def Resolved (places : Places) (pieces : List Piece) (data : List UInt8) : Prop :=
  ∃ parts, pieces.mapM (Piece.resolve places) = .ok parts ∧ data = parts.flatten

@[simp] theorem resolved_nil {places : Places} {data : List UInt8} :
    Resolved places [] data ↔ data = [] := by
  simp [Resolved, Success.except_pure]

theorem resolved_cons {places : Places} {piece : Piece} {pieces : List Piece}
    {data : List UInt8} :
    Resolved places (piece :: pieces) data ↔ ∃ front back,
      piece.resolve places = .ok front ∧ Resolved places pieces back ∧ data = front ++ back := by
  simp only [Resolved, Success.except_mapM, List.forall₂_cons_left_iff]
  constructor
  · intro h
    obtain ⟨_, ⟨front, parts, hfront, hparts, rfl⟩, rfl⟩ := h
    exact ⟨front, _, hfront, ⟨parts, hparts, rfl⟩, rfl⟩
  · intro h
    obtain ⟨front, _, hfront, ⟨parts, hparts, rfl⟩, rfl⟩ := h
    exact ⟨_, ⟨front, parts, hfront, hparts, rfl⟩, rfl⟩

theorem resolved_append {places : Places} {first second : List Piece} {data : List UInt8} :
    Resolved places (first ++ second) data ↔ ∃ front back,
      Resolved places first front ∧ Resolved places second back ∧ data = front ++ back := by
  induction first generalizing data with
  | nil => simp
  | cons piece pieces ih =>
    simp only [List.cons_append, resolved_cons, ih]
    constructor
    · intro h
      obtain ⟨front, _, hfront, ⟨middle, back, hmiddle, hback, rfl⟩, rfl⟩ := h
      exact ⟨_, back, ⟨front, middle, hfront, hmiddle, rfl⟩, hback, by simp⟩
    · intro h
      obtain ⟨_, back, ⟨front, middle, hfront, hmiddle, rfl⟩, hback, rfl⟩ := h
      exact ⟨front, _, hfront, ⟨middle, back, hmiddle, hback, rfl⟩, by simp⟩

@[simp] theorem resolve_bytes {places : Places} {stored data : List UInt8} :
    (Piece.bytes stored).resolve places = .ok data ↔ data = stored := by
  simp [Piece.resolve, eq_comm]

theorem distance_eq_ok {places : Places} {target : Label} {origin : Nat} {distance : Int} :
    places.distance target origin = .ok distance ↔
      ∃ place : Nat, places[target]? = some place ∧ distance = (place : Int) - origin := by
  unfold Places.distance
  cases places[target]? with
  | none => simp [refuse]
  | some place => simp [eq_comm]

theorem resolve_offset16 {places : Places} {target : Label} {origin : Nat}
    {data : List UInt8} :
    (Piece.offset16 target origin).resolve places = .ok data ↔
      ∃ place : Nat, places[target]? = some place ∧ -0x8000 ≤ (place : Int) - origin ∧
        (place : Int) - origin < 0x8000 ∧ data = offset16 origin place := by
  simp only [Piece.resolve, Success.except_bind, distance_eq_ok]
  constructor
  · intro h
    obtain ⟨_, ⟨place, hplace, rfl⟩, h⟩ := h
    split at h
    · rename_i hshort
      rw [Success.except_pure] at h
      simp only [isShort, Bool.and_eq_true, decide_eq_true_eq] at hshort
      exact ⟨place, hplace, hshort.1, hshort.2, h⟩
    · cases h
  · intro h
    obtain ⟨place, hplace, hlow, hhigh, rfl⟩ := h
    have hshort : isShort ((place : Int) - origin) = true := by simp [isShort, hlow, hhigh]
    refine ⟨_, ⟨place, hplace, rfl⟩, ?_⟩
    rw [if_pos hshort, Success.except_pure]
    rfl

theorem resolve_offset32 {places : Places} {target : Label} {origin : Nat}
    {data : List UInt8} :
    (Piece.offset32 target origin).resolve places = .ok data ↔
      ∃ place : Nat, places[target]? = some place ∧ -0x80000000 ≤ (place : Int) - origin ∧
        (place : Int) - origin < 0x80000000 ∧ data = offset32 origin place := by
  simp only [Piece.resolve, Success.except_bind, distance_eq_ok]
  constructor
  · intro h
    obtain ⟨_, ⟨place, hplace, rfl⟩, h⟩ := h
    split at h
    · rename_i hfit
      rw [Success.except_pure] at h
      exact ⟨place, hplace, hfit.1, hfit.2, h⟩
    · cases h
  · intro h
    obtain ⟨place, hplace, hlow, hhigh, rfl⟩ := h
    refine ⟨_, ⟨place, hplace, rfl⟩, ?_⟩
    rw [if_pos ⟨hlow, hhigh⟩, Success.except_pure]
    rfl

theorem length_resolved {places : Places} {pieces : List Piece} {data : List UInt8}
    (h : Resolved places pieces data) : data.length = piecesSize pieces := by
  induction pieces generalizing data with
  | nil => simp [resolved_nil.mp h]
  | cons piece pieces ih =>
    obtain ⟨front, back, hfront, hback, rfl⟩ := resolved_cons.mp h
    rw [List.length_append, ih hback, piecesSize_cons]
    congr 1
    cases piece with
    | bytes stored => rw [resolve_bytes.mp hfront, Piece.size]
    | offset16 target origin =>
      obtain ⟨place, -, -, -, rfl⟩ := resolve_offset16.mp hfront
      simp [Piece.size]
    | offset32 target origin =>
      obtain ⟨place, -, -, -, rfl⟩ := resolve_offset32.mp hfront
      simp [Piece.size]

/-- Finished code holds all pieces and is no longer than a method may be. -/
theorem finish_eq_ok {a : Assembler} {result : Assembled} :
    a.finish = .ok result ↔ a.size ≤ maxCodeLength ∧
      Resolved a.places a.pieces.toList result.code ∧ result.places = a.places := by
  obtain ⟨code, places⟩ := result
  unfold Assembler.finish
  by_cases hsize : maxCodeLength < a.size
  · simp [hsize, refuse, Nat.not_le.mpr hsize]
  · rw [if_neg hsize, Success.except_bind]
    simp only [Success.except_pure, Assembled.mk.injEq, Resolved, Nat.not_lt.mp hsize, true_and]
    constructor
    · intro h
      obtain ⟨parts, hparts, hcode, hplaces⟩ := h
      exact ⟨⟨parts, hparts, hcode⟩, hplaces⟩
    · intro h
      obtain ⟨⟨parts, hparts, hcode⟩, hplaces⟩ := h
      exact ⟨parts, hparts, hcode, hplaces⟩

/-! ## Instructions that are read back -/

/-- The instructions that one instruction may be read as, and the offset after them. All
but the last case keep the number of instructions. -/
inductive ReadsAs (widening : BranchWidening) (places : Places) (offset : Nat)
    (i : Instruction Label) : List (Located Nat) → Nat → Prop
  /-- The instruction itself with the places of its targets. -/
  | same {read : Instruction Nat} {next : Nat} :
      i.mapTargetsM (places[·]?) = some read →
      ReadsAs widening places offset i [⟨offset, read⟩] next
  /-- A constant whose index does not fit in one byte. -/
  | wideConstant {index : UInt16} {next : Nat} :
      i = .ofConstant Opcode.ldc index → 255 < index →
      ReadsAs widening places offset i [⟨offset, .ofConstant Opcode.ldcW index⟩] next
  /-- A jump or a subroutine call with a four-byte offset. -/
  | wideJump {jump : UInt8} {target : Label} {place next : Nat} :
      i.operand = .branch target → Opcode.wideJump? i.opcode = some jump →
      places[target]? = some place →
      ReadsAs widening places offset i [⟨offset, ⟨jump, .branch place⟩⟩] next
  /-- The opposite condition, which leads past a jump with a four-byte offset. -/
  | inverted {inverse : UInt8} {target : Label} {place : Nat} :
      widening = .all → i.operand = .branch target → Opcode.inverse? i.opcode = some inverse →
      places[target]? = some place →
      ReadsAs widening places offset i
        [⟨offset, ⟨inverse, .branch (offset + 8)⟩⟩, ⟨offset + 3, ⟨Opcode.gotoW, .branch place⟩⟩]
        (offset + 8)

/-- Bytes that hold what an instruction is read as. -/
def ReadBack (widening : BranchWidening) (places : Places) (codeLength offset : Nat)
    (i : Instruction Label) (data : List UInt8) : Prop :=
  ∃ block, ReadsAs widening places offset i block (offset + data.length) ∧
    Format.Sequence (Located.Stored codeLength) offset block data

variable {widening : BranchWidening} {places : Places} {codeLength start : Nat}

theorem readBack_same {i : Instruction Label} {read : Instruction Nat} {data : List UInt8}
    (hread : i.mapTargetsM (places[·]?) = some read)
    (hstored : read.Stored codeLength start data) :
    ReadBack widening places codeLength start i data :=
  ⟨_, .same hread, Format.sequence_singleton.mpr ⟨rfl, hstored⟩⟩

/-- The targets of an instruction have places inside the code. -/
def TargetsInside (places : Places) (codeLength : Nat) (i : Instruction Label) : Prop :=
  ∀ target ∈ i.targets, ∀ place, places[target]? = some place → place < codeLength

theorem resolved_targets {origin : Nat} {targets : List Label} {data : List UInt8}
    (h : Resolved places (targets.map (.offset32 · origin)) data)
    (hin : ∀ target ∈ targets, ∀ place, places[target]? = some place → place < codeLength) :
    ∃ found, targets.mapM (places[·]?) = some found ∧
      (∀ place ∈ found, InReach 0x80000000 codeLength origin place) ∧
      data = found.flatMap (offset32 origin) := by
  simp only [Success.option_mapM]
  induction targets generalizing data with
  | nil => exact ⟨[], .nil, by simp, resolved_nil.mp h⟩
  | cons target targets ih =>
    obtain ⟨front, back, hfront, hback, rfl⟩ := resolved_cons.mp h
    obtain ⟨place, hplace, hlow, hhigh, rfl⟩ := resolve_offset32.mp hfront
    have hrest := fun t ht => hin t (List.mem_cons_of_mem _ ht)
    obtain ⟨found, hfound, hreach, rfl⟩ := ih hback hrest
    have hlt := hin target List.mem_cons_self place hplace
    refine ⟨place :: found, .cons hplace hfound, ?_, rfl⟩
    exact List.forall_mem_cons.mpr ⟨⟨hlt, hlow, hhigh⟩, hreach⟩

theorem resolved_pairs {origin : Nat} {pairs : List (Int32 × Label)} {data : List UInt8}
    (h : Resolved places (pairs.flatMap fun (key, target) =>
      [.bytes (BigEndian.i32 key), .offset32 target origin]) data)
    (hin : ∀ target ∈ pairs.map (·.2), ∀ place, places[target]? = some place →
      place < codeLength) :
    ∃ found, pairs.mapM (fun (key, target) => do return (key, ← places[target]?)) = some found ∧
      (∀ pair ∈ found, InReach 0x80000000 codeLength origin pair.2) ∧
      data = found.flatMap fun pair => BigEndian.i32 pair.1 ++ offset32 origin pair.2 := by
  simp only [Success.option_mapM]
  induction pairs generalizing data with
  | nil => exact ⟨[], .nil, by simp, resolved_nil.mp h⟩
  | cons pair pairs ih =>
    obtain ⟨key, target⟩ := pair
    rw [List.flatMap_cons, List.cons_append, List.cons_append, List.nil_append] at h
    obtain ⟨_, _, hkey, hafter, rfl⟩ := resolved_cons.mp h
    obtain ⟨_, _, htarget, hback, rfl⟩ := resolved_cons.mp hafter
    obtain rfl := resolve_bytes.mp hkey
    obtain ⟨place, hplace, hlow, hhigh, rfl⟩ := resolve_offset32.mp htarget
    have hrest := fun t ht => hin t (List.mem_cons_of_mem _ ht)
    obtain ⟨found, hfound, hreach, rfl⟩ := ih hback hrest
    have hlt := hin target List.mem_cons_self place hplace
    refine ⟨(key, place) :: found, .cons (by simp [hplace]) hfound, ?_, by simp⟩
    exact List.forall_mem_cons.mpr ⟨⟨hlt, hlow, hhigh⟩, hreach⟩

/-- Instructions without targets, whose bytes are known at once. -/
theorem readBack_bytes {i : Instruction Label} {read : Instruction Nat} {pieces : List Piece}
    {stored data : List UInt8} (hpieces : Except.ok (ε := Error) [Piece.bytes stored] = .ok pieces)
    (hdata : Resolved places pieces data) (hread : i.mapTargetsM (places[·]?) = some read)
    (hstored : read.Stored codeLength start stored) :
    ReadBack widening places codeLength start i data := by
  cases hpieces
  obtain ⟨_, _, hfront, hback, rfl⟩ := resolved_cons.mp hdata
  obtain rfl := resolve_bytes.mp hfront
  obtain rfl := resolved_nil.mp hback
  rw [List.append_nil]
  exact readBack_same hread hstored

theorem toUInt16_toUInt8 {index : UInt16} (h : index < 256) : index.toUInt8.toUInt16 = index := by
  apply UInt16.toNat_inj.mp
  have hlt : index.toNat < 256 := UInt16.lt_iff_toNat_lt.mp h
  rw [UInt8.toNat_toUInt16, UInt16.toNat_toUInt8]
  omega

theorem toInt16_toInt8 {delta : Int16} (hlow : -128 ≤ delta) (hhigh : delta < 128) :
    delta.toInt8.toInt16 = delta := by
  apply Int16.toInt_inj.mp
  have hlow' : -128 ≤ delta.toInt := Int16.le_iff_toInt_le.mp hlow
  have hhigh' : delta.toInt < 128 := Int16.lt_iff_toInt_lt.mp hhigh
  rw [Int8.toInt_toInt16, Int16.toInt_toInt8, Int.bmod_eq_of_le (by omega) (by omega)]

theorem stored_slot {opcode : UInt8} (hlayout : Opcode.layout? opcode = some .slot)
    (index : UInt16) :
    Instruction.Stored codeLength start ⟨opcode, .slot index⟩
      (if index < 256 then [opcode, index.toUInt8]
        else Opcode.wide :: opcode :: BigEndian.u16 index) := by
  by_cases h : index < 256
  · rw [if_pos h]
    have hstored : Instruction.Stored codeLength start ⟨opcode, .slot index.toUInt8.toUInt16⟩
        [opcode, index.toUInt8] := .short hlayout (by simp) .slot
    rwa [toUInt16_toUInt8 h] at hstored
  · rw [if_neg h]
    exact .wideSlot hlayout

theorem stored_increment {opcode : UInt8} (hlayout : Opcode.layout? opcode = some .increment)
    (index : UInt16) (delta : Int16) :
    Instruction.Stored codeLength start ⟨opcode, .increment index delta⟩
      (if index < 256 ∧ -128 ≤ delta ∧ delta < 128 then
        [opcode, index.toUInt8, delta.toInt8.toUInt8]
      else Opcode.wide :: opcode :: (BigEndian.u16 index ++ BigEndian.i16 delta)) := by
  by_cases h : index < 256 ∧ -128 ≤ delta ∧ delta < 128
  · rw [if_pos h]
    have hstored : Instruction.Stored codeLength start
        ⟨opcode, .increment index.toUInt8.toUInt16 delta.toInt8.toInt16⟩
        [opcode, index.toUInt8, delta.toInt8.toUInt8] := .short hlayout (by simp) .increment
    rwa [toUInt16_toUInt8 h.1, toInt16_toInt8 h.2.1 h.2.2] at hstored
  · rw [if_neg h]
    exact .wideIncrement hlayout

theorem eq_ldc_of_layout? {opcode : UInt8} (h : Opcode.layout? opcode = some .constantByte) :
    opcode = Opcode.ldc :=
  forall_opcode (P := fun opcode => Opcode.layout? opcode = some .constantByte →
    opcode = Opcode.ldc) (by decide +kernel) opcode h

theorem readBack_constantByte {opcode : UInt8} {index : UInt16} {pieces : List Piece}
    {data : List UInt8} (hlayout : Opcode.layout? opcode = some .constantByte)
    (hpieces : (⟨opcode, .constant index⟩ : Instruction Label).pieces start = .ok pieces)
    (hdata : Resolved places pieces data) :
    ReadBack widening places codeLength start ⟨opcode, .constant index⟩ data := by
  obtain rfl := eq_ldc_of_layout? hlayout
  by_cases h : index < 256
  · have hshort : Except.ok (ε := Error) [Piece.bytes [Opcode.ldc, index.toUInt8]] = .ok pieces := by
      rw [← hpieces, Instruction.pieces, hlayout]
      simp [h]
    have hstored : Instruction.Stored codeLength start
        ⟨Opcode.ldc, .constant index.toUInt8.toUInt16⟩ [Opcode.ldc, index.toUInt8] :=
      .short hlayout (by simp) .constantByte
    rw [toUInt16_toUInt8 h] at hstored
    exact readBack_bytes hshort hdata rfl hstored
  · have hwide : [Piece.bytes (Opcode.ldcW :: BigEndian.u16 index)] = pieces := by
      apply Except.ok.inj (ε := Error)
      rw [← hpieces, Instruction.pieces, hlayout]
      simp [h]
    subst hwide
    obtain ⟨_, _, hfront, hback, rfl⟩ := resolved_cons.mp hdata
    obtain rfl := resolve_bytes.mp hfront
    obtain rfl := resolved_nil.mp hback
    have hlarge : 255 < index := by
      rw [UInt16.lt_iff_toNat_lt] at h ⊢
      exact Nat.not_lt.mp h
    refine ⟨_, .wideConstant rfl hlarge, ?_⟩
    rw [List.append_nil, Format.sequence_singleton]
    exact ⟨rfl, .short (by decide) (by simp) .constant⟩

/-- A branch by its opcode and an offset of two bytes. -/
theorem stored_offset16 {opcode : UInt8} {target : Label} {data : List UInt8}
    (hlayout : Opcode.layout? opcode = some .branch)
    (hdata : Resolved places [.bytes [opcode], .offset16 target start] data)
    (hin : ∀ place, places[target]? = some place → place < codeLength) :
    ∃ place, places[target]? = some place ∧
      Instruction.Stored codeLength start ⟨opcode, .branch place⟩ data := by
  obtain ⟨_, _, hopcode, hafter, rfl⟩ := resolved_cons.mp hdata
  obtain ⟨_, _, hoffset, hnil, rfl⟩ := resolved_cons.mp hafter
  obtain rfl := resolve_bytes.mp hopcode
  obtain ⟨place, hplace, hlow, hhigh, rfl⟩ := resolve_offset16.mp hoffset
  obtain rfl := resolved_nil.mp hnil
  rw [List.append_nil]
  exact ⟨place, hplace, .short hlayout (by simp) (.branch ⟨hin place hplace, hlow, hhigh⟩)⟩

/-- A branch by its opcode and an offset of four bytes. -/
theorem stored_offset32 {opcode : UInt8} {target : Label} {data : List UInt8}
    (hlayout : Opcode.layout? opcode = some .branchWide)
    (hdata : Resolved places [.bytes [opcode], .offset32 target start] data)
    (hin : ∀ place, places[target]? = some place → place < codeLength) :
    ∃ place, places[target]? = some place ∧
      Instruction.Stored codeLength start ⟨opcode, .branch place⟩ data := by
  obtain ⟨_, _, hopcode, hafter, rfl⟩ := resolved_cons.mp hdata
  obtain ⟨_, _, hoffset, hnil, rfl⟩ := resolved_cons.mp hafter
  obtain rfl := resolve_bytes.mp hopcode
  obtain ⟨place, hplace, hlow, hhigh, rfl⟩ := resolve_offset32.mp hoffset
  obtain rfl := resolved_nil.mp hnil
  rw [List.append_nil]
  exact ⟨place, hplace, .short hlayout (by simp) (.branchWide ⟨hin place hplace, hlow, hhigh⟩)⟩

theorem length_padding (start : Nat) : (padding start).length = (4 - (start + 1) % 4) % 4 := by
  simp [padding]

/-- The bytes of a switch up to its table. -/
theorem resolved_switch {opcode : UInt8} {fallback : Label} {header data : List UInt8}
    {table : List Piece}
    (hdata : Resolved places (.bytes (opcode :: padding start) :: .offset32 fallback start ::
      .bytes header :: table) data)
    (hin : ∀ place, places[fallback]? = some place → place < codeLength) :
    ∃ place body, places[fallback]? = some place ∧ InReach 0x80000000 codeLength start place ∧
      Resolved places table body ∧
      data = opcode :: (padding start ++ (offset32 start place ++ (header ++ body))) := by
  obtain ⟨_, _, hopcode, hafter, rfl⟩ := resolved_cons.mp hdata
  obtain ⟨_, _, hfallback, hafter', rfl⟩ := resolved_cons.mp hafter
  obtain ⟨_, body, hheader, hbody, rfl⟩ := resolved_cons.mp hafter'
  obtain rfl := resolve_bytes.mp hopcode
  obtain rfl := resolve_bytes.mp hheader
  obtain ⟨place, hplace, hlow, hhigh, rfl⟩ := resolve_offset32.mp hfallback
  exact ⟨place, body, hplace, ⟨hin place hplace, hlow, hhigh⟩, hbody, rfl⟩

theorem readBack_tableSwitch {opcode : UInt8} {fallback : Label} {low : Int32}
    {targets : List Label} {pieces : List Piece} {data : List UInt8}
    (hlayout : Opcode.layout? opcode = some .tableSwitch)
    (hpieces : (⟨opcode, .tableSwitch fallback low targets⟩ : Instruction Label).pieces start =
      .ok pieces) (hdata : Resolved places pieces data)
    (hin : TargetsInside places codeLength ⟨opcode, .tableSwitch fallback low targets⟩) :
    ReadBack widening places codeLength start ⟨opcode, .tableSwitch fallback low targets⟩ data := by
  simp only [Instruction.pieces, hlayout, refuse] at hpieces
  split at hpieces
  · cases hpieces
  rename_i hempty
  split at hpieces
  · cases hpieces
  rename_i hrange
  cases hpieces
  have hinFallback := hin fallback List.mem_cons_self
  obtain ⟨place, body, hplace, hreach, hbody, rfl⟩ := resolved_switch hdata hinFallback
  obtain ⟨found, hfound, hall, rfl⟩ :=
    resolved_targets hbody fun t ht => hin t (List.mem_cons_of_mem _ ht)
  have hlength : targets.length = found.length :=
    (Success.option_mapM.mp hfound).length_eq
  have hpos : 0 < targets.length := by
    cases targets with
    | nil => simp at hempty
    | cons target targets => simp
  have hlow := low.le_toInt
  have hhigh : (Int32.ofInt (low.toInt + targets.length - 1)).toInt
      = low.toInt + targets.length - 1 :=
    Int32.toInt_ofInt_of_le (by omega) (by omega)
  have hread : (⟨opcode, .tableSwitch fallback low targets⟩ : Instruction Label).mapTargetsM
      (places[·]?) = some ⟨opcode, .tableSwitch place low found⟩ := by
    simp [Instruction.mapTargetsM, Operand.mapTargetsM, hplace, hfound]
  rw [List.append_assoc (BigEndian.i32 low)]
  exact readBack_same hread (.short hlayout (by simp) (.tableSwitch (length_padding start) hreach
    (Int32.le_iff_toInt_le.mpr (by omega)) (by omega) hall))

theorem mapTargetsM_lookupSwitch {opcode : UInt8} {fallback : Label} {place : Nat}
    {pairs : List (Int32 × Label)} {found : List (Int32 × Nat)}
    (hplace : places[fallback]? = some place)
    (hfound : pairs.mapM (fun (key, target) => do return (key, ← places[target]?)) = some found) :
    (⟨opcode, .lookupSwitch fallback pairs⟩ : Instruction Label).mapTargetsM (places[·]?) =
      some ⟨opcode, .lookupSwitch place found⟩ := by
  rw [Instruction.mapTargetsM, Operand.mapTargetsM, hplace, hfound]
  rfl

theorem i32_ofInt_natCast {n : Nat} (h : n < 0x80000000) :
    BigEndian.i32 (Int32.ofInt n) = BigEndian.bytes 4 n := by
  have hlt : n < UInt32.size := h.trans (by decide)
  have hn : (Int32.ofInt n).toUInt32.toNat = n := UInt32.toNat_ofNat_of_lt' hlt
  rw [BigEndian.i32, BigEndian.u32, hn]

theorem readBack_lookupSwitch {opcode : UInt8} {fallback : Label}
    {pairs : List (Int32 × Label)} {pieces : List Piece} {data : List UInt8}
    (hlayout : Opcode.layout? opcode = some .lookupSwitch)
    (hpieces : (⟨opcode, .lookupSwitch fallback pairs⟩ : Instruction Label).pieces start =
      .ok pieces) (hdata : Resolved places pieces data)
    (hin : TargetsInside places codeLength ⟨opcode, .lookupSwitch fallback pairs⟩) :
    ReadBack widening places codeLength start ⟨opcode, .lookupSwitch fallback pairs⟩ data := by
  simp only [Instruction.pieces, hlayout, refuse] at hpieces
  split at hpieces
  · cases hpieces
  rename_i hrange
  cases hpieces
  have hinFallback := hin fallback List.mem_cons_self
  obtain ⟨place, body, hplace, hreach, hbody, rfl⟩ := resolved_switch hdata hinFallback
  obtain ⟨found, hfound, hall, rfl⟩ :=
    resolved_pairs hbody fun t ht => hin t (List.mem_cons_of_mem _ ht)
  have hlength : pairs.length = found.length :=
    (Success.option_mapM.mp hfound).length_eq
  have hcount : (Int32.ofInt pairs.length).toInt = pairs.length :=
    Int32.toInt_ofInt_of_le (by omega) (by omega)
  rw [← i32_ofInt_natCast (Nat.not_le.mp hrange)]
  exact readBack_same (mapTargetsM_lookupSwitch hplace hfound)
    (.short hlayout (by simp) (.lookupSwitch (length_padding start) hreach (by omega) hall))

/-- The bytes of an instruction hold the instruction. -/
theorem readBack_pieces {i : Instruction Label} {pieces : List Piece} {data : List UInt8}
    (hpieces : i.pieces start = .ok pieces) (hdata : Resolved places pieces data)
    (hin : TargetsInside places codeLength i) :
    ReadBack widening places codeLength start i data := by
  obtain ⟨opcode, operand⟩ := i
  have hall := hpieces
  unfold Instruction.pieces at hpieces
  dsimp only at hpieces
  split at hpieces
  · cases hpieces
  · exact readBack_bytes hpieces hdata rfl (.short ‹_› (by simp) .plain)
  · exact readBack_bytes hpieces hdata rfl (.short ‹_› (by simp) .byte)
  · exact readBack_bytes hpieces hdata rfl (.short ‹_› (by simp) .short)
  · exact readBack_bytes hpieces hdata rfl (.short ‹_› (by simp) .arrayType)
  · exact readBack_bytes hpieces hdata rfl (stored_slot ‹_› _)
  · exact readBack_bytes hpieces hdata rfl (stored_increment ‹_› _ _)
  · exact readBack_constantByte ‹_› hall hdata
  · exact readBack_bytes hpieces hdata rfl (.short ‹_› (by simp) .constant)
  · exact readBack_bytes hpieces hdata rfl (.short ‹_› (by simp) (.interface rfl))
  · exact readBack_bytes hpieces hdata rfl (.short ‹_› (by simp) (.dynamic rfl))
  · exact readBack_bytes hpieces hdata rfl (.short ‹_› (by simp) .multiArray)
  · cases hpieces
    obtain ⟨place, hplace, hstored⟩ := stored_offset16 ‹_› hdata (hin _ List.mem_cons_self)
    exact readBack_same (by simp [Instruction.mapTargetsM, Operand.mapTargetsM, hplace]) hstored
  · cases hpieces
    obtain ⟨place, hplace, hstored⟩ := stored_offset32 ‹_› hdata (hin _ List.mem_cons_self)
    exact readBack_same (by simp [Instruction.mapTargetsM, Operand.mapTargetsM, hplace]) hstored
  · exact readBack_tableSwitch ‹_› hall hdata hin
  · exact readBack_lookupSwitch ‹_› hall hdata hin
  · cases hpieces

/-! ## Widened branches -/

theorem layout?_wideJump {opcode jump : UInt8} (h : Opcode.wideJump? opcode = some jump) :
    Opcode.layout? jump = some .branchWide := by
  unfold Opcode.wideJump? at h
  split at h
  · obtain rfl := Option.some.inj h
    decide
  · split at h
    · obtain rfl := Option.some.inj h
      decide
    · cases h

theorem layout?_inverse {opcode inverse : UInt8} (h : Opcode.inverse? opcode = some inverse) :
    Opcode.layout? inverse = some .branch := by
  have hall := forall_opcode (P := fun opcode => (Opcode.inverse? opcode).all fun inverse =>
    Opcode.layout? inverse = some .branch) (by decide +kernel) opcode
  simpa [h] using hall

/-- A condition that was turned around leads past the jump after it, and there must be code at
that place. -/
theorem stored_inverted {inverse : UInt8} {target : Label} {data : List UInt8}
    (hinverse : Opcode.layout? inverse = some .branch)
    (hdata : Resolved places [.bytes (inverse :: (BigEndian.i16 8 ++ [Opcode.gotoW])),
      .offset32 target (start + 3)] data)
    (hinside : start + 8 < codeLength)
    (hin : ∀ place, places[target]? = some place → place < codeLength) :
    ∃ place, places[target]? = some place ∧ data.length = 8 ∧
      Format.Sequence (Located.Stored codeLength) start [⟨start, ⟨inverse, .branch (start + 8)⟩⟩,
        ⟨start + 3, ⟨Opcode.gotoW, .branch place⟩⟩] data := by
  obtain ⟨_, _, hhead, hafter, rfl⟩ := resolved_cons.mp hdata
  obtain ⟨_, _, hoffset, hnil, rfl⟩ := resolved_cons.mp hafter
  obtain rfl := resolve_bytes.mp hhead
  obtain ⟨place, hplace, hlow, hhigh, rfl⟩ := resolve_offset32.mp hoffset
  obtain rfl := resolved_nil.mp hnil
  have hover : BigEndian.i16 8 = offset16 start (start + 8) := by
    have hdistance : ((start + 8 : Nat) : Int) - start = 8 := by omega
    rw [offset16, hdistance]
    rfl
  have hcondition : Instruction.Stored codeLength start ⟨inverse, .branch (start + 8)⟩
      (inverse :: offset16 start (start + 8)) :=
    .short hinverse (by simp) (.branch ⟨hinside, by omega, by omega⟩)
  have hjumpStored : Instruction.Stored codeLength (start + 3) ⟨Opcode.gotoW, .branch place⟩
      (Opcode.gotoW :: offset32 (start + 3) place) :=
    .short (by decide) (by simp) (.branchWide ⟨hin place hplace, hlow, hhigh⟩)
  refine ⟨place, hplace, rfl, Format.sequence_cons.mpr
    ⟨_, Opcode.gotoW :: offset32 (start + 3) place, ⟨rfl, hcondition⟩,
      Format.sequence_singleton.mpr ⟨?_, ?_⟩, ?_⟩⟩
  · simp
  · simpa using hjumpStored
  · simp [hover]

/-- The bytes of a widened branch hold the branch. -/
theorem readBack_widePieces {i : Instruction Label} {pieces : List Piece} {data : List UInt8}
    (hpieces : i.widePieces start = .ok pieces) (hdata : Resolved places pieces data)
    (hin : TargetsInside places codeLength i) (hcovers : widening.covers i.opcode = true)
    (hnext : Opcode.inverse? i.opcode ≠ none → start + piecesSize pieces < codeLength) :
    ReadBack widening places codeLength start i data := by
  have hinTarget {target : Label} (hoperand : i.operand = .branch target) :
      ∀ place, places[target]? = some place → place < codeLength := by
    refine hin target ?_
    rw [Instruction.targets, hoperand]
    exact List.mem_singleton_self target
  rcases widePieces_cases hpieces with ⟨target, jump, hoperand, hjump, rfl⟩ |
    ⟨target, inverse, hoperand, hjump, hinverse, rfl⟩ | ⟨-, hpieces⟩
  · obtain ⟨place, hplace, hstored⟩ :=
      stored_offset32 (layout?_wideJump hjump) hdata (hinTarget hoperand)
    exact ⟨_, .wideJump hoperand hjump hplace, Format.sequence_singleton.mpr ⟨rfl, hstored⟩⟩
  · have hall : widening = .all := by
      simpa [BranchWidening.covers, hjump, hinverse] using hcovers
    obtain ⟨place, hplace, hlength, hstored⟩ := stored_inverted (layout?_inverse hinverse) hdata
      (hnext (by simp [hinverse])) (hinTarget hoperand)
    refine ⟨_, ?_, hstored⟩
    rw [hlength]
    exact .inverted hall hoperand hinverse hplace
  · exact readBack_pieces hpieces hdata hin

/-! ## Nodes -/

/-- Whether a node is a label. -/
def Node.isLabel : Node → Bool
  | .label _ => true
  | .instruction _ => false

/-- The instruction of a node. -/
def Node.instruction? : Node → Option (Instruction Label)
  | .label _ => none
  | .instruction i => some i

/-- The last instruction among nodes. -/
def lastInstruction? (nodes : List Node) : Option (Instruction Label) :=
  (nodes.filterMap Node.instruction?).getLast?

/-- The labels after the last instruction among nodes. -/
def trailingLabels (nodes : List Node) : List Node := nodes.rtakeWhile Node.isLabel

/-- Nodes with what is read for them, from an offset to the offset after them. A label has
the offset of the instruction after it, or the last offset of all. -/
inductive LaidOut (widening : BranchWidening) (places : Places) :
    Nat → List Node → List (Located Nat) → Nat → Prop
  | nil {start : Nat} : LaidOut widening places start [] [] start
  | label {start stop : Nat} {label : Label} {nodes : List Node} {read : List (Located Nat)} :
      places[label]? = some start → LaidOut widening places start nodes read stop →
      LaidOut widening places start (.label label :: nodes) read stop
  | instruction {start next stop : Nat} {i : Instruction Label} {nodes : List Node}
        {block read : List (Located Nat)} :
      ReadsAs widening places start i block next →
      LaidOut widening places next nodes read stop →
      LaidOut widening places start (.instruction i :: nodes) (block ++ read) stop

theorem trailingLabels_cons {node : Node} {nodes : List Node} :
    trailingLabels (node :: nodes) =
      if nodes.all Node.isLabel && node.isLabel then node :: nodes
      else trailingLabels nodes := by
  have hself : nodes.all Node.isLabel = true →
      nodes.reverse.takeWhile Node.isLabel = nodes.reverse := by
    intro hall
    exact List.takeWhile_eq_self_iff.mpr (by simpa using hall)
  unfold trailingLabels List.rtakeWhile
  rw [List.reverse_cons, List.takeWhile_append]
  cases hall : nodes.all Node.isLabel with
  | false =>
    have hne : (nodes.reverse.takeWhile Node.isLabel).length ≠ nodes.reverse.length := by
      intro hlen
      have heq := List.takeWhile_eq_self_iff.mp
        ((List.takeWhile_prefix Node.isLabel).eq_of_length hlen)
      obtain ⟨x, hx, hfalse⟩ := List.all_eq_false.mp hall
      exact hfalse (heq x (List.mem_reverse.mpr hx))
    rw [if_neg hne]
    simp
  | true =>
    rw [hself hall, if_pos rfl]
    cases hnode : node.isLabel <;> simp [hnode]

theorem piecesSize_pos {i : Instruction Label} {pieces : List Piece}
    (h : i.pieces start = .ok pieces) : 0 < piecesSize pieces := by
  cases emits_of_pieces h with
  | closed hdata => exact Nat.lt_add_right _ (List.length_pos_iff.mpr hdata)
  | _ => simp [Piece.size]

theorem piecesSize_planned_pos {i : Instruction Label} {wide : Bool} {pieces : List Piece}
    (h : (⟨.instruction i, wide⟩ : PlannedNode).pieces start = .ok pieces) :
    0 < piecesSize pieces := by
  cases wide with
  | false => exact piecesSize_pos h
  | true =>
    rcases widePieces_cases h with
      ⟨_, _, -, -, rfl⟩ | ⟨_, _, -, -, -, rfl⟩ | ⟨-, hpieces⟩
    · simp [Piece.size]
    · simp [Piece.size]
    · exact piecesSize_pos hpieces

theorem emitted_pos {plan : List PlannedNode} {pieces : List (List Piece)} {stop : Nat}
    (h : Emitted places start plan pieces stop) :
    start ≤ stop ∧ ((plan.map (·.node)).all Node.isLabel = false → start < stop) := by
  induction h with
  | nil => simp
  | label _ _ ih =>
    refine ⟨ih.1, fun hall => ih.2 ?_⟩
    simpa [Node.isLabel] using hall
  | instruction hfront _ ih =>
    have hpos := piecesSize_planned_pos hfront
    have hle := ih.1
    exact ⟨by omega, fun _ => by omega⟩

theorem size_of_emitted {plan : List PlannedNode} {pieces : List (List Piece)} {stop : Nat}
    (h : Emitted places start plan pieces stop) : stop = start + piecesSize pieces.flatten := by
  induction h with
  | nil => rfl
  | label _ _ ih => simpa using ih
  | instruction _ _ ih =>
    rw [ih, List.flatten_cons, piecesSize_append]
    omega

/-- A label among assembled nodes has a place in the code or at its end. -/
theorem place_le_of_emitted {plan : List PlannedNode} {pieces : List (List Piece)} {stop : Nat}
    (h : Emitted places start plan pieces stop) {label : Label}
    (hmem : .label label ∈ plan.map (·.node)) :
    ∃ place, places[label]? = some place ∧ place ≤ stop := by
  induction h with
  | nil => cases hmem
  | @label start stop label' wide plan pieces hplace hrest ih =>
    rcases List.mem_cons.mp hmem with heq | htail
    · cases heq
      exact ⟨start, hplace, (emitted_pos hrest).1⟩
    · exact ih htail
  | instruction _ _ ih =>
    rcases List.mem_cons.mp hmem with heq | htail
    · cases heq
    · exact ih htail

/-- A label that stands before some instruction has a place inside the code. -/
theorem place_lt_of_emitted {plan : List PlannedNode} {pieces : List (List Piece)} {stop : Nat}
    (h : Emitted places start plan pieces stop) {label : Label}
    (hmem : .label label ∈ plan.map (·.node))
    (htrailing : .label label ∉ trailingLabels (plan.map (·.node))) :
    ∃ place, places[label]? = some place ∧ place < stop := by
  induction h with
  | nil => simp at hmem
  | @label start stop label' wide plan pieces hplace hrest ih =>
    rw [List.map_cons, trailingLabels_cons] at htrailing
    cases hall : (plan.map (·.node)).all Node.isLabel with
    | true =>
      simp only [hall, Node.isLabel, Bool.and_self, if_true] at htrailing
      exact absurd hmem htrailing
    | false =>
      simp only [hall, Bool.false_and, Bool.false_eq_true, if_false] at htrailing
      rcases List.mem_cons.mp hmem with heq | htail
      · cases heq
        exact ⟨start, hplace, (emitted_pos hrest).2 hall⟩
      · exact ih htail htrailing
  | instruction hfront hrest ih =>
    rw [List.map_cons, trailingLabels_cons] at htrailing
    simp only [Node.isLabel, Bool.and_false, Bool.false_eq_true, if_false] at htrailing
    rcases List.mem_cons.mp hmem with heq | htail
    · cases heq
    · exact ih htail htrailing

theorem lastInstruction?_cons {i : Instruction Label} {nodes : List Node} :
    lastInstruction? (.instruction i :: nodes) = some ((lastInstruction? nodes).getD i) := by
  unfold lastInstruction?
  rw [List.filterMap_cons_some (show (Node.instruction i).instruction? = some i from rfl),
    List.getLast?_cons]

theorem lastInstruction?_eq_none {nodes : List Node} (h : nodes.all Node.isLabel = true) :
    lastInstruction? nodes = none := by
  unfold lastInstruction?
  rw [List.getLast?_eq_none_iff, List.filterMap_eq_nil_iff]
  intro node hnode
  cases node with
  | label label => rfl
  | instruction i => exact absurd (List.all_eq_true.mp h _ hnode) Bool.false_ne_true

theorem trailingLabels_append {front labels : List Node} {i : Instruction Label}
    (hlabels : labels.all Node.isLabel = true) :
    trailingLabels (front ++ .instruction i :: labels) = labels := by
  induction front with
  | nil =>
    rw [List.nil_append, trailingLabels_cons, hlabels]
    exact List.rtakeWhile_eq_self_iff.mpr fun node hnode => List.all_eq_true.mp hlabels node hnode
  | cons node front ih =>
    have hmixed : (front ++ .instruction i :: labels).all Node.isLabel = false := by
      simp [Node.isLabel]
    rw [List.cons_append, trailingLabels_cons, hmixed]
    exact ih

theorem lastInstruction?_append {front labels : List Node} {i : Instruction Label}
    (hlabels : labels.all Node.isLabel = true) :
    lastInstruction? (front ++ .instruction i :: labels) = some i := by
  have hnone := lastInstruction?_eq_none hlabels
  unfold lastInstruction? at hnone ⊢
  rw [List.filterMap_append, List.filterMap_cons_some (show (Node.instruction i).instruction? = some i from rfl),
    List.getLast?_append, List.getLast?_cons, hnone]
  rfl

/-- The bytes of planned nodes hold the nodes. The opposite of a condition leads past a jump,
so at the end of the code no condition may stand where no branch may lead there. -/
theorem laidOut_of_emitted {plan : List PlannedNode} {pieces : List (List Piece)} {stop : Nat}
    {data : List UInt8} (h : Emitted places start plan pieces stop)
    (hdata : Resolved places pieces.flatten data) (hstop : stop ≤ codeLength)
    (hallowed : ∀ p ∈ plan, p.Allowed widening)
    (hin : ∀ i, .instruction i ∈ plan.map (·.node) → TargetsInside places codeLength i)
    (hlast : stop = codeLength → ∀ i ∈ lastInstruction? (plan.map (·.node)),
      Opcode.inverse? i.opcode = none) :
    ∃ read, LaidOut widening places start (plan.map (·.node)) read stop ∧
      Format.Sequence (Located.Stored codeLength) start read data := by
  induction h generalizing data with
  | nil => exact ⟨[], .nil, Format.sequence_nil.mpr (resolved_nil.mp hdata)⟩
  | label hplace hrest ih =>
    rw [List.flatten_cons, List.nil_append] at hdata
    obtain ⟨read, hread, hseq⟩ := ih hdata hstop
      (fun p hp => hallowed p (List.mem_cons_of_mem _ hp))
      (fun i hi => hin i (List.mem_cons_of_mem _ hi)) hlast
    exact ⟨read, .label hplace hread, hseq⟩
  | @instruction start stop i wide plan front pieces hfront hrest ih =>
    rw [List.flatten_cons] at hdata
    obtain ⟨head, tail, hhead, htail, rfl⟩ := resolved_append.mp hdata
    have hinHead := hin i List.mem_cons_self
    rw [List.map_cons, lastInstruction?_cons] at hlast
    have hnext : Opcode.inverse? i.opcode ≠ none → start + piecesSize front < codeLength := by
      intro hcondition
      by_cases hend : stop = codeLength
      · cases hall : (plan.map (·.node)).all Node.isLabel with
        | true =>
          rw [lastInstruction?_eq_none hall] at hlast
          exact absurd (hlast hend i rfl) hcondition
        | false =>
          rw [← hend]
          exact (emitted_pos hrest).2 hall
      · have hle := (emitted_pos hrest).1
        omega
    have hback : ReadBack widening places codeLength start i head := by
      cases wide with
      | false => exact readBack_pieces hfront hhead hinHead
      | true =>
        exact readBack_widePieces hfront hhead hinHead
          (hallowed _ List.mem_cons_self i rfl rfl) hnext
    have hlastTail : stop = codeLength → ∀ j ∈ lastInstruction? (plan.map (·.node)),
        Opcode.inverse? j.opcode = none := by
      intro hend j hj
      apply hlast hend
      rw [Option.mem_def.mp hj]
      rfl
    obtain ⟨block, hblock, hblockSeq⟩ := hback
    rw [length_resolved hhead] at hblock
    obtain ⟨read, hread, hseq⟩ := ih htail hstop
      (fun p hp => hallowed p (List.mem_cons_of_mem _ hp))
      (fun i hi => hin i (List.mem_cons_of_mem _ hi)) hlastTail
    refine ⟨block ++ read, .instruction hblock hread, Format.sequence_append.mpr
      ⟨head, tail, hblockSeq, ?_, rfl⟩⟩
    rwa [length_resolved hhead]

/-! ## The layout of nodes -/

/-- No branch leads to a label after the last instruction, where there is no code, and the
last instruction is not a condition, whose opposite would lead there too. -/
structure Closed (nodes : List Node) : Prop where
  target_mem : ∀ i, .instruction i ∈ nodes → ∀ target ∈ i.targets,
    .label target ∉ trailingLabels nodes
  last_unconditional : ∀ i ∈ lastInstruction? nodes, Opcode.inverse? i.opcode = none

/-- A layout is the pieces of a plan for the nodes with the offsets closed. -/
structure Settled (widening : BranchWidening) (nodes : List Node) (result : Assembled)
    (plan : List PlannedNode) (pieces : List (List Piece)) : Prop where
  nodes_eq : plan.map (·.node) = nodes
  allowed : ∀ p ∈ plan, p.Allowed widening
  emitted : Emitted result.places 0 plan pieces result.code.length
  resolved : Resolved result.places pieces.flatten result.code
  length_le : result.code.length ≤ maxCodeLength
  label_mem : ∀ (label : Label) (place : Nat), result.places[label]? = some place →
    .label label ∈ plan.map (·.node)

theorem encodeWith_eq_ok {nodes : List Node} {result : Assembled}
    (h : encodeWith widening nodes = .ok result) :
    ∃ plan pieces, Settled widening nodes result plan pieces := by
  obtain ⟨plan, pieces, a, hnodes, hallowed, hassemble, hfinish⟩ :=
    settle_eq_ok h (allowed_shortPlan widening nodes)
  have hplan := assemblePlan_eq_ok hassemble
  obtain ⟨hfits, hcode, hplaces⟩ := finish_eq_ok.mp hfinish
  have hpieces := pieces_of_assemblePlan hassemble
  have hemitted : Emitted a.places 0 plan pieces a.size := hplan.emitted
  rw [hpieces] at hcode
  have hsize : a.size = result.code.length := by
    rw [length_resolved hcode]
    simpa using size_of_emitted hemitted
  rw [← hplaces] at hemitted hcode
  rw [hsize] at hemitted hfits
  refine ⟨plan, pieces, ?_, hallowed, hemitted, hcode, hfits, fun label place hplace => ?_⟩
  · exact hnodes.trans (map_node_shortPlan nodes)
  · rw [hplaces] at hplace
    rcases hplan.label_mem label place hplace with hempty | hmem
    · simp [Assembler.empty] at hempty
    · exact hmem

theorem disassemble_encodeWith {nodes : List Node} {result : Assembled}
    (h : encodeWith widening nodes = .ok result) (hclosed : Closed nodes) :
    ∃ read, disassemble result.code = .ok read ∧
      LaidOut widening result.places 0 nodes read result.code.length := by
  obtain ⟨plan, pieces, hsettled⟩ := encodeWith_eq_ok h
  obtain rfl := hsettled.nodes_eq
  have hin : ∀ i, .instruction i ∈ plan.map (·.node) →
      TargetsInside result.places result.code.length i := by
    intro i hi target htarget place hplace
    obtain ⟨place', hplace', hlt⟩ := place_lt_of_emitted hsettled.emitted
      (hsettled.label_mem target place hplace) (hclosed.target_mem i hi target htarget)
    rw [hplace] at hplace'
    cases hplace'
    exact hlt
  obtain ⟨read, hread, hseq⟩ := laidOut_of_emitted hsettled.emitted hsettled.resolved le_rfl
    hsettled.allowed hin fun _ => hclosed.last_unconditional
  exact ⟨read, disassemble_eq_ok.mpr hseq, hread⟩

/-! ## Places of labels -/

namespace LaidOut

variable {nodes before after : List Node} {read : List (Located Nat)} {stop : Nat}

theorem split (h : LaidOut widening places start (before ++ after) read stop) :
    ∃ front back middle, read = front ++ back ∧
      LaidOut widening places start before front middle ∧
      LaidOut widening places middle after back stop := by
  induction before generalizing start read with
  | nil => exact ⟨[], read, start, rfl, .nil, h⟩
  | cons node before ih =>
    cases h with
    | label hplace hrest =>
      obtain ⟨front, back, middle, rfl, hbefore, hafter⟩ := ih hrest
      exact ⟨front, back, middle, rfl, .label hplace hbefore, hafter⟩
    | instruction hblock hrest =>
      obtain ⟨front, back, middle, rfl, hbefore, hafter⟩ := ih hrest
      exact ⟨_, back, middle, (List.append_assoc ..).symm, .instruction hblock hbefore, hafter⟩

/-- Nodes start where the first of their instructions does. -/
theorem start_eq (h : LaidOut widening places start nodes read stop) :
    start = (read.head?.map (·.offset)).getD stop := by
  induction h with
  | nil => rfl
  | label _ _ ih => exact ih
  | instruction hblock _ _ => cases hblock <;> rfl

theorem place_eq {label : Label}
    (h : LaidOut widening places start (.label label :: nodes) read stop) :
    places[label]? = some ((read.head?.map (·.offset)).getD stop) := by
  cases h with
  | label hplace hrest => rw [hplace, ← hrest.start_eq]

end LaidOut

theorem all_isLabel_labelNodes (labels : LabelMap) (offset : Nat) :
    (labelNodes labels offset).all Node.isLabel = true := by
  unfold labelNodes
  cases labels.get? offset <;> rfl

theorem mem_labelNodes {labels : LabelMap} {offset : Nat} {label : Label}
    (h : .label label ∈ labelNodes labels offset) : labels.get? offset = some label := by
  unfold labelNodes at h
  cases hlabel : labels.get? offset with
  | none =>
    rw [hlabel] at h
    cases h
  | some other =>
    rw [hlabel] at h
    cases List.mem_singleton.mp h
    rfl

theorem laidOut_labelNodes {labels : LabelMap} {offset stop : Nat} {rest : List Node}
    {read : List (Located Nat)}
    (h : LaidOut widening places start (labelNodes labels offset ++ rest) read stop) :
    (∀ label, labels.get? offset = some label → places[label]? = some start) ∧
      LaidOut widening places start rest read stop := by
  unfold labelNodes at h
  cases hlabel : labels.get? offset with
  | none =>
    rw [hlabel] at h
    refine ⟨fun label hsome => ?_, h⟩
    cases hsome
  | some label =>
    rw [hlabel] at h
    cases h with
    | label hplace hrest =>
      refine ⟨fun other hother => ?_, hrest⟩
      cases hother
      exact hplace

/-- Laid-out code decodes to the instructions of its nodes, and every label has the offset
of the first instruction after it. -/
theorem decode_encodeWith {nodes : List Node} {result : Assembled}
    (h : encodeWith widening nodes = .ok result) (hclosed : Closed nodes) :
    ∃ read, disassemble result.code = .ok read ∧
      LaidOut widening result.places 0 nodes read result.code.length ∧
      (∀ before label after, nodes = before ++ .label label :: after →
        ∃ front back place, read = front ++ back ∧
          LaidOut widening result.places 0 before front place ∧
          LaidOut widening result.places place after back result.code.length ∧
          result.places[label]? =
            some ((back.head?.map (·.offset)).getD result.code.length)) ∧
      ∀ labels, ∃ labelled labels', decode result.code labels = .ok (labelled, labels') ∧
        labels.Grows labels' ∧
        List.Forall₂ (fun l new => l.Labels labels' new) read labelled := by
  obtain ⟨read, hread, hlaid⟩ := disassemble_encodeWith h hclosed
  refine ⟨read, hread, hlaid, ?_, fun labels => decode_eq_ok hread⟩
  rintro before label after rfl
  obtain ⟨front, back, place, hsplit, hbefore, hafter⟩ := hlaid.split
  have hplace := hafter.place_eq
  cases hafter with
  | label _ hrest => exact ⟨front, back, place, hsplit, hbefore, hrest, hplace⟩

/-- A loop over a switch, with a local and a constant that need their wide forms. -/
def switchLoop : List Node :=
  [.label ⟨0⟩, .instruction (.ofSlot Opcode.iload 300), .instruction (.ofConstant Opcode.ldc 256),
   .instruction (.simple Opcode.pop),
   .instruction ⟨Opcode.tableswitch, .tableSwitch ⟨1⟩ (-1) [⟨0⟩, ⟨1⟩]⟩, .label ⟨1⟩,
   .instruction ⟨Opcode.ifeq, .branch ⟨0⟩⟩, .instruction (.simple Opcode.vreturn), .label ⟨2⟩]

theorem closed_switchLoop : Closed switchLoop where
  target_mem := by
    intro i hi
    have htrailing : trailingLabels switchLoop = [.label ⟨2⟩] := by decide
    rw [htrailing]
    simp only [switchLoop, List.mem_cons, Node.instruction.injEq, reduceCtorEq, false_or,
      List.not_mem_nil, or_false] at hi
    rcases hi with rfl | rfl | rfl | rfl | rfl | rfl <;> decide
  last_unconditional := by
    intro i hi
    have hlast : lastInstruction? switchLoop = some (.simple Opcode.vreturn) := by decide
    rw [hlast] at hi
    cases hi
    decide

theorem decode_encodeWith_switchLoop : Closed switchLoop ∧
    ∃ result, encodeWith .all switchLoop = .ok result ∧
      ∃ read, disassemble result.code = .ok read ∧
        LaidOut .all result.places 0 switchLoop read result.code.length := by
  have hsome : (encodeWith .all switchLoop).toOption.isSome = true := by cbv
  cases h : encodeWith .all switchLoop with
  | error e =>
    rw [h] at hsome
    cases hsome
  | ok result =>
    obtain ⟨read, hread, hlaid, -⟩ := decode_encodeWith h closed_switchLoop
    exact ⟨closed_switchLoop, result, rfl, read, hread, hlaid⟩

end ClassPatch.Code
