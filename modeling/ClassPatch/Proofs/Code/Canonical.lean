import Mathlib
import ClassPatch.Proofs.Code.Layout

/-!
# Code in canonical form

Disassembly forgets how code was stored: which locals had wide forms, and what stood in
padding and reserved bytes. Code that has no choice in these is canonical. It is laid out
again byte for byte from its instructions, each after the label of its offset, and the
first round of the layout is the last one, as every branch reaches where it is.
-/

namespace ClassPatch.Code

open Bytes

/-! ## Canonical form -/

/-- Whether the operand of an instruction on locals does not fit in its short form. -/
def Operand.needsWide {τ : Type} : Operand τ → Bool
  | .slot index => 255 < index
  | .increment index delta => 255 < index || delta < -128 || 127 < delta
  | _ => false

/-- The distances from an instruction at `start` to those of its bytes that hold nothing:
the padding of a switch, and the bytes that some calls reserve. -/
def Operand.reserved {τ : Type} (start : Nat) : Operand τ → List Nat
  | .interface _ _ => [4]
  | .dynamic _ => [3, 4]
  | .tableSwitch _ _ _ | .lookupSwitch _ _ => List.range' 1 (3 - start % 4)
  | _ => []

/-- An instruction that is marked as wide only if it has to be, and whose bytes that hold
nothing are zero. -/
structure Located.Canonical (code : List UInt8) (l : Located Nat) : Prop where
  wide : code[l.offset]? = some Opcode.wide → l.instruction.operand.needsWide = true
  reserved : ∀ k ∈ l.instruction.operand.reserved l.offset, code[l.offset + k]? = some 0

instance (code : List UInt8) (l : Located Nat) : Decidable (l.Canonical code) :=
  decidable_of_iff (_ ∧ _) ⟨fun h => ⟨h.1, h.2⟩, fun h => ⟨h.wide, h.reserved⟩⟩

/-! ## One instruction -/

/-- Labels have the places that they stand for. -/
def PlacesOf (m : LabelMap) (offsets : List Nat) (places : Places) : Prop :=
  ∀ offset ∈ offsets, ∀ label, m.get? offset = some label → places[label]? = some offset

/-- Pieces become the given bytes as soon as the labels of the targets have their places. -/
structure ClosesTo (m : LabelMap) (targets : List Nat) (pieces : List Piece)
    (data : List UInt8) : Prop where
  size : piecesSize pieces = data.length
  resolved : ∀ places : Places, PlacesOf m targets places → Resolved places pieces data

variable {m : LabelMap} {codeLength start : Nat} {data : List UInt8}

theorem closesTo_bytes (targets : List Nat) : ClosesTo m targets [.bytes data] data where
  size := by simp [Piece.size]
  resolved places _ := resolved_cons.mpr ⟨data, [], rfl, resolved_nil.mpr rfl, by simp⟩

theorem ClosesTo.bytes {targets : List Nat} {pieces : List Piece} (front : List UInt8)
    (h : ClosesTo m targets pieces data) :
    ClosesTo m targets (.bytes front :: pieces) (front ++ data) where
  size := by rw [piecesSize_cons, h.size, List.length_append, Piece.size]
  resolved places hplaces := resolved_cons.mpr ⟨front, data, rfl, h.resolved places hplaces, rfl⟩

theorem ClosesTo.append {targets targets' : List Nat} {pieces pieces' : List Piece}
    {data' : List UInt8} (h : ClosesTo m targets pieces data)
    (h' : ClosesTo m targets' pieces' data') :
    ClosesTo m (targets ++ targets') (pieces ++ pieces') (data ++ data') where
  size := by rw [piecesSize_append, h.size, h'.size, List.length_append]
  resolved places hplaces := resolved_append.mpr ⟨data, data',
    h.resolved places fun t ht => hplaces t (List.mem_append_left _ ht),
    h'.resolved places fun t ht => hplaces t (List.mem_append_right _ ht), rfl⟩

theorem closesTo_offset32s {targets : List Nat} {labels : List Label}
    (hlabels : List.Forall₂ (fun target label => m.get? target = some label) targets labels)
    (hreach : ∀ target ∈ targets, InReach 0x80000000 codeLength start target) :
    ClosesTo m targets (labels.map (.offset32 · start)) (targets.flatMap (offset32 start)) := by
  induction hlabels with
  | nil => exact ⟨rfl, fun places _ => resolved_nil.mpr rfl⟩
  | @cons target label targets labels hlabel _ ih =>
    obtain ⟨hhead, htail⟩ := List.forall_mem_cons.mp hreach
    have hrest := ih htail
    constructor
    · rw [List.map_cons, piecesSize_cons, hrest.size, List.flatMap_cons, List.length_append,
        length_offset32, Piece.size]
    · intro places hplaces
      have hplace := hplaces target List.mem_cons_self label hlabel
      exact resolved_cons.mpr ⟨_, _, resolve_offset32.mpr ⟨target, hplace, hhead.2.1, hhead.2.2, rfl⟩,
        hrest.resolved places fun t ht => hplaces t (List.mem_cons_of_mem _ ht), rfl⟩

theorem closesTo_pairs {pairs : List (Int32 × Nat)} {labels : List (Int32 × Label)}
    (hlabels : List.Forall₂ (fun p q => q.1 = p.1 ∧ m.get? p.2 = some q.2) pairs labels)
    (hreach : ∀ pair ∈ pairs, InReach 0x80000000 codeLength start pair.2) :
    ClosesTo m (pairs.map (·.2))
      (labels.flatMap fun (key, target) => [.bytes (BigEndian.i32 key), .offset32 target start])
      (pairs.flatMap fun pair => BigEndian.i32 pair.1 ++ offset32 start pair.2) := by
  induction hlabels with
  | nil => exact ⟨rfl, fun places _ => resolved_nil.mpr rfl⟩
  | @cons pair label pairs labels hlabel _ ih =>
    obtain ⟨hhead, htail⟩ := List.forall_mem_cons.mp hreach
    obtain ⟨key, target⟩ := pair
    obtain ⟨key', label⟩ := label
    obtain ⟨rfl, hlabel⟩ : key' = key ∧ _ := hlabel
    have hrest := ih htail
    constructor
    · simp [hrest.size, Piece.size]
    · intro places hplaces
      have hplace := hplaces target List.mem_cons_self label hlabel
      have hoffset := resolve_offset32.mpr ⟨target, hplace, hhead.2.1, hhead.2.2, rfl⟩
      have hbody := hrest.resolved places fun t ht => hplaces t (List.mem_cons_of_mem _ ht)
      exact resolved_cons.mpr ⟨_, _, rfl, resolved_cons.mpr ⟨_, _, hoffset, hbody, rfl⟩, by simp⟩

/-- Padding that holds zeros is the padding that is written. -/
theorem eq_padding {opcode : UInt8} {pad rest : List UInt8}
    (hpad : pad.length = (4 - (start + 1) % 4) % 4)
    (hzero : ∀ k ∈ List.range' 1 (3 - start % 4), (opcode :: (pad ++ rest))[k]? = some 0) :
    pad = padding start := by
  refine List.eq_replicate_iff.mpr ⟨hpad, fun b hb => ?_⟩
  obtain ⟨k, hk⟩ := List.mem_iff_getElem?.mp hb
  obtain ⟨hlt, -⟩ := List.getElem?_eq_some_iff.mp hk
  have hmem : k + 1 ∈ List.range' 1 (3 - start % 4) := by
    rw [List.mem_range'_1]
    omega
  have hbyte := hzero (k + 1) hmem
  rw [List.getElem?_cons_succ, List.getElem?_append_left hlt, hk] at hbyte
  exact Option.some.inj hbyte

/-- The bytes of a switch before its table. -/
theorem ClosesTo.switch {opcode : UInt8} {fallback : Nat} {label : Label} {targets : List Nat}
    {header body : List UInt8} {table : List Piece} (hlabel : m.get? fallback = some label)
    (hreach : InReach 0x80000000 codeLength start fallback) (hbody : ClosesTo m targets table body) :
    ClosesTo m (fallback :: targets)
      (.bytes (opcode :: padding start) :: .offset32 label start :: .bytes header :: table)
      (opcode :: (padding start ++ (offset32 start fallback ++ (header ++ body)))) := by
  refine .bytes (opcode :: padding start) ⟨?_, fun places hplaces => ?_⟩
  · simp [hbody.size, Piece.size]
  · have hplace := hplaces fallback List.mem_cons_self label hlabel
    have hoffset := resolve_offset32.mpr ⟨fallback, hplace, hreach.2.1, hreach.2.2, rfl⟩
    have hrest := hbody.resolved places fun t ht => hplaces t (List.mem_cons_of_mem _ ht)
    exact resolved_cons.mpr ⟨_, _, hoffset, resolved_cons.mpr ⟨_, _, rfl, hrest, rfl⟩, rfl⟩

theorem exists_pieces_tableSwitch {opcode : UInt8} {fallback : Nat} {label : Label}
    {low high : Int32} {targets : List Nat} {labels : List Label}
    (hlayout : Opcode.layout? opcode = some .tableSwitch)
    (hlabel : m.get? fallback = some label)
    (hlabels : List.Forall₂ (fun target label => m.get? target = some label) targets labels)
    (hfallback : InReach 0x80000000 codeLength start fallback) (hle : low ≤ high)
    (hcount : (targets.length : Int) = high.toInt - low.toInt + 1)
    (htargets : ∀ target ∈ targets, InReach 0x80000000 codeLength start target)
    (hfew : targets.length ≤ maxCodeLength) :
    ∃ pieces, (⟨opcode, .tableSwitch label low labels⟩ : Instruction Label).pieces start =
        .ok pieces ∧
      ClosesTo m (fallback :: targets) pieces (opcode :: (padding start ++
        (offset32 start fallback ++ ((BigEndian.i32 low ++ BigEndian.i32 high) ++
          targets.flatMap (offset32 start))))) := by
  have hlength := hlabels.length_eq
  have hbounds := Int32.le_iff_toInt_le.mp hle
  have hlast : low.toInt + labels.length - 1 = high.toInt := by omega
  have hhigh := high.toInt_lt
  have hsome : labels.isEmpty = false := by
    rw [List.isEmpty_eq_false_iff, ← List.length_pos_iff]
    omega
  have hrange : ¬((0x80000000 : Int) ≤ high.toInt ∨ 0x80000000 < labels.length) := by
    unfold maxCodeLength at hfew
    omega
  refine ⟨_, ?_, (closesTo_offset32s hlabels htargets).switch hlabel hfallback⟩
  simp only [Instruction.pieces, hlayout, hsome, Bool.false_eq_true, if_false, if_neg hrange,
    hlast, Int32.ofInt_toInt]

theorem exists_pieces_lookupSwitch {opcode : UInt8} {fallback : Nat} {label : Label}
    {count : Int32} {pairs : List (Int32 × Nat)} {labels : List (Int32 × Label)}
    (hlayout : Opcode.layout? opcode = some .lookupSwitch)
    (hlabel : m.get? fallback = some label)
    (hlabels : List.Forall₂ (fun p q => q.1 = p.1 ∧ m.get? p.2 = some q.2) pairs labels)
    (hfallback : InReach 0x80000000 codeLength start fallback)
    (hcount : (pairs.length : Int) = count.toInt)
    (hpairs : ∀ pair ∈ pairs, InReach 0x80000000 codeLength start pair.2) :
    ∃ pieces, (⟨opcode, .lookupSwitch label labels⟩ : Instruction Label).pieces start =
        .ok pieces ∧
      ClosesTo m (fallback :: pairs.map (·.2)) pieces (opcode :: (padding start ++
        (offset32 start fallback ++ (BigEndian.i32 count ++
          pairs.flatMap fun pair => BigEndian.i32 pair.1 ++ offset32 start pair.2)))) := by
  have hlength := hlabels.length_eq
  have hfew := count.toInt_lt
  have hrange : ¬0x80000000 ≤ labels.length := by omega
  have hheader : BigEndian.i32 count = BigEndian.bytes 4 labels.length := by
    rw [← i32_ofInt_natCast (Nat.not_le.mp hrange), ← hlength, hcount, Int32.ofInt_toInt]
  refine ⟨_, ?_, (closesTo_pairs hlabels hpairs).switch hlabel hfallback⟩
  simp only [Instruction.pieces, hlayout, if_neg hrange, hheader]

/-- The pieces of a branch, by its opcode and an open offset. -/
theorem closesTo_branch {opcode : UInt8} {target : Nat} {label : Label} {piece : Piece}
    {offset : List UInt8} (hlabel : m.get? target = some label)
    (hsize : piece.size = offset.length)
    (hresolve : ∀ places : Places, places[label]? = some target → piece.resolve places = .ok offset) :
    ClosesTo m [target] [.bytes [opcode], piece] (opcode :: offset) := by
  refine .bytes [opcode] ⟨by simp [hsize], fun places hplaces => ?_⟩
  exact resolved_cons.mpr ⟨offset, [], hresolve places (hplaces target List.mem_cons_self label hlabel),
    resolved_nil.mpr rfl, by simp⟩

theorem toUInt16_lt (index : UInt8) : index.toUInt16 < 256 := by
  rw [UInt16.lt_iff_toNat_lt, UInt8.toNat_toUInt16]
  exact index.toNat_lt

theorem toInt16_bounds (delta : Int8) : -128 ≤ delta.toInt16 ∧ delta.toInt16 < 128 := by
  rw [Int16.le_iff_toInt_le, Int16.lt_iff_toInt_lt, Int8.toInt_toInt16]
  exact ⟨delta.le_toInt, delta.toInt_lt⟩

/-- The bytes after an opcode with an index. -/
theorem getElem?_after_index (opcode : UInt8) (index : UInt16) (rest back : List UInt8) (k : Nat) :
    ((opcode :: (BigEndian.u16 index ++ rest)) ++ back)[k + 3]? = (rest ++ back)[k]? := by
  rw [List.cons_append, List.append_assoc, List.getElem?_cons_succ,
    List.getElem?_append_right (by simp), BigEndian.length_u16, Nat.add_sub_cancel]

/-- A local whose index needs a wide form is written in it. -/
theorem exists_pieces_wideSlot {opcode : UInt8} {index : UInt16}
    (hlayout : Opcode.layout? opcode = some .slot)
    (hwide : (Operand.slot index : Operand Nat).needsWide = true) :
    ∃ pieces, (⟨opcode, .slot index⟩ : Instruction Label).pieces start = .ok pieces ∧
      ClosesTo m [] pieces (Opcode.wide :: opcode :: BigEndian.u16 index) := by
  have hlarge : ¬index < 256 := by
    have h : 255 < index := by simpa [Operand.needsWide] using hwide
    rw [UInt16.lt_iff_toNat_lt] at h ⊢
    exact Nat.not_lt.mpr h
  exact ⟨_, by simp only [Instruction.pieces, hlayout, if_neg hlarge], closesTo_bytes _⟩

/-- An increment needs a wide form for its index or for its amount. -/
theorem exists_pieces_wideIncrement {opcode : UInt8} {index : UInt16} {delta : Int16}
    (hlayout : Opcode.layout? opcode = some .increment)
    (hwide : (Operand.increment index delta : Operand Nat).needsWide = true) :
    ∃ pieces, (⟨opcode, .increment index delta⟩ : Instruction Label).pieces start = .ok pieces ∧
      ClosesTo m [] pieces
        (Opcode.wide :: opcode :: (BigEndian.u16 index ++ BigEndian.i16 delta)) := by
  have hlarge : ¬(index < 256 ∧ -128 ≤ delta ∧ delta < 128) := by
    simp only [Operand.needsWide, Bool.or_eq_true, decide_eq_true_eq, UInt16.lt_iff_toNat_lt,
      Int16.lt_iff_toInt_lt] at hwide
    rw [UInt16.lt_iff_toNat_lt, Int16.le_iff_toInt_le, Int16.lt_iff_toInt_lt]
    intro hsmall
    rcases hwide with (h | h) | h
    · exact absurd hsmall.1 (Nat.not_lt.mpr h)
    · exact absurd hsmall.2.1 (Int.not_le.mpr h)
    · exact absurd hsmall.2.2 (Int.not_lt.mpr h)
  exact ⟨_, by simp only [Instruction.pieces, hlayout, if_neg hlarge], closesTo_bytes _⟩

/-- The pieces of a call of an interface method, whose reserved byte is zero. -/
theorem exists_pieces_interface {opcode count : UInt8} {index : UInt16} {reserved : List UInt8}
    (back : List UInt8) (hlayout : Opcode.layout? opcode = some .interface)
    (hone : reserved.length = 1)
    (hzero : ((opcode :: (BigEndian.u16 index ++ (count :: reserved))) ++ back)[4]? = some 0) :
    ∃ pieces, (⟨opcode, .interface index count⟩ : Instruction Label).pieces start = .ok pieces ∧
      ClosesTo m [] pieces (opcode :: (BigEndian.u16 index ++ (count :: reserved))) := by
  obtain ⟨byte, rfl⟩ := List.length_eq_one_iff.mp hone
  rw [getElem?_after_index opcode index _ back 1] at hzero
  obtain rfl : byte = 0 := Option.some.inj hzero
  exact ⟨_, by simp only [Instruction.pieces, hlayout], closesTo_bytes _⟩

/-- The pieces of a dynamic call, whose two reserved bytes are zero. -/
theorem exists_pieces_dynamic {opcode : UInt8} {index : UInt16} {reserved : List UInt8}
    (back : List UInt8) (hlayout : Opcode.layout? opcode = some .dynamic)
    (htwo : reserved.length = 2)
    (hfirst : ((opcode :: (BigEndian.u16 index ++ reserved)) ++ back)[3]? = some 0)
    (hsecond : ((opcode :: (BigEndian.u16 index ++ reserved)) ++ back)[4]? = some 0) :
    ∃ pieces, (⟨opcode, .dynamic index⟩ : Instruction Label).pieces start = .ok pieces ∧
      ClosesTo m [] pieces (opcode :: (BigEndian.u16 index ++ reserved)) := by
  obtain ⟨first, second, rfl⟩ := List.length_eq_two.mp htwo
  rw [getElem?_after_index opcode index _ back 0] at hfirst
  rw [getElem?_after_index opcode index _ back 1] at hsecond
  obtain rfl : first = 0 := Option.some.inj hfirst
  obtain rfl : second = 0 := Option.some.inj hsecond
  exact ⟨_, by simp only [Instruction.pieces, hlayout], closesTo_bytes _⟩

/-- An instruction that is not marked as wide has pieces that close to the bytes it was read
from, if what they reserve is zero. -/
theorem exists_pieces_short {opcode : UInt8} {layout : OperandLayout} {read : Operand Nat}
    {operand : Operand Label} (back : List UInt8) (hlayout : Opcode.layout? opcode = some layout)
    (hstored : Operand.Stored codeLength start layout (start + 1) read data)
    (hoperand : read.mapTargetsM m.get? = some operand)
    (hreserved : ∀ k ∈ read.reserved start, ((opcode :: data) ++ back)[k]? = some 0)
    (hfew : (opcode :: data).length ≤ maxCodeLength) :
    ∃ pieces, (⟨opcode, operand⟩ : Instruction Label).pieces start = .ok pieces ∧
      ClosesTo m (⟨opcode, read⟩ : Instruction Nat).targets pieces (opcode :: data) := by
  cases hstored with
  -- an index of one byte is below the bound from which on wide forms are written
  | @slot _ index =>
    cases hoperand
    have hpieces : (⟨opcode, .slot index.toUInt16⟩ : Instruction Label).pieces start =
        .ok [.bytes [opcode, index]] := by
      simp only [Instruction.pieces, hlayout, if_pos (toUInt16_lt index), UInt8.toUInt8_toUInt16]
    exact ⟨_, hpieces, closesTo_bytes _⟩
  | @increment _ index delta =>
    cases hoperand
    have hsmall := And.intro (toUInt16_lt index) (toInt16_bounds delta)
    have hpieces : (⟨opcode, .increment index.toUInt16 delta.toInt16⟩ :
        Instruction Label).pieces start = .ok [.bytes [opcode, index, delta.toUInt8]] := by
      simp only [Instruction.pieces, hlayout, if_pos hsmall, UInt8.toUInt8_toUInt16,
        Int8.toInt8_toInt16]
    exact ⟨_, hpieces, closesTo_bytes _⟩
  | @constantByte _ index =>
    cases hoperand
    obtain rfl := eq_ldc_of_layout? hlayout
    have hpieces : (⟨Opcode.ldc, .constant index.toUInt16⟩ : Instruction Label).pieces start =
        .ok [.bytes [Opcode.ldc, index]] := by
      simp only [Instruction.pieces, hlayout, if_pos (toUInt16_lt index), UInt8.toUInt8_toUInt16]
    exact ⟨_, hpieces, closesTo_bytes _⟩
  | interface hone =>
    cases hoperand
    exact exists_pieces_interface back hlayout hone (hreserved 4 (by simp [Operand.reserved]))
  | dynamic htwo =>
    cases hoperand
    exact exists_pieces_dynamic back hlayout htwo (hreserved 3 (by simp [Operand.reserved]))
      (hreserved 4 (by simp [Operand.reserved]))
  | branch hreach =>
    obtain ⟨label, hlabel, hsame⟩ := Operand.mapTargetsM_branch_eq_some.mp hoperand
    cases hsame
    refine ⟨[.bytes [opcode], .offset16 label start], by simp only [Instruction.pieces, hlayout],
      closesTo_branch hlabel ?_ ?_⟩
    · simp [Piece.size]
    · exact fun places hplace => resolve_offset16.mpr ⟨_, hplace, hreach.2.1, hreach.2.2, rfl⟩
  | branchWide hreach =>
    obtain ⟨label, hlabel, hsame⟩ := Operand.mapTargetsM_branch_eq_some.mp hoperand
    cases hsame
    refine ⟨[.bytes [opcode], .offset32 label start], by simp only [Instruction.pieces, hlayout],
      closesTo_branch hlabel ?_ ?_⟩
    · simp [Piece.size]
    · exact fun places hplace => resolve_offset32.mpr ⟨_, hplace, hreach.2.1, hreach.2.2, rfl⟩
  | @tableSwitch _ fallback low high targets pad hpad hfallback hle hcount htargets =>
    obtain ⟨label, labels, hlabel, hrest, hsame⟩ :=
      Operand.mapTargetsM_tableSwitch_eq_some.mp hoperand
    cases hsame
    have hpadding := eq_padding hpad (by simpa [Operand.reserved] using hreserved)
    have htargetsFew : targets.length ≤ maxCodeLength := by
      refine le_trans ?_ hfew
      simp [length_flatMap_of_forall (length_offset32 start)]
      omega
    rw [hpadding, ← List.append_assoc (BigEndian.i32 low)]
    exact exists_pieces_tableSwitch hlayout hlabel hrest hfallback hle hcount htargets htargetsFew
  | @lookupSwitch _ fallback count pairs pad hpad hfallback hcount hpairs =>
    obtain ⟨label, labels, hlabel, hrest, hsame⟩ :=
      Operand.mapTargetsM_lookupSwitch_eq_some.mp hoperand
    cases hsame
    rw [eq_padding hpad (by simpa [Operand.reserved] using hreserved)]
    exact exists_pieces_lookupSwitch hlayout hlabel hrest hfallback hcount hpairs
  | _ =>
    cases hoperand
    exact ⟨_, by simp only [Instruction.pieces, hlayout], closesTo_bytes _⟩

/-- A canonical instruction has pieces that close to the bytes it was read from. -/
theorem exists_pieces {read : Instruction Nat} {i : Instruction Label} (back : List UInt8)
    (hstored : read.Stored codeLength start data) (hlabels : read.mapTargetsM m.get? = some i)
    (hwide : data[0]? = some Opcode.wide → read.operand.needsWide = true)
    (hreserved : ∀ k ∈ read.operand.reserved start, (data ++ back)[k]? = some 0)
    (hfew : data.length ≤ maxCodeLength) :
    ∃ pieces, i.pieces start = .ok pieces ∧ ClosesTo m read.targets pieces data := by
  obtain ⟨hopcode, hoperand⟩ := Instruction.mapTargetsM_eq_some.mp hlabels
  obtain ⟨opcode', operand'⟩ := i
  cases hstored with
  | @short _ opcode layout operand data hlayout hne hdata =>
    obtain rfl : opcode = opcode' := hopcode.symm
    exact exists_pieces_short back hlayout hdata hoperand hreserved hfew
  | @wideSlot _ opcode index hlayout =>
    obtain rfl : opcode = opcode' := hopcode.symm
    cases hoperand
    exact exists_pieces_wideSlot hlayout (hwide rfl)
  | @wideIncrement _ opcode index delta hlayout =>
    obtain rfl : opcode = opcode' := hopcode.symm
    cases hoperand
    exact exists_pieces_wideIncrement hlayout (hwide rfl)

/-! ## A whole round -/

theorem mapM_assemble_cons {p : PlannedNode} {plan : List PlannedNode} {a a₁ a' : Assembler}
    {front : List Piece} {pieces : List (List Piece)} (hp : p.assemble a = .ok front a₁)
    (hplan : plan.mapM PlannedNode.assemble a₁ = .ok pieces a') :
    (p :: plan).mapM PlannedNode.assemble a = .ok (front :: pieces) a' :=
  Success.state_mapM_cons.mpr ⟨front, a₁, pieces, hp, hplan, rfl⟩

theorem mapM_assemble_append {plan plan' : List PlannedNode} {a a₁ a' : Assembler}
    {pieces pieces' : List (List Piece)} (h : plan.mapM PlannedNode.assemble a = .ok pieces a₁)
    (h' : plan'.mapM PlannedNode.assemble a₁ = .ok pieces' a') :
    (plan ++ plan').mapM PlannedNode.assemble a = .ok (pieces ++ pieces') a' := by
  rw [List.mapM_append, Success.state_bind_ok h, Success.state_bind_ok h']
  rfl

/-- The first round over instructions that were read lays them out where they were. -/
structure Reassembled (m : LabelMap) (read : List (Located Nat)) (nodes : List Node)
    (data : List UInt8) (a : Assembler) (pieces : List (List Piece)) (a' : Assembler) : Prop where
  assembled : (shortPlan nodes).mapM PlannedNode.assemble a = .ok pieces a'
  size : a'.size = a.size + data.length
  closes : ClosesTo m (read.flatMap (·.instruction.targets)) pieces.flatten data
  placed : PlacesOf m (read.map (·.offset)) a'.places

/-- The label of an offset, if it has one, gets the place where the code has come to. -/
theorem exists_assemble_labelNodes {a : Assembler} {offset : Nat}
    (hfresh : ∀ label, m.get? offset = some label → a.places[label]? = none) :
    ∃ (a₁ : Assembler) (front : List (List Piece)), front.flatten = [] ∧ a₁.size = a.size ∧
      (∀ label, m.get? offset = some label → a₁.places[label]? = some a.size) ∧
      (∀ label, m.get? offset ≠ some label → a₁.places[label]? = a.places[label]?) ∧
      ∀ nodes pieces a', (shortPlan nodes).mapM PlannedNode.assemble a₁ = .ok pieces a' →
        (shortPlan (labelNodes m offset ++ nodes)).mapM PlannedNode.assemble a =
          .ok (front ++ pieces) a' := by
  unfold labelNodes
  cases hget : m.get? offset with
  | none => exact ⟨a, [], rfl, rfl, by simp, fun _ _ => rfl, fun _ _ _ h => h⟩
  | some label =>
    have hplace : (⟨.label label, false⟩ : PlannedNode).assemble a =
        .ok [] { a with places := a.places.insert label a.size } :=
      assemble_label_eq_ok.mpr ⟨rfl, hfresh label hget, rfl⟩
    refine ⟨{ a with places := a.places.insert label a.size }, [[]], rfl, rfl, ?_, ?_, ?_⟩
    · intro label' hlabel'
      obtain rfl := Option.some.inj hlabel'
      simp
    · intro label' hne
      rw [Std.HashMap.getElem?_insert, if_neg]
      simpa using hne
    · exact fun nodes pieces a' hnodes => mapM_assemble_cons hplace hnodes

theorem exists_reassembled {read : List (Located Nat)} {labelled : List (Located Label)}
    {code : List UInt8} {pos : Nat} (hm : m.Distinct)
    (hseq : Format.Sequence (Located.Stored code.length) pos read data)
    (hdata : data = code.drop pos)
    (hlabels : List.Forall₂ (fun l new => l.Labels m new) read labelled)
    (hcanonical : ∀ l ∈ read, l.Canonical code) (hfew : code.length ≤ maxCodeLength)
    {a : Assembler} (hsize : a.size = pos)
    (hfresh : ∀ l ∈ read, ∀ label, m.get? l.offset = some label → a.places[label]? = none) :
    ∃ pieces a', Reassembled m read (labelledNodes m labelled) data a pieces a' := by
  induction hseq generalizing labelled a with
  | nil =>
    cases hlabels
    exact ⟨[], a, rfl, rfl, ⟨rfl, fun _ _ => resolved_nil.mpr rfl⟩, by simp [PlacesOf]⟩
  | @cons pos l ls front back hl hrest ih =>
    obtain ⟨new, rest, ⟨hoffset', hnew⟩, hlabelsRest, rfl⟩ := List.forall₂_cons_left_iff.mp hlabels
    obtain ⟨hcanonicalHead, hcanonicalRest⟩ := List.forall_mem_cons.mp hcanonical
    obtain ⟨hfreshHead, hfreshRest⟩ := List.forall_mem_cons.mp hfresh
    have hoffset : l.offset = pos := hl.1
    have hpos := length_stored_pos hl
    -- the bytes of the instruction are those of the code from its offset on
    have hbyte (k : Nat) : code[l.offset + k]? = (front ++ back)[k]? := by
      rw [hdata, hoffset, List.getElem?_drop]
    have hfit : front.length ≤ maxCodeLength := by
      have hlength := congrArg List.length hdata
      rw [List.length_append, List.length_drop] at hlength
      omega
    obtain ⟨pieces, hpieces, hcloses⟩ := exists_pieces back hl.2 hnew
      (fun hwide => hcanonicalHead.wide (by
        rw [← Nat.add_zero l.offset, hbyte, List.getElem?_append_left hpos]
        exact hwide))
      (fun k hk => by
        rw [← hbyte k]
        exact hcanonicalHead.reserved k (by rwa [hoffset])) hfit
    obtain ⟨a₁, labels, hnil, hsame, hplaced, hkept, hrun⟩ := exists_assemble_labelNodes hfreshHead
    have hemit : (⟨.instruction new.instruction, false⟩ : PlannedNode).assemble a₁ =
        .ok pieces (a₁.append pieces) := by
      refine assemble_instruction_eq_ok.mpr ⟨?_, rfl⟩
      rw [hsame, hsize]
      exact hpieces
    -- labels of later offsets are other labels, so they stay without places
    have hlater : ∀ l' ∈ ls, ∀ label, m.get? l'.offset = some label →
        (a₁.append pieces).places[label]? = none := by
      intro l' hl' label hlabel
      rw [Assembler.places_append, hkept, hfreshRest l' hl' label hlabel]
      intro hshared
      have hle := le_offset_of_sequence hrest l' hl'
      have heq := hm.injective _ _ _ hshared hlabel
      omega
    obtain ⟨morePieces, a', htail⟩ := ih (by rw [← List.drop_drop, ← hdata, List.drop_left])
      hlabelsRest hcanonicalRest (by rw [Assembler.size_append, hcloses.size, hsame, hsize]) hlater
    have hassembled := mapM_assemble_cons hemit htail.assembled
    refine ⟨labels ++ pieces :: morePieces, a', ?_, ?_, ?_, ?_⟩
    · rw [labelledNodes, List.flatMap_cons, List.append_assoc, hoffset']
      exact hrun _ _ _ hassembled
    · rw [htail.size, Assembler.size_append, hcloses.size, hsame, List.length_append, Nat.add_assoc]
    · rw [List.flatten_append, hnil, List.nil_append, List.flatten_cons, List.flatMap_cons]
      exact hcloses.append htail.closes
    · refine List.forall_mem_cons.mpr ⟨fun label hlabel => ?_, htail.placed⟩
      have hfirst := hplaced label hlabel
      rw [hsize, ← hoffset] at hfirst
      exact (assembledPlan_of_mapM htail.assembled).places_le label l.offset hfirst

/-! ## The layout of canonical code -/

theorem overflows_of_resolve {places : Places} {piece : Piece} {bytes : List UInt8}
    (h : piece.resolve places = .ok bytes) : piece.overflows places = false := by
  cases piece with
  | offset16 target origin =>
    obtain ⟨place, hplace, hlow, hhigh, -⟩ := resolve_offset16.mp h
    have hshort : isShort ((place : Int) - origin) = true := by
      simp only [isShort, Bool.and_eq_true, decide_eq_true_eq]
      exact ⟨hlow, hhigh⟩
    simp [Piece.overflows, hplace, hshort]
  | _ => rfl

theorem resolve_of_mem {places : Places} {pieces : List Piece} (h : Resolved places pieces data)
    {piece : Piece} (hpiece : piece ∈ pieces) : ∃ bytes, piece.resolve places = .ok bytes := by
  obtain ⟨parts, hparts, -⟩ := h
  obtain ⟨bytes, -, hbytes⟩ := exists_of_mem_left (Success.except_mapM.mp hparts) hpiece
  exact ⟨bytes, hbytes⟩

theorem exists_of_mem_checkPlan {plan : List PlannedNode} {pieces : List (List Piece)}
    {places : Places} {c : CheckedNode} (hc : c ∈ checkPlan plan pieces places) :
    ∃ ps ∈ pieces, c.overflows = ps.any (Piece.overflows places) := by
  obtain ⟨⟨p, ps⟩, hmem, rfl⟩ := List.mem_map.mp hc
  exact ⟨ps, (List.of_mem_zip hmem).2, rfl⟩

/-- Where all pieces of a round close, no branch is out of reach and the round is the last one. -/
theorem reaching_of_resolved {plan : List PlannedNode} {pieces : List (List Piece)} {a : Assembler}
    {code : List UInt8} (hassemble : assemblePlan plan = .ok (pieces, a))
    (hsize : a.size ≤ maxCodeLength) (hresolved : Resolved a.places pieces.flatten code) :
    (∀ c ∈ checkPlan plan pieces a.places, c.overflows = false) ∧
      a.finish = .ok ⟨code, a.places⟩ := by
  have hpieces : a.pieces.toList = pieces.flatten := by
    rw [(assemblePlan_eq_ok hassemble).pieces_eq]
    rfl
  refine ⟨fun c hc => ?_, finish_eq_ok.mpr ⟨hsize, hpieces ▸ hresolved, rfl⟩⟩
  obtain ⟨ps, hps, hoverflows⟩ := exists_of_mem_checkPlan hc
  rw [hoverflows, List.any_eq_false]
  intro piece hpiece
  obtain ⟨bytes, hbytes⟩ := resolve_of_mem hresolved (List.mem_flatten_of_mem hps hpiece)
  simp [overflows_of_resolve hbytes]

theorem label_mem_labelledNodes {labelled : List (Located Label)} {label : Label} :
    .label label ∈ labelledNodes m labelled ↔ ∃ l ∈ labelled, m.get? l.offset = some label := by
  simp [labelledNodes, labelNodes]

/-- Code in canonical form whose branches lead to instructions is laid out byte for byte
from its instructions, each after the label of its offset, and every label has its offset
as its place. Branches take their short forms and reach: none is widened. -/
theorem encodeWith_labelledNodes {code : List UInt8} {initial labels later : LabelMap}
    {read : List (Located Nat)} {labelled : List (Located Label)}
    (hread : disassemble code = .ok read) (hinitial : initial.Distinct)
    (hdecode : decode code initial = .ok (labelled, labels)) (hlater : labels.Grows later)
    (hfew : code.length ≤ maxCodeLength)
    (htargets : ∀ l ∈ read, ∀ target ∈ l.instruction.targets, target ∈ read.map (·.offset))
    (hcanonical : ∀ l ∈ read, l.Canonical code) (widening : BranchWidening) :
    ∃ result, encodeWith widening (labelledNodes later labelled) = .ok result ∧
      result.code = code ∧
      (∀ label place, result.places[label]? = some place ↔
        place ∈ read.map (·.offset) ∧ later.get? place = some label) ∧
      ∃ pieces a, assemblePlan (shortPlan (labelledNodes later labelled)) = .ok (pieces, a) ∧
        (∀ c ∈ checkPlan (shortPlan (labelledNodes later labelled)) pieces a.places,
          c.overflows = false) ∧
        a.finish = .ok result := by
  rw [decode, hread] at hdecode
  have hrun : read.mapM Located.labelled initial = (labelled, labels) := Except.ok.inj hdecode
  obtain ⟨hgrows, hgives⟩ := Labelling.gives_mapM gives_labelled read initial
  rw [hrun] at hgrows hgives
  have hlabels := hgives later hlater
  have hseq := disassemble_eq_ok.mp hread
  obtain ⟨pieces, a, hround⟩ := exists_reassembled (hlater.distinct (hgrows.distinct hinitial)) hseq
    rfl hlabels hcanonical hfew (a := .empty) rfl fun _ _ _ _ => by simp [Assembler.empty]
  have hassemble : assemblePlan (shortPlan (labelledNodes later labelled)) = .ok (pieces, a) := by
    rw [assemblePlan, hround.assembled]
  have hplan := assemblePlan_eq_ok hassemble
  have hplaced : PlacesOf later (read.flatMap (·.instruction.targets)) a.places := by
    intro target htarget
    obtain ⟨l, hl, hmem⟩ := List.mem_flatMap.mp htarget
    exact hround.placed target (htargets l hl target hmem)
  have hsize : a.size ≤ maxCodeLength := by
    rw [hround.size]
    simpa [Assembler.empty] using hfew
  obtain ⟨hreach, hfinish⟩ :=
    reaching_of_resolved hassemble hsize (hround.closes.resolved a.places hplaced)
  refine ⟨⟨code, a.places⟩, ?_, rfl, fun label place => ⟨fun hplace => ?_, fun hplace => ?_⟩,
    pieces, a, hassemble, hreach, hfinish⟩
  · rw [← hfinish]
    exact settle_of_reaching hassemble hreach
  · have hmem : .label label ∈ labelledNodes later labelled := by
      rcases hplan.label_mem label place hplace with hempty | hmem
      · simp [Assembler.empty] at hempty
      · simpa [shortPlan] using hmem
    obtain ⟨new, hnew, hlabel⟩ := label_mem_labelledNodes.mp hmem
    obtain ⟨l, hl, hoffset, -⟩ := exists_of_mem_right hlabels hnew
    rw [hoffset] at hlabel
    have hsame := hround.placed l.offset (List.mem_map_of_mem hl) label hlabel
    rw [hplace] at hsame
    obtain rfl := Option.some.inj hsame
    exact ⟨List.mem_map_of_mem hl, hlabel⟩
  · exact hround.placed place hplace.1 label hplace.2

/-- A local with a wide index, a switch over two bytes of padding, a call of an interface
method and a jump back to the start. -/
def switchBack : List UInt8 :=
  [0xC4, 0x15, 0x01, 0x2C, 0x00, 0xAA, 0, 0, 0, 0, 0, 19, 0, 0, 0, 0, 0, 0, 0, 0, 0xFF, 0xFF, 0xFF,
    0xFB, 0xB9, 0x00, 0x01, 0x01, 0x00, 0xA7, 0xFF, 0xE3, 0xB1]

/-- The instructions of `switchBack`. -/
def switchBackRead : List (Located Nat) :=
  [⟨0, .ofSlot Opcode.iload 300⟩, ⟨4, .simple 0⟩,
    ⟨5, ⟨Opcode.tableswitch, .tableSwitch 24 0 [0]⟩⟩,
    ⟨24, ⟨Opcode.invokeinterface, .interface 1 1⟩⟩, ⟨29, ⟨Opcode.goto, .branch 0⟩⟩,
    ⟨32, .simple Opcode.vreturn⟩]

theorem encodeWith_labelledNodes_switchBack :
    disassemble switchBack = .ok switchBackRead ∧
      (∀ l ∈ switchBackRead, ∀ target ∈ l.instruction.targets,
        target ∈ switchBackRead.map (·.offset)) ∧
      (∀ l ∈ switchBackRead, l.Canonical switchBack) ∧
      ∃ labelled labels, decode switchBack .empty = .ok (labelled, labels) ∧
        ∃ result, encode (labelledNodes labels labelled) = .ok result ∧
          result.code = switchBack := by
  have hread : disassemble switchBack = .ok switchBackRead := by decide +kernel
  have htargets : ∀ l ∈ switchBackRead, ∀ target ∈ l.instruction.targets,
      target ∈ switchBackRead.map (·.offset) := by decide
  have hcanonical : ∀ l ∈ switchBackRead, l.Canonical switchBack := by decide
  obtain ⟨labelled, labels, hdecode, -⟩ := @decode_eq_ok _ .empty _ hread
  obtain ⟨result, hresult, hcode, -⟩ := encodeWith_labelledNodes hread LabelMap.distinct_empty
    hdecode (.refl labels) (by decide) htargets hcanonical .all
  exact ⟨hread, htargets, hcanonical, labelled, labels, hdecode, result, hresult, hcode⟩

end ClassPatch.Code
