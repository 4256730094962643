import Mathlib
import ClassPatch.Code.Disassembly
import ClassPatch.Proofs.Bytes.Reader

/-!
# Stored instructions

Which bytes an instruction with offsets as targets is stored as, at a position in code
of a given length. Most instructions have one form; reserved bytes and padding may hold
anything, and instructions on locals have a wide form besides the short one.

`disassemble` succeeds exactly on code that is cut up into stored instructions without
gaps, and gives these instructions.
-/

namespace ClassPatch.Code

open Bytes Bytes.Reader

/-! ## Offsets -/

/-- The places in the code that an offset below `bound` in size leads to. -/
def InReach (bound : Int) (codeLength offset target : Nat) : Prop :=
  target < codeLength ∧ -bound ≤ (target : Int) - offset ∧ (target : Int) - offset < bound

/-- The two bytes that lead from an instruction to a place. -/
def offset16 (offset target : Nat) : List UInt8 :=
  BigEndian.i16 (Int16.ofInt ((target : Int) - offset))

/-- The four bytes that lead from an instruction to a place. -/
def offset32 (offset target : Nat) : List UInt8 :=
  BigEndian.i32 (Int32.ofInt ((target : Int) - offset))

theorem parses_branchTarget (codeLength offset : Nat) (delta : Int32) :
    (branchTarget codeLength offset delta).Parses fun _ target data =>
      (target < codeLength ∧ (target : Int) = offset + delta.toInt) ∧ data = [] := by
  refine .cases (fun hout => ?_) fun hin => ?_
  · refine (Parses.malformed _).congr fun pos target data => ?_
    refine iff_of_false id ?_
    rintro ⟨⟨hlt, htarget⟩, -⟩
    omega
  · refine (Parses.pure _).congr fun pos target data => and_congr_left fun _ => ?_
    omega

theorem parses_target32 (codeLength offset : Nat) :
    (do branchTarget codeLength offset (← i32) : Reader Nat).Parses fun _ target data =>
      InReach 0x80000000 codeLength offset target ∧ data = offset32 offset target := by
  refine (Parses.i32.bind fun delta => parses_branchTarget codeLength offset delta).congr
    fun pos target data => ?_
  constructor
  · rintro ⟨delta, _, _, rfl, ⟨⟨hlt, htarget⟩, rfl⟩, rfl⟩
    have hdelta : (target : Int) - offset = delta.toInt := by omega
    have hlow := delta.le_toInt
    have hhigh := delta.toInt_lt
    refine ⟨⟨hlt, by omega, by omega⟩, ?_⟩
    rw [offset32, hdelta, Int32.ofInt_toInt, List.append_nil]
  · rintro ⟨⟨hlt, hlow, hhigh⟩, rfl⟩
    have hdelta : (Int32.ofInt ((target : Int) - offset)).toInt = (target : Int) - offset :=
      Int32.toInt_ofInt_of_le hlow hhigh
    refine ⟨Int32.ofInt ((target : Int) - offset), _, [], rfl, ⟨⟨hlt, by omega⟩, rfl⟩, ?_⟩
    rw [List.append_nil, offset32]

/-- A four-byte offset followed by more. -/
theorem parses_target32_bind {α : Type} (codeLength offset : Nat) {f : Nat → Reader α}
    {G : Nat → Format α} (hf : ∀ target, (f target).Parses (G target)) :
    (do f (← branchTarget codeLength offset (← i32)) : Reader α).Parses
      (Format.andThen (fun _ target data => InReach 0x80000000 codeLength offset target ∧
        data = offset32 offset target) G) := by
  have h := (parses_target32 codeLength offset).bind hf
  rwa [bind_assoc] at h

/-! ## Operands -/

/-- The stored forms of an operand after an opcode at `offset`. -/
inductive Operand.Stored (codeLength offset : Nat) : OperandLayout → Format (Operand Nat)
  | plain {pos : Nat} : Stored codeLength offset .plain pos .plain []
  | byte {pos : Nat} {value : Int8} :
      Stored codeLength offset .byte pos (.byte value) [value.toUInt8]
  | short {pos : Nat} {value : Int16} :
      Stored codeLength offset .short pos (.short value) (BigEndian.i16 value)
  | arrayType {pos : Nat} {code : UInt8} :
      Stored codeLength offset .arrayType pos (.arrayType code) [code]
  | slot {pos : Nat} {index : UInt8} :
      Stored codeLength offset .slot pos (.slot index.toUInt16) [index]
  | increment {pos : Nat} {index : UInt8} {delta : Int8} :
      Stored codeLength offset .increment pos (.increment index.toUInt16 delta.toInt16)
        [index, delta.toUInt8]
  | constantByte {pos : Nat} {index : UInt8} :
      Stored codeLength offset .constantByte pos (.constant index.toUInt16) [index]
  | constant {pos : Nat} {index : UInt16} :
      Stored codeLength offset .constant pos (.constant index) (BigEndian.u16 index)
  | interface {pos : Nat} {index : UInt16} {count : UInt8} {reserved : List UInt8} :
      reserved.length = 1 →
      Stored codeLength offset .interface pos (.interface index count)
        (BigEndian.u16 index ++ (count :: reserved))
  | dynamic {pos : Nat} {index : UInt16} {reserved : List UInt8} :
      reserved.length = 2 →
      Stored codeLength offset .dynamic pos (.dynamic index) (BigEndian.u16 index ++ reserved)
  | multiArray {pos : Nat} {index : UInt16} {dimensions : UInt8} :
      Stored codeLength offset .multiArray pos (.multiArray index dimensions)
        (BigEndian.u16 index ++ [dimensions])
  | branch {pos target : Nat} :
      InReach 0x8000 codeLength offset target →
      Stored codeLength offset .branch pos (.branch target) (offset16 offset target)
  | branchWide {pos target : Nat} :
      InReach 0x80000000 codeLength offset target →
      Stored codeLength offset .branchWide pos (.branch target) (offset32 offset target)
  | tableSwitch {pos fallback : Nat} {low high : Int32} {targets : List Nat}
        {pad : List UInt8} :
      pad.length = (4 - pos % 4) % 4 →
      InReach 0x80000000 codeLength offset fallback →
      low ≤ high → (targets.length : Int) = high.toInt - low.toInt + 1 →
      (∀ target ∈ targets, InReach 0x80000000 codeLength offset target) →
      Stored codeLength offset .tableSwitch pos (.tableSwitch fallback low targets)
        (pad ++ (offset32 offset fallback ++ (BigEndian.i32 low ++ (BigEndian.i32 high ++
          targets.flatMap (offset32 offset)))))
  | lookupSwitch {pos fallback : Nat} {count : Int32} {pairs : List (Int32 × Nat)}
        {pad : List UInt8} :
      pad.length = (4 - pos % 4) % 4 →
      InReach 0x80000000 codeLength offset fallback →
      (pairs.length : Int) = count.toInt →
      (∀ pair ∈ pairs, InReach 0x80000000 codeLength offset pair.2) →
      Stored codeLength offset .lookupSwitch pos (.lookupSwitch fallback pairs)
        (pad ++ (offset32 offset fallback ++ (BigEndian.i32 count ++
          pairs.flatMap fun pair => BigEndian.i32 pair.1 ++ offset32 offset pair.2)))

theorem parses_branch16 (codeLength offset : Nat) :
    (readOperand codeLength offset .branch).Parses
      (Operand.Stored codeLength offset .branch) := by
  refine (Parses.i16.bind fun delta =>
    (parses_branchTarget codeLength offset delta.toInt32).map Operand.branch).congr
      fun pos operand data => ?_
  constructor
  · rintro ⟨delta, _, _, rfl, ⟨target, ⟨⟨hlt, htarget⟩, rfl⟩, rfl⟩, rfl⟩
    rw [Int16.toInt_toInt32] at htarget
    have hdelta : (target : Int) - offset = delta.toInt := by omega
    have hlow := delta.le_toInt
    have hhigh := delta.toInt_lt
    have hdata : BigEndian.i16 delta ++ [] = offset16 offset target := by
      rw [offset16, hdelta, Int16.ofInt_toInt, List.append_nil]
    rw [hdata]
    exact .branch ⟨hlt, by omega, by omega⟩
  · intro h
    cases h with
    | @branch _ target hreach =>
      obtain ⟨hlt, hlow, hhigh⟩ := hreach
      have hdelta : (Int16.ofInt ((target : Int) - offset)).toInt = (target : Int) - offset :=
        Int16.toInt_ofInt_of_le hlow hhigh
      refine ⟨Int16.ofInt ((target : Int) - offset), _, [], rfl, ⟨target, ⟨⟨hlt, ?_⟩, rfl⟩, rfl⟩, ?_⟩
      · rw [Int16.toInt_toInt32]
        omega
      · rw [List.append_nil, offset16]

theorem parses_branch32 (codeLength offset : Nat) :
    (readOperand codeLength offset .branchWide).Parses
      (Operand.Stored codeLength offset .branchWide) := by
  refine (parses_target32_bind codeLength offset fun target => Parses.pure (Operand.branch target)).congr
    fun pos operand data => ?_
  constructor
  · rintro ⟨target, _, _, ⟨hreach, rfl⟩, ⟨rfl, rfl⟩, rfl⟩
    rw [List.append_nil]
    exact .branchWide hreach
  · rintro ⟨⟩
    exact ⟨_, _, [], ⟨‹_›, rfl⟩, ⟨rfl, rfl⟩, (List.append_nil _).symm⟩

theorem length_flatMap_of_forall {α : Type} {f : α → List UInt8} {n : Nat}
    (hf : ∀ a, (f a).length = n) (as : List α) :
    (as.flatMap f).length = as.length * n := by
  simp [List.length_flatMap, hf]

@[simp] theorem length_offset16 (offset target : Nat) : (offset16 offset target).length = 2 := by
  simp [offset16]

@[simp] theorem length_offset32 (offset target : Nat) : (offset32 offset target).length = 4 := by
  simp [offset32]

theorem parses_tableSwitch (codeLength offset : Nat) :
    (readTableSwitch codeLength offset).Parses
      (Operand.Stored codeLength offset .tableSwitch) := by
  refine ((Parses.align 4).bind fun _ => parses_target32_bind codeLength offset fun fallback =>
    Parses.i32.bind fun low => Parses.i32.bind (G := fun high _ operand data => low ≤ high ∧
      ∃ targets : List Nat, (targets.length : Int) = high.toInt - low.toInt + 1 ∧
        (∀ target ∈ targets, InReach 0x80000000 codeLength offset target) ∧
        operand = .tableSwitch fallback low targets ∧
        data = targets.flatMap (offset32 offset)) fun high =>
      .cases (fun hbounds => ?_) fun hbounds => ?_).congr fun pos operand data => ?_
  · refine (Parses.malformed _).congr fun pos operand data => iff_of_false id ?_
    rintro ⟨hle, -⟩
    exact absurd hle (Int32.not_le.mpr hbounds)
  · have hle := Int32.not_lt.mp hbounds
    have hcount := Int32.le_iff_toInt_le.mp hle
    refine .ensure ((((parses_target32 codeLength offset).times _).map
      (Operand.tableSwitch fallback low)).congr fun pos operand data => ?_) ?_
    · simp only [Format.sequence_iff_flatMap]
      constructor
      · rintro ⟨targets, ⟨hlen, hreach, rfl⟩, rfl⟩
        exact ⟨hle, targets, by omega, hreach, rfl, rfl⟩
      · rintro ⟨-, targets, hlen, hreach, rfl, rfl⟩
        exact ⟨targets, ⟨by omega, hreach, rfl⟩, rfl⟩
    · rintro pos operand data ⟨-, targets, hlen, -, -, rfl⟩
      rw [length_flatMap_of_forall (length_offset32 offset)]
      omega
  · constructor
    · rintro ⟨_, pad, _, hpad, ⟨fallback, _, _, ⟨hfallback, rfl⟩, ⟨low, _, _, rfl, ⟨high, _, _, rfl,
        ⟨hle, targets, hlen, hreach, rfl, rfl⟩, rfl⟩, rfl⟩, rfl⟩, rfl⟩
      exact .tableSwitch hpad hfallback hle hlen hreach
    · intro h
      cases h with
      | tableSwitch hpad hfallback hle hlen hreach =>
        exact ⟨(), _, _, hpad, ⟨_, _, _, ⟨hfallback, rfl⟩, ⟨_, _, _, rfl, ⟨_, _, _, rfl,
          ⟨hle, _, hlen, hreach, rfl, rfl⟩, rfl⟩, rfl⟩, rfl⟩, rfl⟩

theorem parses_lookupSwitch (codeLength offset : Nat) :
    (readLookupSwitch codeLength offset).Parses
      (Operand.Stored codeLength offset .lookupSwitch) := by
  have hpair : (do
      let key ← i32
      return (key, ← branchTarget codeLength offset (← i32)) : Reader (Int32 × Nat)).Parses
        fun _ pair data => InReach 0x80000000 codeLength offset pair.2 ∧
          data = BigEndian.i32 pair.1 ++ offset32 offset pair.2 := by
    refine (Parses.i32.bind fun key => parses_target32_bind codeLength offset fun target =>
      Parses.pure (key, target)).congr fun pos pair data => ?_
    constructor
    · rintro ⟨key, _, _, rfl, ⟨target, _, _, ⟨hreach, rfl⟩, ⟨rfl, rfl⟩, rfl⟩, rfl⟩
      rw [List.append_nil]
      exact ⟨hreach, rfl⟩
    · rintro ⟨hreach, rfl⟩
      exact ⟨_, _, _, rfl, ⟨_, _, [], ⟨hreach, rfl⟩, ⟨rfl, rfl⟩, (List.append_nil _).symm⟩, rfl⟩
  refine ((Parses.align 4).bind fun _ => parses_target32_bind codeLength offset fun fallback =>
    Parses.i32.bind (G := fun count _ operand data => ∃ pairs : List (Int32 × Nat),
      (pairs.length : Int) = count.toInt ∧
        (∀ pair ∈ pairs, InReach 0x80000000 codeLength offset pair.2) ∧
        operand = .lookupSwitch fallback pairs ∧
        data = pairs.flatMap fun pair => BigEndian.i32 pair.1 ++ offset32 offset pair.2)
      fun count => .cases (fun hnegative => ?_) fun hnegative => ?_).congr fun pos operand data => ?_
  · refine (Parses.malformed _).congr fun pos operand data => iff_of_false id ?_
    rintro ⟨pairs, hlen, -⟩
    have : count.toInt < 0 := Int32.lt_iff_toInt_lt.mp hnegative
    omega
  · have hcount : 0 ≤ count.toInt := Int32.le_iff_toInt_le.mp (Int32.not_lt.mp hnegative)
    refine .ensure (((hpair.times _).map (Operand.lookupSwitch fallback)).congr
      fun pos operand data => ?_) ?_
    · simp only [Format.sequence_iff_flatMap]
      constructor
      · rintro ⟨pairs, ⟨hlen, hreach, rfl⟩, rfl⟩
        exact ⟨pairs, by omega, hreach, rfl, rfl⟩
      · rintro ⟨pairs, hlen, hreach, rfl, rfl⟩
        exact ⟨pairs, ⟨by omega, hreach, rfl⟩, rfl⟩
    · rintro pos operand data ⟨pairs, hlen, -, -, rfl⟩
      rw [length_flatMap_of_forall (n := 8) fun pair => by simp]
      omega
  · constructor
    · rintro ⟨_, pad, _, hpad, ⟨fallback, _, _, ⟨hfallback, rfl⟩, ⟨count, _, _, rfl,
        ⟨pairs, hlen, hreach, rfl, rfl⟩, rfl⟩, rfl⟩, rfl⟩
      exact .lookupSwitch hpad hfallback hlen hreach
    · intro h
      cases h with
      | lookupSwitch hpad hfallback hlen hreach =>
        exact ⟨(), _, _, hpad, ⟨_, _, _, ⟨hfallback, rfl⟩, ⟨_, _, _, rfl,
          ⟨_, hlen, hreach, rfl, rfl⟩, rfl⟩, rfl⟩, rfl⟩

/-- Operands of one value. -/
theorem parses_value {α : Type} {codeLength offset : Nat} {layout : OperandLayout}
    {r : Reader α} {store : α → List UInt8} {f : α → Operand Nat}
    (hr : r.Parses fun _ a data => data = store a)
    (hstored : ∀ pos a, Operand.Stored codeLength offset layout pos (f a) (store a))
    (honly : ∀ pos operand data, Operand.Stored codeLength offset layout pos operand data →
      ∃ a, operand = f a ∧ data = store a) :
    (do return f (← r) : Reader (Operand Nat)).Parses
      (Operand.Stored codeLength offset layout) := by
  refine (hr.map f).congr fun pos operand data => ?_
  constructor
  · rintro ⟨a, rfl, rfl⟩
    exact hstored pos a
  · intro h
    obtain ⟨a, rfl, rfl⟩ := honly pos operand data h
    exact ⟨a, rfl, rfl⟩

theorem parses_increment (codeLength offset : Nat) :
    (readOperand codeLength offset .increment).Parses
      (Operand.Stored codeLength offset .increment) := by
  refine (Parses.u8.bind fun index => Parses.i8.map fun delta =>
    Operand.increment index.toUInt16 delta.toInt16).congr fun pos operand data => ?_
  constructor
  · rintro ⟨index, _, _, rfl, ⟨delta, rfl, rfl⟩, rfl⟩
    exact .increment
  · rintro ⟨⟩
    exact ⟨_, _, _, rfl, ⟨_, rfl, rfl⟩, rfl⟩

theorem parses_interface (codeLength offset : Nat) :
    (readOperand codeLength offset .interface).Parses
      (Operand.Stored codeLength offset .interface) := by
  refine (Parses.u16.bind fun index => Parses.u8.bind fun count =>
    (Parses.advance 1).map fun _ => Operand.interface index count).congr fun pos operand data => ?_
  constructor
  · rintro ⟨index, _, _, rfl, ⟨count, _, _, rfl, ⟨_, hreserved, rfl⟩, rfl⟩, rfl⟩
    exact .interface hreserved
  · rintro ⟨⟩
    exact ⟨_, _, _, rfl, ⟨_, _, _, rfl, ⟨(), ‹_›, rfl⟩, rfl⟩, rfl⟩

theorem parses_dynamic (codeLength offset : Nat) :
    (readOperand codeLength offset .dynamic).Parses
      (Operand.Stored codeLength offset .dynamic) := by
  refine (Parses.u16.bind fun index =>
    (Parses.advance 2).map fun _ => Operand.dynamic index).congr fun pos operand data => ?_
  constructor
  · rintro ⟨index, _, _, rfl, ⟨_, hreserved, rfl⟩, rfl⟩
    exact .dynamic hreserved
  · rintro ⟨⟩
    exact ⟨_, _, _, rfl, ⟨(), ‹_›, rfl⟩, rfl⟩

theorem parses_multiArray (codeLength offset : Nat) :
    (readOperand codeLength offset .multiArray).Parses
      (Operand.Stored codeLength offset .multiArray) := by
  refine (Parses.u16.bind fun index => Parses.u8.map (Operand.multiArray index)).congr
    fun pos operand data => ?_
  constructor
  · rintro ⟨index, _, _, rfl, ⟨dimensions, rfl, rfl⟩, rfl⟩
    exact .multiArray
  · rintro ⟨⟩
    exact ⟨_, _, _, rfl, ⟨_, rfl, rfl⟩, rfl⟩

/-- Reading an operand accepts its stored forms and nothing else. -/
theorem parses_readOperand (codeLength offset : Nat) {layout : OperandLayout}
    (hlayout : layout ≠ .wide) :
    (readOperand codeLength offset layout).Parses (Operand.Stored codeLength offset layout) := by
  cases layout with
  | plain =>
    refine (Parses.pure _).congr fun pos operand data => ?_
    constructor
    · rintro ⟨rfl, rfl⟩
      exact .plain
    · rintro ⟨⟩
      exact ⟨rfl, rfl⟩
  | byte => exact parses_value Parses.i8 (fun _ _ => .byte) (by rintro _ _ _ ⟨⟩; exact ⟨_, rfl, rfl⟩)
  | short => exact parses_value Parses.i16 (fun _ _ => .short) (by rintro _ _ _ ⟨⟩; exact ⟨_, rfl, rfl⟩)
  | arrayType =>
    exact parses_value Parses.u8 (fun _ _ => .arrayType) (by rintro _ _ _ ⟨⟩; exact ⟨_, rfl, rfl⟩)
  | slot =>
    exact parses_value (f := fun index => .slot index.toUInt16) Parses.u8 (fun _ _ => .slot)
      (by rintro _ _ _ ⟨⟩; exact ⟨_, rfl, rfl⟩)
  | increment => exact parses_increment codeLength offset
  | constantByte =>
    exact parses_value (f := fun index => .constant index.toUInt16) Parses.u8
      (fun _ _ => .constantByte) (by rintro _ _ _ ⟨⟩; exact ⟨_, rfl, rfl⟩)
  | constant =>
    exact parses_value Parses.u16 (fun _ _ => .constant) (by rintro _ _ _ ⟨⟩; exact ⟨_, rfl, rfl⟩)
  | interface => exact parses_interface codeLength offset
  | dynamic => exact parses_dynamic codeLength offset
  | multiArray => exact parses_multiArray codeLength offset
  | branch => exact parses_branch16 codeLength offset
  | branchWide => exact parses_branch32 codeLength offset
  | tableSwitch => exact parses_tableSwitch codeLength offset
  | lookupSwitch => exact parses_lookupSwitch codeLength offset
  | wide => exact absurd rfl hlayout

/-! ## Instructions -/

/-- The stored forms of an instruction: an opcode and an operand of its layout, or the
wide form of an instruction on locals. -/
inductive Instruction.Stored (codeLength : Nat) : Format (Instruction Nat)
  | short {pos : Nat} {opcode : UInt8} {layout : OperandLayout} {operand : Operand Nat}
        {data : List UInt8} :
      Opcode.layout? opcode = some layout → layout ≠ .wide →
      Operand.Stored codeLength pos layout (pos + 1) operand data →
      Stored codeLength pos ⟨opcode, operand⟩ (opcode :: data)
  | wideSlot {pos : Nat} {opcode : UInt8} {index : UInt16} :
      Opcode.layout? opcode = some .slot →
      Stored codeLength pos ⟨opcode, .slot index⟩
        (Opcode.wide :: opcode :: BigEndian.u16 index)
  | wideIncrement {pos : Nat} {opcode : UInt8} {index : UInt16} {delta : Int16} :
      Opcode.layout? opcode = some .increment →
      Stored codeLength pos ⟨opcode, .increment index delta⟩
        (Opcode.wide :: opcode :: (BigEndian.u16 index ++ BigEndian.i16 delta))

/-- The stored forms of an instruction at its offset. -/
def Located.Stored (codeLength : Nat) : Format (Located Nat) := fun pos l data =>
  l.offset = pos ∧ l.instruction.Stored codeLength pos data

theorem length_stored_pos {codeLength pos : Nat} {l : Located Nat} {data : List UInt8}
    (h : l.Stored codeLength pos data) : 0 < data.length := by
  obtain ⟨offset, i⟩ := l
  obtain ⟨-, h⟩ := h
  cases h <;> simp

theorem layout?_wide : Opcode.layout? Opcode.wide = some .wide := by decide

theorem forall_opcode {P : UInt8 → Prop} (h : ∀ n < 256, P (UInt8.ofNat n)) (opcode : UInt8) :
    P opcode := by
  rw [← UInt8.ofNat_toNat (x := opcode)]
  exact h opcode.toNat opcode.toNat_lt

theorem eq_wide_of_layout? {opcode : UInt8} (h : Opcode.layout? opcode = some .wide) :
    opcode = Opcode.wide :=
  forall_opcode (P := fun opcode => Opcode.layout? opcode = some .wide → opcode = Opcode.wide)
    (by decide +kernel) opcode h

theorem parses_readWide (codeLength offset : Nat) :
    (readWide offset).Parses fun _ i data =>
      i.Stored codeLength offset (Opcode.wide :: data) := by
  refine (Parses.u8.bind (G := fun opcode _ i data =>
    (∃ index, Opcode.layout? opcode = some .slot ∧ i = ⟨opcode, .slot index⟩ ∧
      data = BigEndian.u16 index) ∨
    (∃ index delta, Opcode.layout? opcode = some .increment ∧
      i = ⟨opcode, .increment index delta⟩ ∧
      data = BigEndian.u16 index ++ BigEndian.i16 delta)) fun opcode => ?_).congr
    fun pos i data => ?_
  · cases hlayout : Opcode.layout? opcode with
    | none => exact (Parses.malformed _).congr fun pos i data => by simp
    | some layout =>
      cases layout with
      | slot =>
        refine (Parses.u16.map fun index => (⟨opcode, .slot index⟩ : Instruction Nat)).congr
          fun pos i data => ?_
        constructor
        · rintro ⟨index, rfl, rfl⟩
          exact .inl ⟨index, rfl, rfl, rfl⟩
        · rintro (⟨index, -, rfl, rfl⟩ | ⟨_, _, h, -⟩)
          · exact ⟨index, rfl, rfl⟩
          · cases h
      | increment =>
        refine (Parses.u16.bind fun index => Parses.i16.map fun delta =>
          (⟨opcode, .increment index delta⟩ : Instruction Nat)).congr fun pos i data => ?_
        constructor
        · rintro ⟨index, _, _, rfl, ⟨delta, rfl, rfl⟩, rfl⟩
          exact .inr ⟨index, delta, rfl, rfl, rfl⟩
        · rintro (⟨_, h, -⟩ | ⟨index, delta, -, rfl, rfl⟩)
          · cases h
          · exact ⟨index, _, _, rfl, ⟨delta, rfl, rfl⟩, rfl⟩
      | _ => exact (Parses.malformed _).congr fun pos i data => by simp
  · constructor
    · rintro ⟨opcode, _, _, rfl, ⟨index, hlayout, rfl, rfl⟩ | ⟨index, delta, hlayout, rfl, rfl⟩, rfl⟩
      · exact .wideSlot hlayout
      · exact .wideIncrement hlayout
    · intro h
      cases h with
      | short hlayout hne =>
        rw [layout?_wide] at hlayout
        exact absurd (Option.some.inj hlayout).symm hne
      | wideSlot hlayout => exact ⟨_, _, _, rfl, .inl ⟨_, hlayout, rfl, rfl⟩, rfl⟩
      | wideIncrement hlayout => exact ⟨_, _, _, rfl, .inr ⟨_, _, hlayout, rfl, rfl⟩, rfl⟩

/-- Reading an instruction accepts its stored forms and nothing else. -/
theorem parses_readInstruction (codeLength : Nat) :
    (readInstruction codeLength).Parses (Located.Stored codeLength) := by
  refine (Parses.position.bind fun offset => Parses.u8.bind
    (G := fun opcode pos l data => l.offset = offset ∧
      ((opcode = Opcode.wide ∧ l.instruction.Stored codeLength offset (opcode :: data)) ∨
        ∃ layout, Opcode.layout? opcode = some layout ∧ layout ≠ .wide ∧
          l.instruction.opcode = opcode ∧
          l.instruction.operand.Stored codeLength offset layout pos data)) fun opcode => ?_).congr
    fun pos l data => ?_
  · cases hlayout : Opcode.layout? opcode with
    | none =>
      refine (Parses.malformed _).congr fun pos l data => iff_of_false id ?_
      rintro ⟨-, ⟨rfl, -⟩ | ⟨layout, h, -⟩⟩
      · simp [layout?_wide] at hlayout
      · cases h
    | some layout =>
      by_cases hwide : layout = .wide
      · subst hwide
        obtain rfl := eq_wide_of_layout? hlayout
        refine ((parses_readWide codeLength offset).map (Located.mk offset)).congr
          fun pos l data => ?_
        constructor
        · rintro ⟨i, hi, rfl⟩
          exact ⟨rfl, .inl ⟨rfl, hi⟩⟩
        · rintro ⟨rfl, ⟨-, hi⟩ | ⟨layout, h, hne, -⟩⟩
          · exact ⟨l.instruction, hi, rfl⟩
          · exact absurd (Option.some.inj h).symm hne
      · have hread := (parses_readOperand codeLength offset hwide).map fun operand =>
          (⟨offset, ⟨opcode, operand⟩⟩ : Located Nat)
        have hformat := hread.congr (G := fun pos l data => l.offset = offset ∧
          ((opcode = Opcode.wide ∧ l.instruction.Stored codeLength offset (opcode :: data)) ∨
            ∃ layout', some layout = some layout' ∧ layout' ≠ .wide ∧
              l.instruction.opcode = opcode ∧
              l.instruction.operand.Stored codeLength offset layout' pos data))
          fun pos l data => by
            constructor
            · rintro ⟨operand, h, rfl⟩
              exact ⟨rfl, .inr ⟨layout, rfl, hwide, rfl, h⟩⟩
            · rintro ⟨rfl, ⟨rfl, -⟩ | ⟨_, hsame, -, rfl, h⟩⟩
              · rw [layout?_wide] at hlayout
                exact absurd (Option.some.inj hlayout).symm hwide
              · obtain rfl := Option.some.inj hsame
                exact ⟨_, h, rfl⟩
        cases layout <;> first | exact hformat | exact absurd rfl hwide
  · constructor
    · rintro ⟨_, _, _, ⟨rfl, rfl⟩, ⟨opcode, _, _, rfl, ⟨hoffset, h⟩, rfl⟩, rfl⟩
      refine ⟨hoffset, ?_⟩
      rcases h with ⟨-, h⟩ | ⟨layout, hlayout, hne, hopcode, h⟩
      · exact h
      · obtain ⟨_, opcode', operand⟩ := l
        obtain rfl := hopcode
        exact .short hlayout hne h
    · rintro ⟨hoffset, h⟩
      obtain ⟨_, i⟩ := l
      cases h with
      | short hlayout hne h =>
        exact ⟨pos, [], _, ⟨rfl, rfl⟩, ⟨_, _, _, rfl,
          ⟨hoffset, .inr ⟨_, hlayout, hne, rfl, h⟩⟩, rfl⟩, rfl⟩
      | wideSlot hlayout =>
        exact ⟨pos, [], _, ⟨rfl, rfl⟩, ⟨_, _, _, rfl,
          ⟨hoffset, .inl ⟨rfl, .wideSlot hlayout⟩⟩, rfl⟩, rfl⟩
      | wideIncrement hlayout =>
        exact ⟨pos, [], _, ⟨rfl, rfl⟩, ⟨_, _, _, rfl,
          ⟨hoffset, .inl ⟨rfl, .wideIncrement hlayout⟩⟩, rfl⟩, rfl⟩

/-! ## Code -/

/-- No instructions are left at the end of the input. -/
theorem pure_reverse_eq_ok {codeLength : Nat} {acc ls : List (Located Nat)} {c c' : Cursor}
    (hrest : c.rest = []) :
    (pure acc.reverse : Reader (List (Located Nat))) c = .ok ls c' ↔
      ∃ new, ls = acc.reverse ++ new ∧
        Format.Sequence (Located.Stored codeLength) c.pos new c.rest ∧
        c' = c.skip c.rest.length := by
  rw [Success.state_pure, hrest]
  simp [Format.sequence_nil_iff fun _ _ _ => length_stored_pos]

/-- Reading up to the end of the input, with as many steps at hand as bytes are left. -/
theorem readInstructions_eq_ok {codeLength n : Nat} {acc ls : List (Located Nat)}
    {c c' : Cursor} (hn : c.rest.length ≤ n) :
    readInstructions codeLength acc n c = .ok ls c' ↔
      ∃ new, ls = acc.reverse ++ new ∧
        Format.Sequence (Located.Stored codeLength) c.pos new c.rest ∧
        c' = c.skip c.rest.length := by
  induction n generalizing acc c with
  | zero => exact pure_reverse_eq_ok (List.length_eq_zero_iff.mp (Nat.le_zero.mp hn))
  | succ n ih =>
    show ((if c.hasMore = true then
      readInstruction codeLength >>= fun l => readInstructions codeLength (l :: acc) n
      else pure acc.reverse : Reader (List (Located Nat))) c = .ok ls c') ↔ _
    have hshort {front back : List UInt8} (happend : c.rest = front ++ back)
        (hfront : 0 < front.length) : (c.skip front.length).rest.length ≤ n := by
      rw [Cursor.rest_skip, happend, List.drop_left]
      rw [happend, List.length_append] at hn
      omega
    cases hrest : c.rest with
    | nil =>
      have hmore : c.hasMore = false := by simp [Cursor.hasMore, hrest]
      rw [hmore, if_neg Bool.false_ne_true, pure_reverse_eq_ok hrest, hrest]
    | cons b rest =>
      have hmore : c.hasMore = true := by simp [Cursor.hasMore, hrest]
      rw [if_pos hmore, Success.state_bind, ← hrest]
      constructor
      · rintro ⟨l, c₁, hl, hls⟩
        obtain ⟨front, hstored, happend, rfl⟩ := (parses_readInstruction codeLength c l c₁).mp hl
        obtain ⟨new, rfl, hseq, rfl⟩ :=
          (ih (hshort happend (length_stored_pos hstored))).mp hls
        refine ⟨l :: new, by simp, ?_, ?_⟩
        · rw [happend]
          exact .cons hstored hseq
        · rw [Cursor.skip_skip]
          conv => rhs; rw [happend, List.length_append]
      · rintro ⟨new, rfl, hseq, rfl⟩
        cases new with
        | nil =>
          rw [Format.sequence_nil, hrest] at hseq
          contradiction
        | cons l new =>
          obtain ⟨front, back, hstored, hback, happend⟩ := Format.sequence_cons.mp hseq
          have hskip : (c.skip front.length).rest = back := by
            rw [Cursor.rest_skip, happend, List.drop_left]
          refine ⟨l, c.skip front.length,
            (parses_readInstruction codeLength).run hstored happend,
            (ih (hshort happend (length_stored_pos hstored))).mpr ⟨new, by simp, ?_, ?_⟩⟩
          · rwa [hskip]
          · rw [hskip, Cursor.skip_skip, happend, List.length_append]

theorem runOn_readInstructions_eq_ok {codeLength : Nat} {code : List UInt8}
    {ls : List (Located Nat)} : (readInstructions codeLength [] code.length).runOn code = .ok ls ↔
      Format.Sequence (Located.Stored codeLength) 0 ls code := by
  rw [runOn_eq_ok]
  constructor
  · rintro ⟨c', h⟩
    obtain ⟨new, rfl, hseq, -⟩ := (readInstructions_eq_ok (Nat.le_refl code.length)).mp h
    exact hseq
  · intro h
    exact ⟨_, (readInstructions_eq_ok (Nat.le_refl code.length)).mpr ⟨ls, rfl, h, rfl⟩⟩

/-- Code is taken apart exactly if it is cut up into stored instructions without gaps. -/
theorem disassemble_eq_ok {code : List UInt8} {ls : List (Located Nat)} :
    disassemble code = .ok ls ↔ Format.Sequence (Located.Stored code.length) 0 ls code :=
  runOn_readInstructions_eq_ok

end ClassPatch.Code
