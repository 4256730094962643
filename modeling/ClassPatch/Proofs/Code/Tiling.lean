import Mathlib
import ClassPatch.Proofs.Bytes.Bounds
import ClassPatch.Proofs.Code.Decoder

/-!
# Instructions tile their code

The size and the targets of an instruction, as the bytes at its offset say them. Bytecode that is
taken apart is filled by its instructions without gaps, every target is the offset that its delta
leads to, and labels are handed out for just those offsets.
-/

namespace ClassPatch.Code

open Bytes Bytes.Reader

/-! ## What the bytes say -/

/-- The signed number in the `width` bytes at a position. -/
def signedAt (code : List UInt8) (width pos : Nat) : Int :=
  (BigEndian.value ((code.drop pos).take width) : Int).bmod (256 ^ width)

/-- The opcodes of the Java virtual machine in rows from the first to the last opcode of each, with
the layout of the operands in a row. -/
def opcodeRows : List (UInt8 × UInt8 × OperandLayout) :=
  [(0x00, 0x0F, .plain), (0x10, 0x10, .byte), (0x11, 0x11, .short), (0x12, 0x12, .constantByte),
    (0x13, 0x14, .constant), (0x15, 0x19, .slot), (0x1A, 0x35, .plain), (0x36, 0x3A, .slot),
    (0x3B, 0x83, .plain), (0x84, 0x84, .increment), (0x85, 0x98, .plain), (0x99, 0xA8, .branch),
    (0xA9, 0xA9, .slot), (0xAA, 0xAA, .tableSwitch), (0xAB, 0xAB, .lookupSwitch),
    (0xAC, 0xB1, .plain), (0xB2, 0xB8, .constant), (0xB9, 0xB9, .interface), (0xBA, 0xBA, .dynamic),
    (0xBB, 0xBB, .constant), (0xBC, 0xBC, .arrayType), (0xBD, 0xBD, .constant),
    (0xBE, 0xBF, .plain), (0xC0, 0xC1, .constant), (0xC2, 0xC3, .plain), (0xC4, 0xC4, .wide),
    (0xC5, 0xC5, .multiArray), (0xC6, 0xC7, .branch), (0xC8, 0xC9, .branchWide)]

/-- The layout of the operand of an opcode by the row that the opcode is in. -/
def rowLayout? (opcode : UInt8) : Option OperandLayout :=
  (opcodeRows.find? fun (first, last, _) => first ≤ opcode ∧ opcode ≤ last).map (·.2.2)

/-- The layout of the operand after the opcode at an offset. -/
def layoutAt? (code : List UInt8) (offset : Nat) : Option OperandLayout :=
  code[offset]?.bind rowLayout?

/-- Where the numbers of a switch start: at the first multiple of four after its opcode. -/
def switchStart (offset : Nat) : Nat := offset + (4 - offset % 4)

/-- The number of entries in the table of a `tableswitch`. -/
def tableCount (code : List UInt8) (offset : Nat) : Nat :=
  (signedAt code 4 (switchStart offset + 8) - signedAt code 4 (switchStart offset + 4) + 1).toNat

/-- The number of pairs in the table of a `lookupswitch`. -/
def pairCount (code : List UInt8) (offset : Nat) : Nat :=
  (signedAt code 4 (switchStart offset + 4)).toNat

/-- The number of bytes of the instruction at an offset, its mark, padding and tables included. -/
def sizeAt (code : List UInt8) (offset : Nat) : Nat :=
  match layoutAt? code offset with
  | none => 0
  | some .plain => 1
  | some .byte | some .arrayType | some .slot | some .constantByte => 2
  | some .short | some .increment | some .constant | some .branch => 3
  | some .multiArray => 4
  | some .interface | some .dynamic | some .branchWide => 5
  | some .tableSwitch => switchStart offset - offset + 12 + 4 * tableCount code offset
  | some .lookupSwitch => switchStart offset - offset + 8 + 8 * pairCount code offset
  | some .wide => if layoutAt? code (offset + 1) = some .increment then 6 else 4

/-- The widths and the positions of the deltas in the instruction at an offset, that of the fallback
of a switch first. -/
def deltasAt (code : List UInt8) (offset : Nat) : List (Nat × Nat) :=
  match layoutAt? code offset with
  | some .branch => [(2, offset + 1)]
  | some .branchWide => [(4, offset + 1)]
  | some .tableSwitch => (4, switchStart offset) ::
      (List.range (tableCount code offset)).map fun k => (4, switchStart offset + 12 + 4 * k)
  | some .lookupSwitch => (4, switchStart offset) ::
      (List.range (pairCount code offset)).map fun k => (4, switchStart offset + 12 + 8 * k)
  | _ => []

/-- The places that the deltas of the instruction at an offset lead to. -/
def targetsAt (code : List UInt8) (offset : Nat) : List Int :=
  (deltasAt code offset).map fun (width, pos) => offset + signedAt code width pos

/-- Instructions at the given offsets fill the code from `start` on, up to its end. -/
def Tiles (code : List UInt8) : Nat → List Nat → Prop
  | start, [] => start = code.length
  | start, offset :: offsets =>
    offset = start ∧ 0 < sizeAt code offset ∧ Tiles code (offset + sizeAt code offset) offsets

/-! ## Numbers in code -/

variable {code data : List UInt8} {codeLength offset pos : Nat}

section

variable (front back : List UInt8)

theorem signedAt_append {width : Nat} {word : List UInt8} (hcode : code = front ++ (word ++ back))
    (hpos : front.length = pos) (hwidth : word.length = width) :
    signedAt code width pos = (BigEndian.value word : Int).bmod (256 ^ width) := by
  subst hcode hpos hwidth
  rw [signedAt, List.drop_left, List.take_left]

theorem signedAt_i16 {n : Int16} (hcode : code = front ++ (BigEndian.i16 n ++ back))
    (hpos : front.length = pos) : signedAt code 2 pos = n.toInt := by
  have hlt : n.toUInt16.toNat < 256 ^ 2 := n.toUInt16.toNat_lt
  rw [signedAt_append front back hcode hpos (BigEndian.length_i16 n), BigEndian.i16, BigEndian.u16,
    BigEndian.value_bytes, Nat.mod_eq_of_lt hlt]
  exact (BitVec.toInt_eq_toNat_bmod n.toBitVec).symm

theorem signedAt_i32 {n : Int32} (hcode : code = front ++ (BigEndian.i32 n ++ back))
    (hpos : front.length = pos) : signedAt code 4 pos = n.toInt := by
  have hlt : n.toUInt32.toNat < 256 ^ 4 := n.toUInt32.toNat_lt
  rw [signedAt_append front back hcode hpos (BigEndian.length_i32 n), BigEndian.i32, BigEndian.u32,
    BigEndian.value_bytes, Nat.mod_eq_of_lt hlt]
  exact (BitVec.toInt_eq_toNat_bmod n.toBitVec).symm

theorem signedAt_offset16 {target : Nat} (h : InReach 0x8000 codeLength offset target)
    (hcode : code = front ++ (offset16 offset target ++ back)) (hpos : front.length = pos) :
    offset + signedAt code 2 pos = target := by
  rw [signedAt_i16 front back hcode hpos, Int16.toInt_ofInt_of_le h.2.1 h.2.2]
  omega

theorem signedAt_offset32 {target : Nat} (h : InReach 0x80000000 codeLength offset target)
    (hcode : code = front ++ (offset32 offset target ++ back)) (hpos : front.length = pos) :
    offset + signedAt code 4 pos = target := by
  rw [signedAt_i32 front back hcode hpos, Int32.toInt_ofInt_of_le h.2.1 h.2.2]
  omega

/-- The deltas in a table whose entries have `stride` bytes; the last four of them are the delta. -/
theorem map_signedAt_table {α : Type} {entries : List α} (target : α → Nat)
    (store : α → List UInt8) (stride pos : Nat)
    (hreach : ∀ a ∈ entries, InReach 0x80000000 codeLength offset (target a))
    (hstore : ∀ a, ∃ key, key.length + 4 = stride ∧ store a = key ++ offset32 offset (target a))
    (hcode : code = front ++ (entries.flatMap store ++ back))
    (hpos : front.length + stride = pos + 4) :
    (List.range entries.length).map (fun k => offset + signedAt code 4 (pos + stride * k)) =
      entries.map fun a => ((target a : Nat) : Int) := by
  induction entries generalizing front pos with
  | nil => rfl
  | cons a entries ih =>
    obtain ⟨hhead, htail⟩ := List.forall_mem_cons.mp hreach
    obtain ⟨key, hkey, hentry⟩ := hstore a
    rw [List.flatMap_cons, hentry] at hcode
    have hdelta : offset + signedAt code 4 pos = target a :=
      signedAt_offset32 (front ++ key) (entries.flatMap store ++ back) hhead (by simp [hcode])
        (by rw [List.length_append]; omega)
    have hrest := ih (front ++ (key ++ offset32 offset (target a))) (pos + stride) htail
      (by simp [hcode]) (by simp only [List.length_append, length_offset32]; omega)
    have hshift (k : Nat) : pos + stride * (k + 1) = pos + stride + stride * k := by
      rw [Nat.mul_succ]
      omega
    rw [List.length_cons, List.range_succ_eq_map, List.map_cons, List.map_map, List.map_cons,
      ← hrest, Nat.mul_zero, Nat.add_zero, hdelta]
    simp only [Function.comp_def, Nat.succ_eq_add_one, hshift]

/-! ## Stored instructions -/

/-- The decoder knows the layouts of the machine. -/
theorem rowLayout?_eq (opcode : UInt8) : rowLayout? opcode = Opcode.layout? opcode :=
  forall_opcode (P := fun opcode => rowLayout? opcode = Opcode.layout? opcode)
    (by decide +kernel) opcode

theorem layoutAt?_append {opcode : UInt8} (hcode : code = front ++ opcode :: back)
    (hpos : front.length = pos) : layoutAt? code pos = Opcode.layout? opcode := by
  subst hcode hpos
  simp [layoutAt?, rowLayout?_eq]

end

/-- The numbers of a switch follow its padding. -/
theorem switchStart_eq {pad : List UInt8} (hpad : pad.length = (4 - (pos + 1) % 4) % 4) :
    switchStart pos = pos + (1 + pad.length) := by
  unfold switchStart
  omega

theorem tableCount_eq {low high : Int32} {count : Nat}
    (hlow : signedAt code 4 (switchStart pos + 4) = low.toInt)
    (hhigh : signedAt code 4 (switchStart pos + 8) = high.toInt)
    (hcount : (count : Int) = high.toInt - low.toInt + 1) : tableCount code pos = count := by
  rw [tableCount, hlow, hhigh, ← hcount, Int.toNat_natCast]

theorem said_tableSwitch {opcode : UInt8} {fallback : Nat} {low high : Int32} {targets : List Nat}
    {pad front back : List UInt8} (hlayout : layoutAt? code pos = some .tableSwitch)
    (hpad : pad.length = (4 - (pos + 1) % 4) % 4)
    (hfallback : InReach 0x80000000 codeLength pos fallback)
    (hcount : (targets.length : Int) = high.toInt - low.toInt + 1)
    (hreach : ∀ target ∈ targets, InReach 0x80000000 codeLength pos target)
    (hcode : code = front ++ (opcode :: (pad ++ (offset32 pos fallback ++ (BigEndian.i32 low ++
      (BigEndian.i32 high ++ targets.flatMap (offset32 pos))))) ++ back))
    (hpos : front.length = pos) :
    sizeAt code pos = 1 + pad.length + 12 + 4 * targets.length ∧
      targetsAt code pos = (fallback :: targets).map ((↑) : Nat → Int) := by
  have hstart := switchStart_eq hpad
  have hfirst : pos + signedAt code 4 (switchStart pos) = fallback :=
    signedAt_offset32 (front ++ opcode :: pad)
      (BigEndian.i32 low ++ (BigEndian.i32 high ++ targets.flatMap (offset32 pos)) ++ back)
      hfallback (by simp [hcode]) (by simp [hstart, hpos, Nat.add_comm])
  have hlow : signedAt code 4 (switchStart pos + 4) = low.toInt :=
    signedAt_i32 (front ++ opcode :: (pad ++ offset32 pos fallback))
      (BigEndian.i32 high ++ targets.flatMap (offset32 pos) ++ back) (by simp [hcode])
      (by simp; omega)
  have hhigh : signedAt code 4 (switchStart pos + 8) = high.toInt :=
    signedAt_i32 (front ++ opcode :: (pad ++ (offset32 pos fallback ++ BigEndian.i32 low)))
      (targets.flatMap (offset32 pos) ++ back) (by simp [hcode]) (by simp; omega)
  have hfirsts : code = (front ++ opcode :: (pad ++ (offset32 pos fallback ++ (BigEndian.i32 low ++
      BigEndian.i32 high)))) ++ (targets.flatMap (offset32 pos) ++ back) := by simp [hcode]
  have htable := map_signedAt_table _ back id (offset32 pos) 4 (switchStart pos + 12)
    hreach (fun target => ⟨[], rfl, rfl⟩) hfirsts (by simp; omega)
  have hentries := tableCount_eq hlow hhigh hcount
  constructor
  · simp only [sizeAt, hlayout, hentries, hstart, Nat.add_sub_cancel_left]
  · simp only [targetsAt, deltasAt, hlayout, hentries, List.map_cons, List.map_map, hfirst]
    exact congrArg _ htable

theorem said_lookupSwitch {opcode : UInt8} {fallback : Nat} {count : Int32}
    {pairs : List (Int32 × Nat)} {pad front back : List UInt8}
    (hlayout : layoutAt? code pos = some .lookupSwitch)
    (hpad : pad.length = (4 - (pos + 1) % 4) % 4)
    (hfallback : InReach 0x80000000 codeLength pos fallback)
    (hcount : (pairs.length : Int) = count.toInt)
    (hreach : ∀ pair ∈ pairs, InReach 0x80000000 codeLength pos pair.2)
    (hcode : code = front ++ (opcode :: (pad ++ (offset32 pos fallback ++ (BigEndian.i32 count ++
      pairs.flatMap fun pair => BigEndian.i32 pair.1 ++ offset32 pos pair.2))) ++ back))
    (hpos : front.length = pos) :
    sizeAt code pos = 1 + pad.length + 8 + 8 * pairs.length ∧
      targetsAt code pos = (fallback :: pairs.map (·.2)).map ((↑) : Nat → Int) := by
  have hstart := switchStart_eq hpad
  have hfirst : pos + signedAt code 4 (switchStart pos) = fallback :=
    signedAt_offset32 (front ++ opcode :: pad)
      (BigEndian.i32 count ++ (pairs.flatMap fun pair =>
        BigEndian.i32 pair.1 ++ offset32 pos pair.2) ++ back)
      hfallback (by simp [hcode]) (by simp [hstart, hpos, Nat.add_comm])
  have hentries : pairCount code pos = pairs.length := by
    have hsaid : signedAt code 4 (switchStart pos + 4) = count.toInt :=
      signedAt_i32 (front ++ opcode :: (pad ++ offset32 pos fallback))
        ((pairs.flatMap fun pair => BigEndian.i32 pair.1 ++ offset32 pos pair.2) ++ back)
        (by simp [hcode]) (by simp; omega)
    rw [pairCount, hsaid, ← hcount, Int.toNat_natCast]
  have hfirsts : code = (front ++ opcode :: (pad ++ (offset32 pos fallback ++ BigEndian.i32 count)))
      ++ ((pairs.flatMap fun pair => BigEndian.i32 pair.1 ++ offset32 pos pair.2) ++ back) := by
    simp [hcode]
  have htable := map_signedAt_table _ back (fun pair : Int32 × Nat => pair.2)
    (fun pair => BigEndian.i32 pair.1 ++ offset32 pos pair.2) 8 (switchStart pos + 12)
    hreach (fun pair => ⟨BigEndian.i32 pair.1, rfl, rfl⟩) hfirsts (by simp; omega)
  constructor
  · simp only [sizeAt, hlayout, hentries, hstart, Nat.add_sub_cancel_left]
  · simp only [targetsAt, deltasAt, hlayout, hentries, List.map_cons, List.map_map, hfirst]
    exact congrArg _ htable

/-- The bytes of a stored instruction say its size and its targets. -/
theorem said_of_stored {i : Instruction Nat} {front back : List UInt8} (h : i.Stored codeLength pos data)
    (hcode : code = front ++ (data ++ back)) (hpos : front.length = pos) :
    sizeAt code pos = data.length ∧ targetsAt code pos = i.targets.map ((↑) : Nat → Int) := by
  cases h with
  | wideSlot hlayout =>
    rename_i opcode index
    have hmark : layoutAt? code pos = some .wide :=
      (layoutAt?_append front _ hcode hpos).trans layout?_wide
    have hopcode : layoutAt? code (pos + 1) = some .slot := by
      rw [← hlayout]
      exact layoutAt?_append (front ++ [Opcode.wide]) (BigEndian.u16 index ++ back)
        (by simp [hcode]) (by simp [hpos])
    simp [sizeAt, targetsAt, deltasAt, hmark, hopcode, Instruction.targets, Operand.targets]
  | wideIncrement hlayout =>
    rename_i opcode index delta
    have hmark : layoutAt? code pos = some .wide :=
      (layoutAt?_append front _ hcode hpos).trans layout?_wide
    have hopcode : layoutAt? code (pos + 1) = some .increment := by
      rw [← hlayout]
      exact layoutAt?_append (front ++ [Opcode.wide])
        (BigEndian.u16 index ++ BigEndian.i16 delta ++ back) (by simp [hcode]) (by simp [hpos])
    simp [sizeAt, targetsAt, deltasAt, hmark, hopcode, Instruction.targets, Operand.targets]
  | @short pos opcode layout operand data hlayout _ hoperand =>
    have hopcode : layoutAt? code pos = some layout :=
      (layoutAt?_append front _ hcode hpos).trans hlayout
    cases hoperand with
    | branch hreach =>
      have hdelta : pos + signedAt code 2 (pos + 1) = ((_ : Nat) : Int) :=
        signedAt_offset16 (front ++ [opcode]) back hreach (by simp [hcode]) (by simp [hpos])
      simp [sizeAt, targetsAt, deltasAt, hopcode, hdelta, Instruction.targets, Operand.targets]
    | branchWide hreach =>
      have hdelta : pos + signedAt code 4 (pos + 1) = ((_ : Nat) : Int) :=
        signedAt_offset32 (front ++ [opcode]) back hreach (by simp [hcode]) (by simp [hpos])
      simp [sizeAt, targetsAt, deltasAt, hopcode, hdelta, Instruction.targets, Operand.targets]
    | tableSwitch hpad hfallback _ hcount hreach =>
      obtain ⟨hsize, htargets⟩ :=
        said_tableSwitch hopcode hpad hfallback hcount hreach hcode hpos
      refine ⟨?_, htargets⟩
      rw [hsize]
      simp [length_flatMap_of_forall (length_offset32 pos)]
      omega
    | lookupSwitch hpad hfallback hcount hreach =>
      obtain ⟨hsize, htargets⟩ :=
        said_lookupSwitch hopcode hpad hfallback hcount hreach hcode hpos
      refine ⟨?_, htargets⟩
      rw [hsize]
      simp [length_flatMap_of_forall (n := 8)]
      omega
    | interface hreserved | dynamic hreserved =>
      simp [sizeAt, targetsAt, deltasAt, hopcode, hreserved, Instruction.targets, Operand.targets]
    | _ => simp [sizeAt, targetsAt, deltasAt, hopcode, Instruction.targets, Operand.targets]

/-- Stored instructions fill the code, and have the targets that their bytes say. -/
theorem tiles_of_sequence (front : List UInt8) {ls : List (Located Nat)}
    (h : Format.Sequence (Located.Stored code.length) pos ls data) (hcode : code = front ++ data)
    (hpos : front.length = pos) :
    Tiles code pos (ls.map (·.offset)) ∧
      ∀ l ∈ ls, targetsAt code l.offset = l.instruction.targets.map ((↑) : Nat → Int) := by
  induction h generalizing front with
  | nil =>
    rw [List.append_nil] at hcode
    exact ⟨by rw [← hpos, hcode]; rfl, by simp⟩
  | @cons pos l ls data rest hstored hrest ih =>
    obtain ⟨hsize, htargets⟩ := said_of_stored hstored.2 hcode hpos
    obtain ⟨htiles, hothers⟩ := ih (front ++ data) (by rw [hcode, List.append_assoc])
      (by rw [List.length_append, hpos])
    rw [← hsize] at htiles
    obtain ⟨offset, i⟩ := l
    obtain ⟨rfl, -⟩ := id hstored
    refine ⟨⟨rfl, hsize ▸ length_stored_pos hstored, htiles⟩, ?_⟩
    exact List.forall_mem_cons.mpr ⟨htargets, hothers⟩

/-! ## Every instruction gets its turn -/

theorem readInstructions_of_end {acc : List (Located Nat)} {c : Cursor} (hrest : c.rest = [])
    (n : Nat) : readInstructions codeLength acc n c = .ok acc.reverse c := by
  cases n with
  | zero => rfl
  | succ n =>
    show (if c.hasMore = true then _ else _ : Reader _) c = _
    rw [if_neg (by simp [Cursor.hasMore, hrest])]
    rfl

/-- A bound of a round for each byte that is left does not show. -/
theorem readInstructions_of_le {m n : Nat} {acc : List (Located Nat)} {c : Cursor}
    (hm : c.rest.length ≤ m) (hn : c.rest.length ≤ n) :
    readInstructions codeLength acc m c = readInstructions codeLength acc n c := by
  induction m generalizing n acc c with
  | zero =>
    have hrest := List.length_eq_zero_iff.mp (Nat.le_zero.mp hm)
    rw [readInstructions_of_end hrest, readInstructions_of_end hrest]
  | succ m ih =>
    cases hrest : c.rest with
    | nil => rw [readInstructions_of_end hrest, readInstructions_of_end hrest]
    | cons b rest =>
      rw [hrest, List.length_cons] at hn
      obtain ⟨n, rfl⟩ : ∃ k, n = k + 1 := ⟨n - 1, by omega⟩
      have hmore : c.hasMore = true := by simp [Cursor.hasMore, hrest]
      show (if c.hasMore = true then
        readInstruction codeLength >>= fun l => readInstructions codeLength (l :: acc) m
        else pure acc.reverse : Reader (List (Located Nat))) c =
          (if c.hasMore = true then
        readInstruction codeLength >>= fun l => readInstructions codeLength (l :: acc) n
        else pure acc.reverse : Reader (List (Located Nat))) c
      rw [if_pos hmore, if_pos hmore]
      cases hrun : readInstruction codeLength c with
      | error e c' => rw [Success.state_bind_error hrun, Success.state_bind_error hrun]
      | ok l c' =>
        rw [Success.state_bind_ok hrun, Success.state_bind_ok hrun]
        -- the instruction took a byte at least
        obtain ⟨front, hstored, happend, -⟩ := (parses_readInstruction codeLength c l c').mp hrun
        have hfront := length_stored_pos hstored
        have hlength := congrArg List.length happend
        rw [hrest, List.length_cons, List.length_append] at hlength
        rw [hrest, List.length_cons] at hm
        exact ih (by omega) (by omega)

/-! ## Reading stays in the code -/

theorem keeps_branchTarget (delta : Int32) :
    Keeps Cursor.Reaches (branchTarget codeLength offset delta) :=
  keeps_cases (keeps_malformed _) (Keeps.pure _)

theorem keeps_target32 :
    Keeps Cursor.Reaches (do branchTarget codeLength offset (← i32) : Reader Nat) :=
  Keeps.bind keeps_i32 fun delta => keeps_branchTarget delta

theorem keeps_readTableSwitch : Keeps Cursor.Reaches (readTableSwitch codeLength offset) := by
  refine Keeps.bind (keeps_align 4) fun _ => Keeps.bind keeps_i32 fun delta =>
    Keeps.bind (keeps_branchTarget delta) fun fallback => Keeps.bind keeps_i32 fun low =>
      Keeps.bind keeps_i32 fun high => keeps_cases (keeps_malformed _) ?_
  exact Keeps.bind (keeps_ensure _) fun _ => keeps_map (keeps_times keeps_target32 _) _

theorem keeps_readLookupSwitch : Keeps Cursor.Reaches (readLookupSwitch codeLength offset) := by
  refine Keeps.bind (keeps_align 4) fun _ => Keeps.bind keeps_i32 fun delta =>
    Keeps.bind (keeps_branchTarget delta) fun fallback => Keeps.bind keeps_i32 fun count =>
      keeps_cases (keeps_malformed _) ?_
  refine Keeps.bind (keeps_ensure _) fun _ => keeps_map (keeps_times ?_ _) _
  exact Keeps.bind keeps_i32 fun key => Keeps.bind keeps_i32 fun delta =>
    keeps_map (keeps_branchTarget delta) _

theorem keeps_readOperand (layout : OperandLayout) :
    Keeps Cursor.Reaches (readOperand codeLength offset layout) := by
  cases layout with
  | plain | wide => exact Keeps.pure _
  | byte => exact keeps_map keeps_i8 _
  | short => exact keeps_map keeps_i16 _
  | arrayType | slot | constantByte => exact keeps_map keeps_u8 _
  | constant => exact keeps_map keeps_u16 _
  | increment => exact Keeps.bind keeps_u8 fun index => keeps_map keeps_i8 _
  | interface =>
    exact Keeps.bind keeps_u16 fun index => Keeps.bind keeps_u8 fun count =>
      keeps_map (keeps_advance 1) _
  | dynamic => exact Keeps.bind keeps_u16 fun index => keeps_map (keeps_advance 2) _
  | multiArray => exact Keeps.bind keeps_u16 fun index => keeps_map keeps_u8 _
  | branch => exact Keeps.bind keeps_i16 fun delta => keeps_map (keeps_branchTarget _) _
  | branchWide => exact Keeps.bind keeps_i32 fun delta => keeps_map (keeps_branchTarget _) _
  | tableSwitch => exact keeps_readTableSwitch
  | lookupSwitch => exact keeps_readLookupSwitch

theorem keeps_readWide : Keeps Cursor.Reaches (readWide offset) := by
  refine Keeps.bind keeps_u8 fun opcode => ?_
  split
  · exact keeps_map keeps_u16 _
  · exact Keeps.bind keeps_u16 fun index => keeps_map keeps_i16 _
  · exact keeps_malformed _

theorem keeps_readInstruction : Keeps Cursor.Reaches (readInstruction codeLength) := by
  refine Keeps.bind keeps_position fun offset => Keeps.bind keeps_u8 fun opcode => ?_
  split
  · exact keeps_malformed _
  · exact keeps_map keeps_readWide _
  · exact keeps_map (keeps_readOperand _) _

theorem keeps_readInstructions (acc : List (Located Nat)) (n : Nat) :
    Keeps Cursor.Reaches (readInstructions codeLength acc n) := by
  induction n generalizing acc with
  | zero => exact Keeps.pure _
  | succ n ih =>
    intro c
    by_cases hmore : c.hasMore = true
    · show Cursor.Reaches c (stateAfter ((if c.hasMore = true then
        readInstruction codeLength >>= fun l => readInstructions codeLength (l :: acc) n
        else pure acc.reverse : Reader (List (Located Nat))) c))
      rw [if_pos hmore]
      exact Keeps.bind keeps_readInstruction (fun l => ih (l :: acc)) c
    · have hrest : c.rest = [] := by simpa [Cursor.hasMore] using hmore
      rw [readInstructions_of_end hrest]
      exact .refl c

/-! ## Decoding -/

/-- A wide increment, both switches with their padding, and a wide jump. One branch leads into the
middle of the increment. -/
def bothSwitches : List UInt8 :=
  [0xC4, 0x84, 0, 1, 0, 2,
    0xAA, 0, 0, 0, 0, 47, 0xFF, 0xFF, 0xFF, 0xFF, 0, 0, 0, 0, 0xFF, 0xFF, 0xFF, 0xFD, 0, 0, 0, 22,
    0xAB, 0, 0, 0, 0xFF, 0xFF, 0xFF, 0xE4, 0, 0, 0, 1, 0, 0, 0, 7, 0, 0, 0, 20,
    0xC8, 0xFF, 0xFF, 0xFF, 0xD6, 0xB1]

end ClassPatch.Code
