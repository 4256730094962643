import Mathlib
import ClassPatch.Proofs.Code.Canonical
import ClassPatch.Proofs.Code.FrameRoundTrip
import ClassPatch.Proofs.MethodBody.Unedited

/-!
# Canonical code stored again

A body forgets how its code was stored: the forms of its instructions and frames, which tables had
no entries or several attributes, and which of several constants gave an attribute its name. Code
that has no choice in these is canonical. It is stored byte for byte as it was, and the pool has all
the names that it needs: every label comes back to the offset it was read from.
-/

namespace ClassPatch

open Bytes Bytes.Reader Code PoolEdit

/-! ## Canonical form -/

/-- The index is the first one of the text. -/
structure ConstantPool.FirstText (pool : ConstantPool) (text : String) (index : UInt16) : Prop where
  getText_eq : pool.getText index = .ok text
  le : ∀ other, pool.getText other = .ok text → index ≤ other

namespace MethodBody

/-- There is at most one attribute. It has the first index of the name, and its data are of the
kind. -/
inductive AtMostOne (pool : ConstantPool) (name : String) (kind : List UInt8 → Prop) :
    List Attribute → Prop
  | none : AtMostOne pool name kind []
  | one {index : UInt16} {data : List UInt8} :
      pool.FirstText name index → kind data → AtMostOne pool name kind [⟨index, data⟩]

/-- The data are a count and as many entries of the size, at least one, with no bytes after them. -/
def Filled (size : Nat) (data : List UInt8) : Prop := CountsEntries size data ∧ data ≠ counted []

/-- Code that is stored in the one form that is left to its instructions and tables. -/
structure Canonical (pool : ConstantPool) (code : CodeAttribute) : Prop where
  length_le : code.code.length ≤ maxCodeLength
  instructions : ∀ read, disassemble code.code = .ok read → ∀ l ∈ read, l.Canonical code.code
  /-- Ranges hold code. -/
  exceptions : ∀ entry ∈ code.exceptions, entry.start < entry.stop
  /-- Lines start inside the code. -/
  lines : ∀ stored, storedTables pool code = .ok stored →
    ∀ l ∈ stored.lines, l.start < code.code.length
  /-- There are no attributes but those of tables, in their order. -/
  attributes : ∃ lines locals localTypes frames,
    code.attributes = lines ++ locals ++ localTypes ++ frames ∧
    AtMostOne pool lineTableName (Filled 4) lines ∧
    AtMostOne pool localTableName (Filled 10) locals ∧
    AtMostOne pool localTypeTableName (Filled 10) localTypes ∧
    AtMostOne pool frameTableName (FrameTable.Compact code.code.length) frames

end MethodBody

/-! ## Names of attributes -/

namespace ConstantPool

variable {pool : ConstantPool} {text : String} {index : UInt16}

/-- The first index of a text is the one that is found for it. -/
theorem firstText_iff : pool.FirstText text index ↔ pool.find? (.utf8 text) = some index := by
  have hsmall {place : Nat} (h : place < index.toNat) : (UInt16.ofNat place).toNat = place :=
    UInt16.toNat_ofNat_of_lt' (h.trans index.toNat_lt)
  rw [find?_eq_some_iff]
  constructor
  · intro h
    refine ⟨getText_eq_ok.mp h.getText_eq, fun earlier hearlier hentry => ?_⟩
    have hle := h.le (UInt16.ofNat earlier) (getText_eq_ok.mpr (by rwa [hsmall hearlier]))
    rw [UInt16.le_iff_toNat_le, hsmall hearlier] at hle
    exact absurd hearlier (Nat.not_lt.mpr hle)
  · intro h
    obtain ⟨hentry, hfirst⟩ := h
    refine ⟨getText_eq_ok.mpr hentry, fun other hother => ?_⟩
    by_contra hlt
    exact hfirst other.toNat (UInt16.lt_iff_toNat_lt.mp (UInt16.not_le.mp hlt))
      (getText_eq_ok.mp hother)

/-- A text that is there is found at its first index, and nothing is added. -/
theorem FirstText.internText_eq (h : pool.FirstText text index) :
    internText text pool = .ok index pool := by
  rw [internText, intern, firstText_iff.mp h]

end ConstantPool

/-! ## The layout -/

namespace MethodBody

/-- The label of the end is not that of an instruction. -/
theorem Decoded.end_not_mem {code : CodeAttribute} {body : MethodBody} {read : List (Located Nat)}
    {found : List (Located Label)} (h : Decoded code body read found) {label : Label}
    (hlabel : body.labels.get? code.code.length = some label) :
    .label label ∉ labelledNodes body.labels found := by
  intro hmem
  obtain ⟨new, hnew, hnewLabel⟩ := label_mem_labelledNodes.mp hmem
  obtain ⟨l, hl, hsame, -⟩ := exists_of_mem_right h.labels hnew
  have hend := h.distinct.injective _ _ _ hlabel hnewLabel
  have hlt := offset_lt_of_sequence (disassemble_eq_ok.mp h.disassemble_eq) l hl
  omega

/-- The nodes of canonical code are laid out as they were, with every label at its offset, also
where it is the end of the code. -/
theorem Decoded.exists_encodeWith {code : CodeAttribute} {body : MethodBody}
    {read : List (Located Nat)} {found : List (Located Label)} (h : Decoded code body read found)
    (hfew : code.code.length ≤ maxCodeLength) (hcanonical : ∀ l ∈ read, l.Canonical code.code)
    (widening : BranchWidening) :
    ∃ result, encodeWith widening body.nodes = .ok result ∧ result.code = code.code ∧
      ∀ place label, body.labels.get? place = some label → result.places[label]? = some place := by
  have hseq := disassemble_eq_ok.mp h.disassemble_eq
  obtain ⟨pieces, a, hround⟩ := exists_reassembled h.distinct hseq rfl h.labels hcanonical hfew
    (a := .empty) rfl fun _ _ _ _ => by simp [Assembler.empty]
  have hsize : a.size = code.code.length := by
    rw [hround.size]
    simp [Assembler.empty]
  have hfresh : ∀ label, body.labels.get? code.code.length = some label →
      a.places[label]? = none := by
    intro label hlabel
    by_contra hplaced
    obtain ⟨place, hplace⟩ := Option.ne_none_iff_exists'.mp hplaced
    rcases (assembledPlan_of_mapM hround.assembled).label_mem label place hplace with hempty | hmem
    · simp [Assembler.empty] at hempty
    · exact h.end_not_mem hlabel (by simpa [shortPlan] using hmem)
  obtain ⟨a₁, front, hnil, hsame, hplaced, hkept, hrun⟩ := exists_assemble_labelNodes hfresh
  have hassemble : assemblePlan (shortPlan body.nodes) = .ok (pieces ++ (front ++ []), a₁) := by
    have hend := hrun [] [] a₁ rfl
    rw [List.append_nil] at hend
    have hwhole := mapM_assemble_append hround.assembled hend
    rw [shortPlan, shortPlan, ← List.map_append, ← shortPlan, ← h.nodes_eq] at hwhole
    rw [assemblePlan, hwhole]
  have hplaces : ∀ place label, body.labels.get? place = some label →
      a₁.places[label]? = some place := by
    intro place label hlabel
    by_cases hend : body.labels.get? code.code.length = some label
    · rw [hplaced label hend, hsize, h.distinct.injective _ _ _ hlabel hend]
    · rw [hkept label hend]
      rcases h.place_mem place label hlabel with rfl | ⟨l, hl, rfl⟩
      · exact absurd hlabel hend
      · exact hround.placed l.offset (List.mem_map_of_mem hl) label hlabel
  have hresolved : Resolved a₁.places (pieces ++ (front ++ [])).flatten code.code := by
    rw [List.append_nil, List.flatten_append, hnil, List.append_nil]
    exact hround.closes.resolved a₁.places fun target _ => hplaces target
  obtain ⟨hreach, hfinish⟩ := reaching_of_resolved hassemble (by rwa [hsame, hsize]) hresolved
  exact ⟨⟨code.code, a₁.places⟩, hfinish ▸ settle_of_reaching hassemble hreach, rfl, hplaces⟩

/-- All labels stay where they are. -/
theorem Decoded.relocates {code : CodeAttribute} {body : MethodBody} {read : List (Located Nat)}
    {found : List (Located Label)} {places : Places} (h : Decoded code body read found)
    (hfew : code.code.length ≤ maxCodeLength)
    (hplaces : ∀ place label, body.labels.get? place = some label → places[label]? = some place) :
    Relocates body.labels id places code.code.length code.code.length :=
  relocates_of_decoded h (strictMono_id.strictMonoOn _) rfl (hfew.trans_lt (by decide))
    (fun l _ => hplaces l.offset) (hplaces _)

end MethodBody

/-! ## Tables -/

@[simp] theorem TryBlock.map_id (b : TryBlock Nat) : b.map id = b := rfl

@[simp] theorem LineNumber.map_id (l : LineNumber Nat) : l.map id = l := rfl

@[simp] theorem LocalVariable.map_id (v : LocalVariable Nat) : v.map id = v := rfl

namespace MethodBody

/-- The attribute of a table, if there is one, holds the entries. -/
structure HoldsEntries {α : Type} (pool : ConstantPool) (name : String) (kind : List UInt8 → Prop)
    (r : Reader (List α)) (attributes : List Attribute) (entries? : Option (List α)) : Prop where
  atMostOne : AtMostOne pool name kind attributes
  read : List.Forall₂ (fun a entries => r.runOn a.data = .ok entries) attributes entries?.toList

/-- Without the attribute there are no entries, and otherwise they are read from its data. -/
theorem HoldsEntries.cases {α : Type} {pool : ConstantPool} {name : String}
    {kind : List UInt8 → Prop} {r : Reader (List α)} {attributes : List Attribute}
    {entries? : Option (List α)} (h : HoldsEntries pool name kind r attributes entries?) :
    attributes = [] ∧ entries? = none ∨ ∃ index data entries, attributes = [⟨index, data⟩] ∧
      entries? = some entries ∧ pool.FirstText name index ∧ kind data ∧
        r.runOn data = .ok entries := by
  obtain ⟨hattributes, hread⟩ := h
  cases hattributes with
  | none => exact .inl ⟨rfl, Option.toList_eq_nil_iff.mp (List.forall₂_nil_left_iff.mp hread)⟩
  | @one index data hfirst hkind =>
    obtain ⟨entries, rest, hentries, -, hsome⟩ := List.forall₂_cons_left_iff.mp hread
    refine .inr ⟨index, data, entries, rfl, ?_, hfirst, hkind, hentries⟩
    cases entries? <;> simp_all

/-- Blocks whose ranges hold code are stored as they were. -/
theorem stored_exceptions {m : LabelMap} {places : Places} {codeLength : Nat}
    {entries : List ExceptionEntry} {blocks : List (TryBlock Label)}
    (hmoves : Relocates m id places codeLength codeLength)
    (hlabels : List.Forall₂ (TryBlock.Labels m) (entries.map tryBlock) blocks)
    (hranges : ∀ entry ∈ entries, entry.start < entry.stop) :
    blocks.filterMap (·.stored? places) = entries := by
  have hinjective : Function.Injective tryBlock := by
    intro entry other hsame
    simp only [tryBlock, TryBlock.mk.injEq, UInt16.toNat_inj] at hsame
    obtain ⟨hstart, hstop, hhandler, hcatchType⟩ := hsame
    cases entry
    cases other
    simp_all
  have hall : ((entries.map tryBlock).filter fun b => b.start < b.stop) = entries.map tryBlock := by
    refine List.filter_eq_self.mpr fun b hb => ?_
    obtain ⟨entry, hentry, rfl⟩ := List.mem_map.mp hb
    exact decide_eq_true (UInt16.lt_iff_toNat_lt.mp (hranges entry hentry))
  refine List.map_injective_iff.mpr hinjective ((filterMap_stored? hmoves hlabels).trans ?_)
  rw [hall]
  simp only [TryBlock.map_id, List.map_id']

section Counted

variable {α : Type} {r : Reader α} {P : α → Prop} {f : α → List UInt8} {size : Nat}
  {entries : List α} {stored : List (List UInt8)} {data : List UInt8}

/-- A filled table is stored with the same bytes from the entries that are read from it. -/
theorem countedData?_of_filled (hr : r.Parses fun _ a data => P a ∧ data = f a)
    (hsize : ∀ a, (f a).length = size) (hfilled : Filled size data)
    (hread : (CodeTable.readCounted r).runOn data = .ok entries)
    (hstored : List.Forall₂ (fun a data => P a ∧ data = f a) entries stored) :
    countedData? stored = some data := by
  obtain ⟨⟨chunks, hchunks, hfew, hchunk⟩, hnonempty⟩ := hfilled
  obtain ⟨c', hrun⟩ := runOn_eq_ok.mp hread
  obtain ⟨_, ⟨hcount, body, hbody, rfl⟩, hrest, -⟩ := (hr.counted _ _ _).mp hrun
  rw [Cursor.rest_ofBytes, (Format.sequence_iff_flatMap.mp hbody).2, List.append_assoc] at hrest
  have hmap : stored = entries.map f := by
    rw [← List.forall₂_eq_eq_eq, List.forall₂_map_right_iff]
    exact (hstored.imp fun _ _ h => h.2).flip
  have hsame : chunks.length = entries.length := by
    have hcounts := List.append_inj_left (hchunks.symm.trans hrest) (by simp)
    have hvalue := congrArg BigEndian.value hcounts
    rw [BigEndian.value_bytes, BigEndian.value_bytes] at hvalue
    exact (Nat.mod_eq_of_lt hfew).symm.trans (hvalue.trans (Nat.mod_eq_of_lt hcount))
  -- as many entries take all the bytes
  have hend : c'.rest = [] := by
    have hlengths := congrArg List.length (hchunks.symm.trans hrest)
    have hflat : (entries.flatMap f).length = entries.length * size := by
      rw [List.flatMap_def, length_flatten_of_size (by simpa using fun a _ => hsize a),
        List.length_map]
    simp only [List.length_append, BigEndian.length_bytes, length_flatten_of_size hchunk, hflat,
      hsame] at hlengths
    exact List.length_eq_zero_iff.mp (by omega)
  have hdata : data = counted stored := by
    rw [hrest, hend, List.append_nil, hmap, counted, List.length_map, List.flatMap_def]
  have hfull : stored.isEmpty = false := by
    rw [List.isEmpty_eq_false_iff]
    rintro rfl
    exact hnonempty hdata
  rw [countedData?, hfull, hdata]
  rfl

/-- The attribute of a filled table is stored again from the entries that are read from it. -/
theorem tableAttribute_eq {pool : ConstantPool} {name : String} {attributes : List Attribute}
    {entries? : Option (List α)} (hr : r.Parses fun _ a data => P a ∧ data = f a)
    (hsize : ∀ a, (f a).length = size)
    (h : HoldsEntries pool name (Filled size) (CodeTable.readCounted r) attributes entries?)
    (hstored : List.Forall₂ (fun a data => P a ∧ data = f a) (entries?.getD []) stored) :
    tableAttribute name stored pool = .ok attributes pool := by
  rcases h.cases with ⟨rfl, rfl⟩ | ⟨index, data, entries, rfl, rfl, hfirst, hfilled, hread⟩
  · obtain rfl := List.forall₂_nil_left_iff.mp hstored
    rfl
  · have hdata := countedData?_of_filled hr hsize hfilled hread hstored
    rw [countedData?] at hdata
    split at hdata
    · cases hdata
    · rename_i hfull
      cases hdata
      rw [tableAttribute, if_neg hfull]
      exact Success.state_bind.mpr ⟨index, pool, hfirst.internText_eq, rfl⟩

end Counted

/-- A stack map in its shortest form is stored again from its frames. -/
theorem frameAttribute_eq {m : LabelMap} {pool : ConstantPool} {places : Places} {codeLength : Nat}
    {attributes : List Attribute} {frames? : Option (List (Frame Nat))}
    {new : Option (List (Frame Label))} (hmoves : Relocates m id places codeLength codeLength)
    (h : HoldsEntries pool frameTableName (FrameTable.Compact codeLength)
      (FrameTable.readTable codeLength) attributes frames?)
    (hlabels : Option.Rel (List.Forall₂ (Frame.Labels m)) frames? new) :
    frameAttribute places new pool = .ok attributes pool := by
  rcases h.cases with ⟨rfl, rfl⟩ | ⟨index, data, frames, rfl, rfl, hfirst, hcompact, hframes⟩
  · cases hlabels
    rfl
  · cases hlabels with
    | @some _ new hlabels =>
    obtain ⟨hfew, body, hbody, -⟩ := (FrameTable.parsesAll_readTable codeLength).runOn.mp hframes
    obtain ⟨hascending, hfits⟩ := hbody.storable
    have hsmall : ∀ frame ∈ frames, frame.place < UInt16.size := by
      intro frame hframe
      obtain ⟨newFrame, -, hnew⟩ := exists_of_mem_left hlabels hframe
      exact (hmoves.movesTo _ _ hnew.place).2
    have hwrite : FrameTable.write new places = .ok data := by
      rw [FrameTable.write_of_placed (fun place label h => (hmoves.movesTo place label h).1) hlabels
        ⟨hascending, hsmall, hfits⟩ hfew, (FrameTable.shortestTable_of_readTable hframes).2 hcompact]
    have hall : new.all (fun frame => places.contains frame.place) = true := by
      refine List.all_eq_true.mpr fun newFrame hnewFrame => ?_
      obtain ⟨frame, -, hnew⟩ := exists_of_mem_right hlabels hnewFrame
      rw [Std.HashMap.contains_eq_isSome_getElem?, (hmoves.movesTo _ _ hnew.place).1]
      rfl
    rw [frameAttribute, if_pos hall]
    exact Success.state_bind.mpr ⟨index, pool, hfirst.internText_eq,
      Success.state_bind.mpr ⟨data, pool, PoolEdit.ofExcept_eq_ok.mpr ⟨hwrite, rfl⟩, rfl⟩⟩

/-! ## Whole bodies -/

/-- From the attributes of a table, of which there is at most one, at most one table is read. -/
theorem AtMostOne.exists_entries {α : Type} {pool : ConstantPool} {codeLength : Nat} {name : String}
    {kind : List UInt8 → Prop} {attributes : List Attribute} {tables : List (Option (CodeTable Nat))}
    (h : AtMostOne pool name kind attributes) (r : Reader (List α)) (make : List α → CodeTable Nat)
    (hread : ∀ a, pool.getText a.nameIndex = .ok name →
      CodeTable.ofAttribute? pool codeLength a = do return some (make (← r.runOn a.data)))
    (htables : attributes.mapM (CodeTable.ofAttribute? pool codeLength) = .ok tables) :
    ∃ entries?, HoldsEntries pool name kind r attributes entries? ∧
      tables = ((entries?.map make).map some).toList := by
  rw [Success.except_mapM] at htables
  cases h with
  | none =>
    obtain rfl := List.forall₂_nil_left_iff.mp htables
    exact ⟨Option.none, ⟨.none, .nil⟩, rfl⟩
  | one hfirst hkind =>
    obtain ⟨table?, rest, htable, hrest, rfl⟩ := List.forall₂_cons_left_iff.mp htables
    obtain rfl := List.forall₂_nil_left_iff.mp hrest
    rw [hread _ hfirst.getText_eq] at htable
    obtain ⟨entries, hentries, hsome⟩ := Success.except_bind.mp htable
    cases hsome
    exact ⟨some entries, ⟨.one hfirst hkind, .cons hentries .nil⟩, rfl⟩

variable {pool : ConstantPool} {code : CodeAttribute} {body : MethodBody}

/-- The tables of canonical code are those that its attributes hold. -/
theorem Canonical.exists_entries (h : Canonical pool code) {stored : CodeTables Nat}
    (hstored : storedTables pool code = .ok stored) :
    ∃ lines locals localTypes frames lines? locals? types? frames?,
      code.attributes = lines ++ locals ++ localTypes ++ frames ∧
      stored = { exceptions := code.exceptions.map tryBlock, lines := lines?.getD [],
                 locals := locals?.getD [], localTypes := types?.getD [], frames := frames? } ∧
      HoldsEntries pool lineTableName (Filled 4) (CodeTable.readCounted CodeTable.readLine)
        lines lines? ∧
      HoldsEntries pool localTableName (Filled 10) (CodeTable.readCounted CodeTable.readVariable)
        locals locals? ∧
      HoldsEntries pool localTypeTableName (Filled 10)
        (CodeTable.readCounted CodeTable.readVariable) localTypes types? ∧
      HoldsEntries pool frameTableName (FrameTable.Compact code.code.length)
        (FrameTable.readTable code.code.length) frames frames? := by
  obtain ⟨lines, locals, localTypes, frames, hattributes, hlines, hlocals, hlocalTypes, hframes⟩ :=
    h.attributes
  obtain ⟨tables, htables, hmerge⟩ := Success.except_bind.mp hstored
  simp only [hattributes, Success.except_mapM_append] at htables
  obtain ⟨_, framesRead, ⟨_, typesRead, ⟨linesRead, localsRead, hlinesRead, hlocalsRead, rfl⟩,
    htypesRead, rfl⟩, hframesRead, rfl⟩ := htables
  obtain ⟨lines?, hlines, rfl⟩ := hlines.exists_entries
    (CodeTable.readCounted CodeTable.readLine) .lines
    (fun a h => by rw [CodeTable.ofAttribute?, h]; rfl) hlinesRead
  obtain ⟨locals?, hlocals, rfl⟩ := hlocals.exists_entries
    (CodeTable.readCounted CodeTable.readVariable) .locals
    (fun a h => by rw [CodeTable.ofAttribute?, h]; rfl) hlocalsRead
  obtain ⟨types?, hlocalTypes, rfl⟩ := hlocalTypes.exists_entries
    (CodeTable.readCounted CodeTable.readVariable) .localTypes
    (fun a h => by rw [CodeTable.ofAttribute?, h]; rfl) htypesRead
  obtain ⟨frames?, hframes, rfl⟩ := hframes.exists_entries
    (FrameTable.readTable code.code.length) .frames
    (fun a h => by rw [CodeTable.ofAttribute?, h]; rfl) hframesRead
  have hoptional {α : Type} (entries? : Option (List α)) (make : List α → CodeTable Nat) :
      entries?.map make = some (make (entries?.getD [])) ∨
        entries?.map make = none ∧ entries?.getD [] = [] := by
    cases entries? <;> simp
  rw [Success.except_pure, CodeTables.merge_optional _ (hoptional lines? .lines)
    (hoptional locals? .locals) (hoptional types? .localTypes)] at hmerge
  exact ⟨lines, locals, localTypes, frames, lines?, locals?, types?, frames?, hattributes, hmerge,
    hlines, hlocals, hlocalTypes, hframes⟩

/-- The body of canonical code is stored as the code that it was decoded from, and nothing is added
to the pool. -/
theorem encode_canonical (hdecode : decode pool code = .ok body)
    (hcanonical : Canonical pool code) : body.encode pool = .ok code pool := by
  obtain ⟨read, found, stored, hdecoded, hstored, hlabels⟩ := decode_eq_ok hdecode
  obtain ⟨⟨_, places⟩, hlayout, rfl, hplaces⟩ := hdecoded.exists_encodeWith hcanonical.length_le
    (hcanonical.instructions read hdecoded.disassemble_eq) body.widening
  have hmoves := hdecoded.relocates hcanonical.length_le hplaces
  have hfits := wasRead_of_storedTables hstored
  have hinside := hcanonical.lines stored hstored
  obtain ⟨lines, locals, localTypes, frames, lines?, locals?, types?, frames?, hattributes, rfl,
    hlines, hlocals, hlocalTypes, hframes⟩ := hcanonical.exists_entries hstored
  -- no entry is dropped, and every place stays what it was
  have hlineEntries := forall₂_line_bytes? hmoves hlabels.lines
  have hlocalEntries := forall₂_variable_bytes? hmoves hfits.locals hlabels.locals
  have htypeEntries := forall₂_variable_bytes? hmoves hfits.localTypes hlabels.localTypes
  rw [List.filter_eq_self.mpr fun l hl => decide_eq_true (hinside l hl)] at hlineEntries
  simp only [LineNumber.map_id, LocalVariable.map_id, List.map_id']
    at hlineEntries hlocalEntries htypeEntries
  have hexceptions := stored_exceptions hmoves hlabels.exceptions hcanonical.exceptions
  have hlinesStored := tableAttribute_eq parses_readLine (by simp) hlines hlineEntries
  have hlocalsStored := tableAttribute_eq parses_readVariable (by simp [LocalVariable.stored])
    hlocals hlocalEntries
  have htypesStored := tableAttribute_eq parses_readVariable (by simp [LocalVariable.stored])
    hlocalTypes htypeEntries
  have hframesStored := frameAttribute_eq hmoves hframes hlabels.frames
  calc body.encode pool
    _ = .ok (CodeAttribute.mk body.maxStack body.maxLocals code.code
          (body.tryBlocks.filterMap (·.stored? places)) (lines ++ locals ++ localTypes ++ frames))
          pool :=
      Success.state_bind.mpr ⟨_, pool, PoolEdit.ofExcept_eq_ok.mpr ⟨hlayout, rfl⟩,
        Success.state_bind.mpr ⟨lines, pool, hlinesStored, Success.state_bind.mpr ⟨locals, pool,
        hlocalsStored, Success.state_bind.mpr ⟨localTypes, pool, htypesStored,
        Success.state_bind.mpr ⟨frames, pool, hframesStored, rfl⟩⟩⟩⟩⟩
    _ = .ok (CodeAttribute.mk code.maxStack code.maxLocals code.code code.exceptions
          code.attributes) pool := by
      rw [hdecoded.maxStack_eq, hdecoded.maxLocals_eq, hattributes, ← hexceptions]
      rfl
    _ = .ok code pool := rfl

/-- The names of all tables, of a variable and of its type, and one of them a second time. -/
def allTableNames : ConstantPool :=
  ⟨#[.unusable, .utf8 frameTableName, .utf8 lineTableName, .utf8 localTableName,
    .utf8 localTypeTableName, .utf8 "x", .utf8 "I", .utf8 lineTableName]⟩

/-- Code with every table, a range and a variable that last to its end and a frame where both
branches go to. -/
def allTables : CodeAttribute where
  maxStack := 2
  maxLocals := 1
  code := [0xbb, 0, 9, 0x59, 0xc6, 0, 6, 0xa7, 0, 3, 0xb1]
  exceptions := [⟨4, 7, 10, 0⟩, ⟨7, 11, 10, 0⟩]
  attributes := [⟨2, [0, 2, 0, 0, 0, 1, 0, 10, 0, 2]⟩, ⟨3, [0, 1, 0, 4, 0, 7, 0, 5, 0, 6, 0, 0]⟩,
    ⟨4, [0, 1, 0, 4, 0, 7, 0, 5, 0, 6, 0, 0]⟩, ⟨1, [0, 1, 74, 8, 0, 0]⟩]

theorem encode_canonical_allTables : ∃ body, decode allTableNames allTables = .ok body ∧
    Canonical allTableNames allTables ∧ body.encode allTableNames = .ok allTables allTableNames := by
  have hdecode : ∃ body, decode allTableNames allTables = .ok body := by
    have hrun : (decode allTableNames allTables).isOk = true := by
      simp only [decode, strayPlace?, Std.HashSet.contains_ofList]
      decide +kernel
    cases h : decode allTableNames allTables with
    | ok body => exact ⟨body, rfl⟩
    | error e =>
      rw [h] at hrun
      cases hrun
  have hread : disassemble allTables.code = .ok [⟨0, ⟨0xbb, .constant 9⟩⟩, ⟨3, .simple 0x59⟩,
      ⟨4, ⟨0xc6, .branch 10⟩⟩, ⟨7, ⟨0xa7, .branch 10⟩⟩, ⟨10, .simple 0xb1⟩] := by
    decide +kernel
  have hstored : storedTables allTableNames allTables = .ok
      { exceptions := [⟨4, 7, 10, 0⟩, ⟨7, 11, 10, 0⟩], lines := [⟨0, 1⟩, ⟨10, 2⟩],
        locals := [⟨4, 11, 5, 6, 0⟩], localTypes := [⟨4, 11, 5, 6, 0⟩],
        frames := some [⟨10, .sameLocals (.uninitialized 0)⟩] } := by
    rfl
  have hcompact : FrameTable.Compact 11 [0, 1, 74, 8, 0, 0] :=
    (@FrameTable.readTable_shortestTable 11 [⟨10, .sameLocals (.uninitialized 0)⟩]
      ⟨by decide, by decide, by simp [FrameKind.Fits, VerificationType.Fits]⟩ (by decide)
      (by decide)).2
  have hname {name : String} {index : UInt16} (h : allTableNames.find? (.utf8 name) = some index) :=
    ConstantPool.firstText_iff.mpr h
  have hcanonical : Canonical allTableNames allTables := {
    length_le := by decide
    instructions := fun read h => by
      cases hread.symm.trans h
      decide
    exceptions := by decide
    lines := fun stored h => by
      cases hstored.symm.trans h
      decide
    attributes := ⟨[_], [_], [_], [_], rfl,
      .one (hname (by decide +kernel)) ⟨⟨[[0, 0, 0, 1], [0, 10, 0, 2]], by decide⟩, by decide⟩,
      .one (hname (by decide +kernel)) ⟨⟨[[0, 4, 0, 7, 0, 5, 0, 6, 0, 0]], by decide⟩, by decide⟩,
      .one (hname (by decide +kernel)) ⟨⟨[[0, 4, 0, 7, 0, 5, 0, 6, 0, 0]], by decide⟩, by decide⟩,
      .one (hname (by decide +kernel)) hcompact⟩ }
  obtain ⟨body, hdecode⟩ := hdecode
  exact ⟨body, hdecode, hcanonical, encode_canonical hdecode hcanonical⟩

end MethodBody

end ClassPatch
