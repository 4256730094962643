import Mathlib
import ClassPatch.Proofs.Code.LayoutReady
import ClassPatch.Proofs.MethodBody.Stored

/-!
# Bodies stored without an edit

A body that is stored as it was decoded moves the places of its tables with the instructions that
they belong to. Several tables of a kind become one, whose count has 16 bits: it tells the number
of the entries only if that is small enough, and otherwise the entries beyond it are lost. The code
can be decoded again, unless its last instruction is a conditional branch that was widened.
-/

namespace ClassPatch

open Bytes Code

/-- Every instruction is replaced by itself. -/
theorem Edited.refl (nodes : List Node) :
    Edited nodes ((nodes.filterMap Node.instruction?).map ([·])) nodes := by
  induction nodes with
  | nil => exact .nil
  | cons node nodes ih =>
    cases node with
    | label label => exact .label ih
    | instruction i => exact .instruction (List.cons_ne_nil i []) ih

/-! ## Counts of entries -/

/-- The entries of each table can be counted in two bytes. -/
structure CodeTables.Countable (t : CodeTables Nat) : Prop where
  lines : t.lines.length < UInt16.size
  locals : t.locals.length < UInt16.size
  localTypes : t.localTypes.length < UInt16.size

theorem CodeTables.Countable.counted_eq {t : CodeTables Nat} (h : t.Countable) : t.counted = t := by
  rw [counted, countedPart_of_lt h.lines, countedPart_of_lt h.locals,
    countedPart_of_lt h.localTypes]

namespace MethodBody

/-- The size of the entries of a table by its name, if they are all of one size. -/
def entrySize? (name : String) : Option Nat :=
  if name = lineTableName then some 4
  else if name = localTableName ∨ name = localTypeTableName then some 10
  else none

/-- The data are a count and as many entries of the size. -/
def CountsEntries (size : Nat) (data : List UInt8) : Prop :=
  ∃ entries : List (List UInt8), data = BigEndian.bytes 2 entries.length ++ entries.flatten ∧
    entries.length < UInt16.size ∧ ∀ entry ∈ entries, entry.length = size

/-- The count of the table, if the attribute is one with entries of one size, is their number. -/
def CountAgrees (pool : ConstantPool) (a : Attribute) : Prop :=
  ∀ name size, pool.getText a.nameIndex = .ok name → entrySize? name = some size →
    CountsEntries size a.data

theorem length_flatten_of_size {size : Nat} {entries : List (List UInt8)}
    (h : ∀ entry ∈ entries, entry.length = size) :
    entries.flatten.length = entries.length * size := by
  rw [List.length_flatten, List.map_congr_left h, List.map_const', List.sum_replicate, smul_eq_mul]

/-- Only so many entries are counted as two bytes can tell. -/
theorem countsEntries_counted {size : Nat} {stored : List (List UInt8)} (hpos : 0 < size)
    (hsize : ∀ entry ∈ stored, entry.length = size) :
    CountsEntries size (counted stored) ↔ stored.length < UInt16.size := by
  refine ⟨fun h => ?_, fun hfew => ⟨stored, rfl, hfew, hsize⟩⟩
  obtain ⟨entries, hdata, hfew, hentries⟩ := h
  have hlength := congrArg List.length hdata
  simp only [counted, List.length_append, BigEndian.length_bytes, length_flatten_of_size hsize,
    length_flatten_of_size hentries] at hlength
  -- as many bytes are as many entries
  have hsame : stored.length = entries.length :=
    Nat.eq_of_mul_eq_mul_right hpos (Nat.add_left_cancel hlength)
  exact hsame ▸ hfew

variable {pool before after : ConstantPool} {code new : CodeAttribute} {body : MethodBody}

/-- A table of entries of one size agrees with its count exactly if the entries can be counted. -/
theorem countAgrees_of_named {α : Type} {F : α → List UInt8 → Prop} {name : String} {size : Nat}
    {entries : List α} {stored : List (List UInt8)} {attributes : List Attribute}
    (hname : entrySize? name = some size) (hpos : 0 < size)
    (hsize : ∀ entry data, F entry data → data.length = size)
    (hentries : List.Forall₂ F entries stored)
    (hnamed : Named pool name (countedData? stored) attributes) :
    (∀ a ∈ attributes, CountAgrees pool a) ↔ entries.length < UInt16.size := by
  have hstored : ∀ data ∈ stored, data.length = size := by
    intro data hdata
    obtain ⟨entry, -, hentry⟩ := exists_of_mem_right hentries hdata
    exact hsize entry data hentry
  unfold countedData? at hnamed
  rw [hentries.length_eq]
  -- without entries there is no attribute that could disagree
  split at hnamed
  · rename_i hempty
    obtain rfl : attributes = [] := hnamed
    obtain rfl := List.isEmpty_iff.mp hempty
    simp
  · obtain ⟨index, hindex, rfl⟩ := hnamed
    rw [List.forall_mem_singleton, ← countsEntries_counted hpos hstored]
    refine ⟨fun h => h name size hindex hname, fun h name' size' hindex' hname' => ?_⟩
    rw [hindex] at hindex'
    cases hindex'
    rw [hname] at hname'
    cases hname'
    exact h

theorem countAgrees_of_frames {data? : Option (List UInt8)} {attributes : List Attribute}
    (hnamed : Named pool frameTableName data? attributes) :
    ∀ a ∈ attributes, CountAgrees pool a := by
  cases data? with
  | none =>
    obtain rfl : attributes = [] := hnamed
    simp
  | some data =>
    obtain ⟨index, hindex, rfl⟩ := hnamed
    rw [List.forall_mem_singleton]
    intro name size hindex' hname
    rw [hindex] at hindex'
    cases hindex'
    cases hname

/-- The counts of stored tables agree with their entries exactly if these can be counted. -/
theorem Encoded.countAgrees_iff {stored : CodeTables Nat} {result : Assembled} {m : LabelMap}
    {moved : Nat → Nat} (h : body.Encoded after result new)
    (hstored : storedTables pool code = .ok stored) (hlabels : stored.Labels m body.tables)
    (hmoves : Relocates m moved result.places code.code.length result.code.length) :
    (∀ a ∈ new.attributes, CountAgrees after a) ↔
      (stored.moved moved code.code.length).Countable := by
  have hread := wasRead_of_storedTables hstored
  obtain ⟨lines, locals, localTypes, frames, data?, hattributes, hlines, hlocals, hlocalTypes,
    -, hframes⟩ := h.attributes
  have hline (l : LineNumber Nat) (data : List UInt8) (h : l.start < UInt16.size ∧
      data = BigEndian.bytes 2 l.start ++ BigEndian.u16 l.line) : data.length = 4 := by
    rw [h.2]
    simp
  have hvariable (v : LocalVariable Nat) (data : List UInt8) (h : v.Fits ∧ data = v.stored) :
      data.length = 10 := by
    rw [h.2]
    simp [LocalVariable.stored]
  have hcountLines := countAgrees_of_named rfl (by decide) hline
    (forall₂_line_bytes? hmoves hlabels.lines) hlines
  have hcountLocals := countAgrees_of_named rfl (by decide) hvariable
    (forall₂_variable_bytes? hmoves hread.locals hlabels.locals) hlocals
  have hcountTypes := countAgrees_of_named rfl (by decide) hvariable
    (forall₂_variable_bytes? hmoves hread.localTypes hlabels.localTypes) hlocalTypes
  rw [hattributes, List.forall_mem_append, List.forall_mem_append, List.forall_mem_append]
  constructor
  · rintro ⟨⟨⟨hlines, hlocals⟩, htypes⟩, -⟩
    exact ⟨hcountLines.mp hlines, hcountLocals.mp hlocals, hcountTypes.mp htypes⟩
  · intro hfew
    exact ⟨⟨⟨hcountLines.mpr hfew.lines, hcountLocals.mpr hfew.locals⟩,
      hcountTypes.mpr hfew.localTypes⟩, countAgrees_of_frames hframes⟩

/-! ## Decoding again -/

/-- The targets of a decoded body stay inside the code. -/
theorem targetsInside_of_decoded {read : List (Located Nat)} {found : List (Located Label)}
    {places : Places} {moved : Nat → Nat} {newLength : Nat}
    (hdecoded : Decoded code body read found)
    (hmoves : Relocates body.labels moved places code.code.length newLength)
    {i : Instruction Label} (hi : .instruction i ∈ body.nodes) :
    TargetsInside places newLength i := by
  obtain ⟨l, hl, hlabels⟩ := hdecoded.exists_read hi
  intro label htarget place hplace
  obtain ⟨old, hold, hlabel⟩ :=
    exists_of_mem_right (Instruction.mapTargetsM_targets hlabels) htarget
  obtain ⟨hmoved, -⟩ := hmoves.movesTo old label hlabel
  obtain rfl : moved old = place := Option.some.inj (hmoved.symm.trans hplace)
  exact (hmoves.inside old label hlabel).mpr
    (target_lt_of_sequence (disassemble_eq_ok.mp hdecoded.disassemble_eq) l hl old hold)

/-- A branch leads to the end of stored code only if a condition was widened there. -/
theorem lastInstruction?_of_target_end {read again : List (Located Nat)}
    {found : List (Located Label)} {result : Assembled} {moved : Nat → Nat}
    (hdecoded : Decoded code body read found)
    (hlayout : encodeWith body.widening body.nodes = .ok result)
    (hmoves : Relocates body.labels moved result.places code.code.length result.code.length)
    (hscan : scan result.code = .ok again) {l : Located Nat} (hl : l ∈ again)
    (hend : result.code.length ∈ l.instruction.targets) :
    body.frames = none ∧ ∃ i, lastInstruction? body.nodes = some i ∧
      (Opcode.inverse? i.opcode).isSome := by
  obtain ⟨again', hscan', hlaid⟩ := scan_encodeWith hlayout
  obtain rfl : again = again' := Except.ok.inj (hscan.symm.trans hscan')
  have hoffsets : ∀ l ∈ again, l.offset < result.code.length := by
    simpa using offset_lt_of_sequence (scan_eq_ok.mp hscan)
  by_contra hnot
  -- otherwise all branches would lead to instructions
  refine Nat.lt_irrefl _ (target_lt_of_laidOut hlaid
    (fun i hi => targetsInside_of_decoded hdecoded hmoves hi) hoffsets (fun hall i hi => ?_)
    l hl _ hend)
  have hframes : body.frames = none := by
    cases hframes : body.frames with
    | none => rfl
    | some frames =>
      rw [widening, if_pos (by rw [hframes]; rfl)] at hall
      cases hall
  by_contra hinverse
  exact hnot ⟨hframes, i, hi, Option.isSome_iff_ne_none.mpr hinverse⟩

/-- What a body is stored as that was not edited. -/
structure Kept (moved : Nat → Nat) (code : CodeAttribute) (body : MethodBody)
    (read : List (Located Nat)) (stored : CodeTables Nat) (pool : ConstantPool)
    (new : CodeAttribute) (again : List (Located Nat)) : Prop where
  /-- Offsets keep their order. -/
  mono : StrictMonoOn moved {place | place ∈ read.map (·.offset) ∨ place = code.code.length}
  /-- The end goes to the end. -/
  stop_eq : moved code.code.length = new.code.length
  scan_eq : scan new.code = .ok again
  /-- Each instruction is stored where its offset goes. -/
  blocks : ∃ places blocks, again = blocks.flatten ∧ Moved body.widening places moved read
    ((body.nodes.filterMap Node.instruction?).map ([·])) blocks
  /-- All entries are stored that can be counted, in their order. -/
  tables_eq : storedTables pool new = .ok (stored.moved moved code.code.length).counted
  /-- Counts agree with the entries exactly if these can be counted. -/
  countAgrees_iff : (∀ a ∈ new.attributes, CountAgrees pool a) ↔
    (stored.moved moved code.code.length).Countable
  /-- The end is the target of a branch only if a condition was widened there. -/
  last : ∀ l ∈ again, new.code.length ∈ l.instruction.targets → body.frames = none ∧
    ∃ i, lastInstruction? body.nodes = some i ∧ (Opcode.inverse? i.opcode).isSome
  /-- That apart, the stored code can be decoded. -/
  decode_iff : (∃ new', decode pool new = .ok new') ↔
    ∀ l ∈ again, new.code.length ∉ l.instruction.targets
  /-- Then it has the entries from before. -/
  labels : ∀ new', decode pool new = .ok new' → (stored.moved moved code.code.length).Countable →
    (stored.moved moved code.code.length).Labels new'.labels new'.tables

theorem exists_kept {read : List (Located Nat)} {found : List (Located Label)}
    {stored : CodeTables Nat} (hdecode : decode pool code = .ok body)
    (hdecoded : Decoded code body read found) (hstored : storedTables pool code = .ok stored)
    (hlabels : stored.Labels body.labels body.tables)
    (hencode : body.encode before = .ok new after) :
    ∃ moved again, Kept moved code body read stored after new again := by
  obtain ⟨-, hyields⟩ := yields_encode _ _ _ _ hencode
  obtain ⟨result, hencoded⟩ := hyields after (.refl after)
  obtain ⟨moved, blocks, hscan, hmoved, hmono, hstop, hmoves⟩ :=
    exists_moved_of_edited hdecoded (.refl body.nodes) hencoded.layout
  have htables := hencoded.storedTables_eq hstored hlabels hmoves
  have hcode := hencoded.code_eq
  have hnew : scan new.code = .ok blocks.flatten := hcode ▸ hscan
  refine ⟨moved, blocks.flatten, {
    mono := hmono
    stop_eq := hcode ▸ hstop
    scan_eq := hnew
    blocks := ⟨result.places, blocks, rfl, hmoved⟩
    tables_eq := htables
    countAgrees_iff := hencoded.countAgrees_iff hstored hlabels hmoves
    last := fun l hl hend => lastInstruction?_of_target_end hdecoded hencoded.layout hmoves hscan
      hl (hcode ▸ hend)
    decode_iff := ?_
    labels := ?_ }⟩
  · rw [← disassemble_iff_of_scan hnew]
    refine ⟨fun h => ?_, fun h => exists_decode_of_edited hdecode (.refl body.nodes) rfl hencode
      (.refl after) h⟩
    obtain ⟨new', hnew'⟩ := h
    obtain ⟨again, _, _, hdecoded', -, -⟩ := decode_eq_ok hnew'
    -- what is taken apart is scanned as the same instructions
    have hagain := scan_of_disassemble hdecoded'.disassemble_eq
    obtain rfl : again = blocks.flatten := Except.ok.inj (hagain.symm.trans hnew)
    exact hdecoded'.disassemble_eq
  · intro new' hnew' hfew
    obtain ⟨_, _, stored', -, hstored', hlabels'⟩ := decode_eq_ok hnew'
    rw [htables, hfew.counted_eq] at hstored'
    cases hstored'
    exact hlabels'

/-- A body that is not edited is stored with its instructions and the entries of its tables, merged
in their order. The counts of the entries agree if two bytes can tell them, and with them the code
is decoded again, unless a conditional branch was widened at its end. -/
theorem encode_unedited (hdecode : decode pool code = .ok body)
    (hencode : body.encode before = .ok new after) :
    ∃ read stored moved again, disassemble code.code = .ok read ∧
      storedTables pool code = .ok stored ∧ stored.Labels body.labels body.tables ∧
      Kept moved code body read stored after new again := by
  obtain ⟨read, found, stored, hdecoded, hstored, hlabels⟩ := decode_eq_ok hdecode
  obtain ⟨moved, again, hkept⟩ := exists_kept hdecode hdecoded hstored hlabels hencode
  exact ⟨read, stored, moved, again, hdecoded.disassemble_eq, hstored, hlabels, hkept⟩

/-! ## Tables of many lines -/

/-- Code that returns at once, with tables of so many lines. -/
def lineTables (counts : List Nat) : CodeAttribute where
  maxStack := 0
  maxLocals := 0
  code := [0xb1]
  exceptions := []
  attributes := counts.map fun count => ⟨2, counted (List.replicate count [0, 0, 0, 1])⟩

/-- The tables that are read there. -/
def readTables (counts : List Nat) : List (CodeTable Nat) :=
  counts.map fun count => .lines (List.replicate count ⟨0, 1⟩)

theorem disassemble_return : disassemble [0xb1] = .ok [⟨0, ⟨0xb1, .plain⟩⟩] := by rfl

section LineTables

variable {counts : List Nat}

theorem mapM_lineTables (hfew : ∀ count ∈ counts, count < UInt16.size) :
    (lineTables counts).attributes.mapM (CodeTable.ofAttribute? tableNames 1) =
      .ok ((readTables counts).map some) := by
  have hentries (count : Nat) : List.Forall₂ (fun (l : LineNumber Nat) data =>
      l.start < UInt16.size ∧ data = BigEndian.bytes 2 l.start ++ BigEndian.u16 l.line)
      (List.replicate count ⟨0, 1⟩) (List.replicate count [0, 0, 0, 1]) := by
    induction count with
    | zero => exact .nil
    | succ count ih => exact .cons ⟨by decide, by rfl⟩ ih
  rw [Success.except_mapM, readTables, List.map_map, lineTables, List.forall₂_map_left_iff,
    List.forall₂_map_right_iff, List.forall₂_same]
  intro count hcount
  have hread := readCounted_counted parses_readLine (hentries count)
  rw [countedPart_of_lt (by simpa using hfew count hcount)] at hread
  exact CodeTable.ofAttribute?_eq_some.mpr ⟨lineTableName, rfl, .lines hread⟩

/-- Several tables are read as one, of all their lines. -/
theorem storedTables_lineTables (hfew : ∀ count ∈ counts, count < UInt16.size) :
    storedTables tableNames (lineTables counts) =
      .ok ⟨[], List.replicate counts.sum ⟨0, 1⟩, [], [], none⟩ := by
  have hlines : counts.flatMap (fun count => List.replicate count (LineNumber.mk 0 1)) =
      List.replicate counts.sum ⟨0, 1⟩ := by
    clear hfew
    induction counts with
    | nil => rfl
    | cons count counts ih =>
      rw [List.flatMap_cons, ih, List.replicate_append_replicate, List.sum_cons]
  refine Success.except_bind.mpr ⟨_, mapM_lineTables hfew, ?_⟩
  rw [Success.except_pure, ← hlines]
  simp [CodeTables.merge, readTables, lineTables, List.flatMap_map, List.filterMap_map]

theorem place_readTables : ∀ table ∈ ((readTables counts).map some).filterMap id,
    ∀ place ∈ table.places, place = 0 := by
  intro table htable place hplace
  rw [List.filterMap_map, Function.id_comp, List.filterMap_some] at htable
  obtain ⟨count, -, rfl⟩ := List.mem_map.mp htable
  obtain ⟨l, hl, hplace⟩ := List.mem_flatMap.mp hplace
  rw [List.eq_of_mem_replicate hl] at hplace
  exact List.mem_singleton.mp hplace

theorem exists_decode_lineTables (hfew : ∀ count ∈ counts, count < UInt16.size) :
    ∃ body, decode tableNames (lineTables counts) = .ok body := by
  refine exists_decode disassemble_return (mapM_lineTables hfew) ?_ ?_
    fun table htable place hplace =>
      .inr ⟨_, List.mem_singleton_self _, (place_readTables table htable place hplace).symm⟩
  · simp [Instruction.targets, Operand.targets]
  · simp [lineTables]

theorem nodes_lineTables (hfew : ∀ count ∈ counts, count < UInt16.size)
    (hdecode : decode tableNames (lineTables counts) = .ok body) :
    body.nodes = labelNodes body.labels 0 ++ [.instruction ⟨0xb1, .plain⟩] := by
  obtain ⟨read, found, _, hdecoded, -, -⟩ := decode_eq_ok hdecode
  obtain rfl : read = _ := Except.ok.inj (hdecoded.disassemble_eq.symm.trans disassemble_return)
  -- only the lines have a place, so none is at the end of the code
  have hend : body.labels.get? 1 = none := by
    rw [← Option.not_isSome_iff_eq_none]
    intro hlabel
    have hmem := place_mem_of_decode hdecode disassemble_return (mapM_lineTables hfew) hlabel
    rcases List.mem_append.mp hmem with hmem | hmem
    · simp [Instruction.targets, Operand.targets] at hmem
    · obtain ⟨table, htable, hplace⟩ := List.mem_flatMap.mp hmem
      exact absurd (place_readTables table htable 1 hplace) Nat.one_ne_zero
  rw [hdecoded.nodes_eq, show (lineTables counts).code.length = 1 from rfl,
    labelNodes_of_none hend, labelledNodes_of_labels hdecoded.labels, List.append_nil,
    List.flatMap_singleton]
  rfl

theorem layout_return (labels : LabelMap) :
    ∃ result, encodeWith .all (labelNodes labels 0 ++ [.instruction ⟨0xb1, .plain⟩]) = .ok result ∧
      result.code = [0xb1] := by
  have hcode : (encodeWith .all (labelNodes labels 0 ++ [.instruction ⟨0xb1, .plain⟩])).toOption.map
      (·.code) = some [0xb1] := by
    unfold labelNodes
    cases labels.get? 0 with
    | none => cbv
    | some label => cbv
  cases hlayout : encodeWith .all (labelNodes labels 0 ++ [.instruction ⟨0xb1, .plain⟩]) with
  | error e =>
    rw [hlayout] at hcode
    cases hcode
  | ok result =>
    rw [hlayout] at hcode
    exact ⟨result, rfl, Option.some.inj hcode⟩

theorem exists_tableAttribute_lines (entries : List (List UInt8)) :
    ∃ attributes, tableAttribute lineTableName entries tableNames = .ok attributes tableNames := by
  unfold tableAttribute
  split
  · exact ⟨[], rfl⟩
  · have hname : ConstantPool.internText lineTableName tableNames = .ok 2 tableNames := by cbv
    exact ⟨_, Success.state_bind.mpr ⟨2, _, hname, rfl⟩⟩

/-- A body without other tables than those of lines is stored if its nodes have code. -/
theorem encode_of_lines {entries : List (LineNumber Nat)} {result : Assembled}
    {lines : List Attribute}
    (hlabels : (⟨[], entries, [], [], none⟩ : CodeTables Nat).Labels body.labels body.tables)
    (hlayout : encodeWith .all body.nodes = .ok result)
    (hlines : tableAttribute lineTableName
      (body.lines.filterMap (·.bytes? result.places result.code.length)) before = .ok lines after) :
    ∃ new, body.encode before = .ok new after ∧ new.code = result.code ∧ new.attributes = lines := by
  have hlocals : body.locals = [] := List.forall₂_nil_left_iff.mp hlabels.locals
  have hlocalTypes : body.localTypes = [] := List.forall₂_nil_left_iff.mp hlabels.localTypes
  have hframes : body.frames = none := by
    have hrel := hlabels.frames
    cases hframes : body.frames with
    | none => rfl
    | some frames =>
      rw [tables, hframes] at hrel
      cases hrel
  refine ⟨⟨body.maxStack, body.maxLocals, result.code,
    body.tryBlocks.filterMap (·.stored? result.places), lines ++ [] ++ [] ++ []⟩, ?_, rfl, by simp⟩
  rw [encode, widening, hframes, hlocals, hlocalTypes]
  dsimp only [Option.isSome_none]
  rw [if_neg Bool.false_ne_true, hlayout]
  exact Success.state_bind.mpr ⟨result, _, rfl, Success.state_bind.mpr ⟨lines, _, hlines,
    Success.state_bind.mpr ⟨[], _, rfl, Success.state_bind.mpr ⟨[], _, rfl,
    Success.state_bind.mpr ⟨[], _, rfl, rfl⟩⟩⟩⟩⟩

/-- What was decoded can be stored. -/
theorem exists_encode_lineTables (hfew : ∀ count ∈ counts, count < UInt16.size)
    (hdecode : decode tableNames (lineTables counts) = .ok body) :
    ∃ new, body.encode tableNames = .ok new tableNames ∧ new.code = [0xb1] := by
  obtain ⟨_, _, _, -, hstored, hlabels⟩ := decode_eq_ok hdecode
  rw [storedTables_lineTables hfew] at hstored
  cases hstored
  obtain ⟨result, hlayout, hcode⟩ := layout_return body.labels
  rw [← nodes_lineTables hfew hdecode] at hlayout
  obtain ⟨lines, hlines⟩ := exists_tableAttribute_lines
    (body.lines.filterMap (·.bytes? result.places result.code.length))
  obtain ⟨new, hencode, hnew, -⟩ := encode_of_lines hlabels hlayout hlines
  exact ⟨new, hencode, hnew.trans hcode⟩

theorem moved_lineTables (moved : Nat → Nat) (count : Nat) :
    CodeTables.moved moved 1 ⟨[], List.replicate count ⟨0, 1⟩, [], [], none⟩ =
      ⟨[], List.replicate count ⟨moved 0, 1⟩, [], [], none⟩ := by
  simp [CodeTables.moved, LineNumber.map]

theorem Kept.exists_decode_return {moved : Nat → Nat} {read again : List (Located Nat)}
    {stored : CodeTables Nat} (h : Kept moved code body read stored pool new again)
    (hcode : new.code = [0xb1]) : ∃ new', decode pool new = .ok new' := by
  have hscan := h.scan_eq
  rw [hcode, scan_of_disassemble disassemble_return] at hscan
  cases hscan
  exact h.decode_iff.mpr (by simp [Instruction.targets, Operand.targets])

end LineTables

/-- The lines of two tables are kept as they are few. -/
theorem encode_unedited_twoLines : ∃ body new read stored moved again new',
    decode tableNames (lineTables [1, 1]) = .ok body ∧
      body.encode tableNames = .ok new tableNames ∧
      Kept moved (lineTables [1, 1]) body read stored tableNames new again ∧
      decode tableNames new = .ok new' ∧ (stored.moved moved 1).Countable ∧
      new'.lines.map (·.line) = [1, 1] := by
  have hfew : ∀ count ∈ [1, 1], count < UInt16.size := by decide
  obtain ⟨body, hdecode⟩ := exists_decode_lineTables hfew
  obtain ⟨new, hencode, hcode⟩ := exists_encode_lineTables hfew hdecode
  obtain ⟨read, stored, moved, again, -, hstored, -, hkept⟩ := encode_unedited hdecode hencode
  obtain ⟨new', hnew'⟩ := hkept.exists_decode_return hcode
  rw [storedTables_lineTables hfew] at hstored
  cases hstored
  have hcountable : (CodeTables.moved moved 1
      ⟨[], List.replicate [1, 1].sum ⟨0, 1⟩, [], [], none⟩).Countable := by
    rw [moved_lineTables]
    constructor <;> simp [UInt16.size]
  have hlines : List.Forall₂ (LineNumber.Labels new'.labels) [⟨moved 0, 1⟩, ⟨moved 0, 1⟩]
      new'.lines := (hkept.labels new' hnew' hcountable).lines
  refine ⟨body, new, read, _, moved, again, new', hdecode, hencode, hkept, hnew', hcountable, ?_⟩
  generalize new'.lines = lines at hlines ⊢
  obtain _ | ⟨hfirst, _ | ⟨hsecond, _ | _⟩⟩ := hlines
  simp [hfirst.line_eq, hsecond.line_eq]

/-- Each of the tables is counted, but not all of their lines together: these are lost. -/
theorem encode_manyLines : ∃ body new new',
    decode tableNames (lineTables [32768, 32768]) = .ok body ∧
      body.encode tableNames = .ok new tableNames ∧ decode tableNames new = .ok new' ∧
      body.lines.length = 65536 ∧ (∀ l ∈ body.lines, body.labels.get? 0 = some l.start) ∧
      new'.lines = [] ∧ ¬ ∀ a ∈ new.attributes, CountAgrees tableNames a := by
  have hfew : ∀ count ∈ [32768, 32768], count < UInt16.size := by decide
  obtain ⟨body, hdecode⟩ := exists_decode_lineTables hfew
  obtain ⟨new, hencode, hcode⟩ := exists_encode_lineTables hfew hdecode
  obtain ⟨read, found, stored, hdecoded, hstored, hlabels⟩ := decode_eq_ok hdecode
  obtain ⟨moved, again, hkept⟩ := exists_kept hdecode hdecoded hstored hlabels hencode
  obtain ⟨new', hnew'⟩ := hkept.exists_decode_return hcode
  obtain ⟨_, _, stored', -, hstored', hlabels'⟩ := decode_eq_ok hnew'
  rw [storedTables_lineTables hfew] at hstored
  cases hstored
  have hmoved := moved_lineTables moved [32768, 32768].sum
  refine ⟨body, new, new', hdecode, hencode, hnew', ?_, fun l hl => ?_, ?_, fun hagree => ?_⟩
  · exact hlabels.lines.length_eq.symm.trans List.length_replicate
  · obtain ⟨old, hold, hlabel⟩ := exists_of_mem_right hlabels.lines hl
    rw [← hlabel.start, List.eq_of_mem_replicate hold]
  · -- the count of the new table is zero, so no line is read
    have htables := hkept.tables_eq
    rw [hstored', show (lineTables [32768, 32768]).code.length = 1 from rfl, hmoved] at htables
    cases htables
    have hnone :
        countedPart (List.replicate [32768, 32768].sum (LineNumber.mk (moved 0) 1)) = [] := by
      rw [countedPart, List.length_replicate]
      rfl
    have hlines := hlabels'.lines
    rw [CodeTables.counted, hnone] at hlines
    exact List.forall₂_nil_left_iff.mp hlines
  · have hcountable := hkept.countAgrees_iff.mp hagree
    rw [show (lineTables [32768, 32768]).code.length = 1 from rfl, hmoved] at hcountable
    have hlines := hcountable.lines
    rw [List.length_replicate] at hlines
    exact absurd hlines (by decide)

/-! ## A condition at the end -/

/-- So many instructions that do nothing. -/
def idle (start count : Nat) : List (Located Nat) := (List.range' start count).map (⟨·, .simple 0⟩)

/-- A local that is loaded in its wide form, a switch whose only case leads to the end of the code,
and there a condition that leads back to the switch. -/
def conditionAtEnd (count : Nat) : CodeAttribute where
  maxStack := 1
  maxLocals := 1
  code := [Opcode.wide, Opcode.iload, 0, 0] ++ (List.replicate 3 0 ++
      (Opcode.tableswitch :: (offset32 7 (24 + count) ++ (BigEndian.i32 0 ++ (BigEndian.i32 0 ++
        offset32 7 (24 + count)))))) ++
    (List.replicate count 0 ++ (Opcode.ifeq :: offset16 (24 + count) 7))
  exceptions := []
  attributes := []

/-- The instructions of such code. -/
def conditionRead (count : Nat) : List (Located Nat) :=
  ⟨0, .ofSlot Opcode.iload 0⟩ :: (idle 4 3 ++
    [⟨7, ⟨Opcode.tableswitch, .tableSwitch (24 + count) 0 [24 + count]⟩⟩]) ++
  (idle 24 count ++ [⟨24 + count, ⟨Opcode.ifeq, .branch 7⟩⟩])

/-- The nodes of such code. -/
def conditionNodes (switch condition : Label) (count : Nat) : List Node :=
  [.instruction (.ofSlot Opcode.iload 0)] ++ (List.replicate 3 (.instruction (.simple 0)) ++
    [.label switch, .instruction ⟨Opcode.tableswitch, .tableSwitch condition 0 [condition]⟩]) ++
  (List.replicate count (.instruction (.simple 0)) ++
    [.label condition, .instruction ⟨Opcode.ifeq, .branch switch⟩])

section ConditionAtEnd

variable {count : Nat}

theorem length_conditionAtEnd (count : Nat) : (conditionAtEnd count).code.length = 27 + count := by
  simp only [conditionAtEnd, List.length_append, List.length_cons, List.length_nil,
    List.length_replicate, length_offset32, length_offset16, BigEndian.length_i32]
  omega

theorem sequence_idle (codeLength start count : Nat) :
    Format.Sequence (Located.Stored codeLength) start (idle start count)
      (List.replicate count 0) := by
  induction count generalizing start with
  | zero => exact .nil
  | succ count ih =>
    have hfirst : Located.Stored codeLength start ⟨start, .simple 0⟩ [0] :=
      ⟨rfl, .short (by decide) (by simp) .plain⟩
    exact .cons hfirst (ih (start + 1))

/-- The condition reaches the switch while there is not too much between them. -/
theorem disassemble_conditionAtEnd (hcount : count ≤ 32751) :
    disassemble (conditionAtEnd count).code = .ok (conditionRead count) := by
  rw [disassemble_eq_ok, length_conditionAtEnd]
  have hload : Located.Stored (27 + count) 0 ⟨0, .ofSlot Opcode.iload 0⟩
      [Opcode.wide, Opcode.iload, 0, 0] := ⟨rfl, .wideSlot (by decide)⟩
  have hreach : InReach 0x80000000 (27 + count) 7 (24 + count) := ⟨by omega, by omega, by omega⟩
  have hoperand : Operand.Stored (27 + count) 7 .tableSwitch 8
      (.tableSwitch (24 + count) 0 [24 + count]) ([] ++ (offset32 7 (24 + count) ++
        (BigEndian.i32 0 ++ (BigEndian.i32 0 ++ [24 + count].flatMap (offset32 7))))) :=
    .tableSwitch rfl hreach (by decide) rfl (List.forall_mem_singleton.mpr hreach)
  rw [List.flatMap_singleton, List.nil_append] at hoperand
  have hswitch : Located.Stored (27 + count) 7
      ⟨7, ⟨Opcode.tableswitch, .tableSwitch (24 + count) 0 [24 + count]⟩⟩ _ :=
    ⟨rfl, .short (by decide) (by simp) hoperand⟩
  have hcondition : Located.Stored (27 + count) (24 + count)
      ⟨24 + count, ⟨Opcode.ifeq, .branch 7⟩⟩ (Opcode.ifeq :: offset16 (24 + count) 7) :=
    ⟨rfl, .short (by decide) (by simp) (.branch ⟨by omega, by omega, by omega⟩)⟩
  have hback : Format.Sequence (Located.Stored (27 + count)) 24
      (idle 24 count ++ [⟨24 + count, ⟨Opcode.ifeq, .branch 7⟩⟩]) _ :=
    Format.sequence_append.mpr ⟨_, _, sequence_idle _ 24 count, Format.sequence_singleton.mpr
      (by rwa [List.length_replicate]), rfl⟩
  exact Format.sequence_append.mpr ⟨_, _, .cons hload (Format.sequence_append.mpr
    ⟨_, _, sequence_idle _ 4 3, Format.sequence_singleton.mpr hswitch, rfl⟩),
    by simpa using hback, rfl⟩

theorem targets_conditionRead (count : Nat) :
    (conditionRead count).flatMap (·.instruction.targets) = [24 + count, 24 + count, 7] := by
  have hidle (start count : Nat) : (idle start count).flatMap (·.instruction.targets) = [] := by
    rw [idle, List.flatMap_map, List.flatMap_eq_nil_iff]
    exact fun _ _ => rfl
  rw [conditionRead, List.flatMap_append, List.flatMap_cons, List.flatMap_append, hidle,
    List.flatMap_append, hidle]
  rfl

theorem mem_conditionRead (count : Nat) :
    ⟨7, ⟨Opcode.tableswitch, .tableSwitch (24 + count) 0 [24 + count]⟩⟩ ∈ conditionRead count ∧
      ⟨24 + count, ⟨Opcode.ifeq, .branch 7⟩⟩ ∈ conditionRead count := by
  simp [conditionRead]

theorem mapM_conditionAtEnd (pool : ConstantPool) (count : Nat) :
    (conditionAtEnd count).attributes.mapM
      (CodeTable.ofAttribute? pool (conditionAtEnd count).code.length) = .ok [] := rfl

theorem exists_decode_conditionAtEnd (pool : ConstantPool) (hcount : count ≤ 32751) :
    ∃ body, decode pool (conditionAtEnd count) = .ok body := by
  obtain ⟨hswitch, hcondition⟩ := mem_conditionRead count
  refine exists_decode (disassemble_conditionAtEnd hcount) (mapM_conditionAtEnd pool count)
    (fun l hl place hplace => .inr ?_) (by simp [conditionAtEnd]) (by simp)
  have hmem := List.mem_flatMap_of_mem (f := fun l => l.instruction.targets) hl hplace
  rw [targets_conditionRead] at hmem
  simp only [List.mem_cons, List.not_mem_nil, or_false] at hmem
  obtain rfl | rfl | rfl := hmem
  · exact ⟨_, hcondition, rfl⟩
  · exact ⟨_, hcondition, rfl⟩
  · exact ⟨_, hswitch, rfl⟩

theorem flatMap_idle {labels : LabelMap} {start : Nat}
    (hnone : ∀ place, start ≤ place → place < start + count → labels.get? place = none) :
    (idle start count).flatMap (fun l => labelNodes labels l.offset ++
      ((l.instruction.mapTargetsM labels.get?).map Node.instruction).toList) =
        List.replicate count (.instruction (.simple 0)) := by
  induction count generalizing start with
  | zero => rfl
  | succ count ih =>
    have hfirst := labelNodes_of_none (hnone start le_rfl (by omega))
    rw [idle, List.range'_succ, List.map_cons, List.flatMap_cons, ← idle, hfirst,
      ih fun place hlow hhigh => hnone place (by omega) (by omega)]
    rfl

theorem nodes_conditionAtEnd (hcount : count ≤ 32751)
    (hdecode : decode pool (conditionAtEnd count) = .ok body) :
    ∃ switch condition, switch ≠ condition ∧
      body.nodes = conditionNodes switch condition count := by
  have hread := disassemble_conditionAtEnd hcount
  obtain ⟨read, found, _, hdecoded, -, -⟩ := decode_eq_ok hdecode
  obtain rfl : read = conditionRead count :=
    Except.ok.inj (hdecoded.disassemble_eq.symm.trans hread)
  obtain ⟨hswitchMem, hconditionMem⟩ := mem_conditionRead count
  obtain ⟨switch, hswitch⟩ := hdecoded.exists_label hconditionMem (List.mem_singleton_self 7)
  obtain ⟨condition, hcondition⟩ :=
    hdecoded.exists_label hswitchMem (List.mem_cons_self (a := 24 + count))
  -- only the targets of the two branches have labels
  have hnone : ∀ place, place ≠ 7 → place ≠ 24 + count → body.labels.get? place = none := by
    intro place hswitch hcondition
    rw [← Option.not_isSome_iff_eq_none]
    intro hlabel
    have hmem := place_mem_of_decode hdecode hread (mapM_conditionAtEnd pool count) hlabel
    rw [targets_conditionRead] at hmem
    simp [hswitch, hcondition, conditionAtEnd] at hmem
  refine ⟨switch, condition, ?_, ?_⟩
  · rintro rfl
    have hsame := hdecoded.distinct.injective _ _ _ hswitch hcondition
    omega
  · have hswitchRead : (⟨Opcode.tableswitch, .tableSwitch (24 + count) 0 [24 + count]⟩ :
        Instruction Nat).mapTargetsM body.labels.get? =
          some ⟨Opcode.tableswitch, .tableSwitch condition 0 [condition]⟩ := by
      simp [Instruction.mapTargetsM, Operand.mapTargetsM, hcondition]
    have hconditionRead : (⟨Opcode.ifeq, .branch 7⟩ : Instruction Nat).mapTargetsM
        body.labels.get? = some ⟨Opcode.ifeq, .branch switch⟩ := by
      simp [Instruction.mapTargetsM, Operand.mapTargetsM, hswitch]
    rw [hdecoded.nodes_eq, labelledNodes_of_labels hdecoded.labels, length_conditionAtEnd,
      labelNodes_of_none (hnone _ (by omega) (by omega)), List.append_nil, conditionRead,
      List.flatMap_append,
      List.flatMap_append, List.flatMap_cons, List.flatMap_append,
      flatMap_idle fun place hlow hhigh => hnone place (by omega) (by omega),
      flatMap_idle fun place hlow hhigh => hnone place (by omega) (by omega)]
    simp only [List.flatMap_singleton, hswitchRead, hconditionRead, labelNodes, hswitch, hcondition,
      hnone 0 (by omega) (by omega)]
    rfl

theorem layoutReady_conditionNodes {switch condition : Label} (hne : switch ≠ condition)
    (count : Nat) : LayoutReady (conditionNodes switch condition count) := by
  have hcases (i : Instruction Label)
      (hi : .instruction i ∈ conditionNodes switch condition count) :
      i = .ofSlot Opcode.iload 0 ∨ i = .simple 0 ∨
        i = ⟨Opcode.tableswitch, .tableSwitch condition 0 [condition]⟩ ∨
        i = ⟨Opcode.ifeq, .branch switch⟩ := by
    simp only [conditionNodes, List.mem_append, List.mem_cons, Node.instruction.injEq, reduceCtorEq,
      List.not_mem_nil, or_false, false_or, List.mem_replicate] at hi
    tauto
  constructor
  · intro i hi
    obtain rfl | rfl | rfl | rfl := hcases i hi
    · exact ⟨.slot, rfl, trivial⟩
    · exact ⟨.plain, rfl, trivial⟩
    · exact ⟨.tableSwitch, rfl, List.cons_ne_nil _ _, by simp, by simp⟩
    · exact ⟨.branch, rfl, trivial⟩
  · intro label
    have hlabels : (conditionNodes switch condition count).filter Node.isLabel =
        [.label switch, .label condition] := by
      simp [conditionNodes, List.filter_cons, Node.isLabel]
    rw [← List.count_filter (p := Node.isLabel) rfl, hlabels]
    refine List.nodup_iff_count_le_one.mp ?_ (Node.label label)
    simpa using hne
  · intro i hi target htarget
    obtain rfl | rfl | rfl | rfl := hcases i hi
    · cases htarget
    · cases htarget
    · obtain rfl : target = condition := by
        simpa [Instruction.targets, Operand.targets] using htarget
      simp [conditionNodes]
    · obtain rfl := List.mem_singleton.mp htarget
      simp [conditionNodes]

theorem emitted_idle {places : Places} {start stop : Nat} {plan : List PlannedNode}
    {pieces : List (List Piece)} {nodes : List Node} (h : Emitted places start plan pieces stop)
    (hnodes : plan.map (·.node) = List.replicate count (.instruction (.simple 0)) ++ nodes) :
    ∃ plan' pieces', plan'.map (·.node) = nodes ∧
      Emitted places (start + count) plan' pieces' stop := by
  induction count generalizing start plan pieces with
  | zero => exact ⟨plan, pieces, hnodes, h⟩
  | succ count ih =>
    obtain ⟨_, _, hnodes, (hnext : Emitted places (start + 1) _ _ stop)⟩ :=
      h.of_closed hnodes (fun _ => nofun) rfl
    obtain ⟨plan', pieces', hnodes, hrest⟩ := ih hnext hnodes
    exact ⟨plan', pieces', hnodes, by rwa [Nat.add_right_comm] at hrest⟩

/-- Without the wide form of the local, the switch starts two bytes earlier and ends where it did. -/
theorem emitted_conditionNodes {switch condition : Label} {places : Places} {stop : Nat}
    {plan : List PlannedNode} {pieces : List (List Piece)} (h : Emitted places 0 plan pieces stop)
    (hnodes : plan.map (·.node) = conditionNodes switch condition count) :
    places[switch]? = some 5 ∧ 27 + count ≤ stop ∧ stop ≤ 32 + count := by
  rw [conditionNodes, List.append_assoc, List.singleton_append] at hnodes
  obtain ⟨_, _, hnodes, (hsimple : Emitted places 2 _ _ stop)⟩ :=
    h.of_closed hnodes (fun _ => nofun) rfl
  rw [List.append_assoc] at hnodes
  obtain ⟨_, _, hnodes, hlabel⟩ := emitted_idle hsimple hnodes
  obtain ⟨hplace, _, _, hnodes, hswitch⟩ := hlabel.of_label hnodes
  obtain ⟨_, _, hnodes, (hidle : Emitted places 24 _ _ stop)⟩ :=
    hswitch.of_closed hnodes (fun _ => nofun) rfl
  obtain ⟨_, _, hnodes, hlabel⟩ := emitted_idle hidle hnodes
  obtain ⟨-, _, _, hnodes, hcondition⟩ := hlabel.of_label hnodes
  obtain ⟨wide, front, _, _, hfront, hnodes, hend⟩ := hcondition.of_instruction hnodes
  obtain rfl := List.map_eq_nil_iff.mp hnodes
  cases hend
  have hsize : piecesSize front = 3 ∨ piecesSize front = 8 := by
    cases wide with
    | false =>
      cases hfront
      exact .inl rfl
    | true =>
      cases hfront
      exact .inr rfl
  exact ⟨hplace, by omega, by omega⟩

theorem exists_encodeWith_conditionNodes {switch condition : Label} (hne : switch ≠ condition)
    (hcount : count ≤ 32751) :
    ∃ result, encodeWith .all (conditionNodes switch condition count) = .ok result := by
  refine exists_encodeWith (layoutReady_conditionNodes hne count)
    fun places plan pieces stop hnodes hemitted => ?_
  obtain ⟨-, -, hstop⟩ := emitted_conditionNodes hemitted hnodes
  exact hstop.trans (by rw [maxCodeLength]; omega)

/-- The switch is out of reach now, so the condition is turned around and leads past a jump. -/
theorem target_end_of_conditionNodes {switch condition : Label} {result : Assembled}
    {again : List (Located Nat)} (hcount : 32750 ≤ count)
    (hlayout : encodeWith .all (conditionNodes switch condition count) = .ok result)
    (hscan : scan result.code = .ok again) :
    ∃ l ∈ again, result.code.length ∈ l.instruction.targets := by
  obtain ⟨plan, pieces, hsettled⟩ := encodeWith_eq_ok hlayout
  obtain ⟨hplace, hlong, -⟩ := emitted_conditionNodes hsettled.emitted hsettled.nodes_eq
  obtain ⟨again', hscan', hlaid⟩ := scan_encodeWith hlayout
  obtain rfl : again = again' := Except.ok.inj (hscan.symm.trans hscan')
  obtain ⟨front, _, _, rfl, -, hlaid⟩ := hlaid.split
  obtain ⟨middle, _, start, rfl, -, hlaid⟩ := hlaid.split
  generalize hlength : result.code.length = stop at hlong hlaid ⊢
  cases hlaid with
  | label _ hlaid =>
  cases hlaid with
  | instruction hblock hend =>
  cases hend
  cases hblock with
  | same hread =>
    -- the offset does not fit in two bytes
    have hshort : (⟨Opcode.ifeq, .branch switch⟩ : Instruction Label).mapTargetsM
        (result.places[·]?) = some ⟨Opcode.ifeq, .branch 5⟩ := by
      simp [Instruction.mapTargetsM, Operand.mapTargetsM, hplace]
    obtain rfl := Option.some.inj (hshort.symm.trans hread)
    obtain ⟨_, _, -, hseq, hcode⟩ := Format.sequence_append.mp (scan_eq_ok.mp hscan)
    obtain ⟨_, data, -, hlast, rfl⟩ := Format.sequence_append.mp hseq
    obtain ⟨hstart, hstored⟩ := Format.sequence_singleton.mp hlast
    cases hstored with
    | short hlayout _ hoperand =>
      cases hlayout
      cases hoperand with
      | branch hreach =>
        have hlow := hreach.2.1
        rw [hcode] at hlength
        simp only [List.length_append, List.length_cons, length_offset16] at hlength hlow
        omega
  | wideConstant hsame => cases hsame
  | wideJump _ hjump => cases hjump
  | inverted =>
    exact ⟨_, List.mem_append_right _ (List.mem_append_right _ List.mem_cons_self),
      List.mem_singleton_self _⟩

end ConditionAtEnd

/-- The condition is widened as the switch starts earlier, which leaves code with a branch to its
end: it is stored, without a table, and cannot be decoded again. -/
theorem encode_conditionAtEnd (pool : ConstantPool) : ∃ body new,
    decode pool (conditionAtEnd 32751) = .ok body ∧ body.encode pool = .ok new pool ∧
      new.attributes = [] ∧ ¬ ∃ new', decode pool new = .ok new' := by
  have hcount : 32751 ≤ 32751 := le_rfl
  obtain ⟨body, hdecode⟩ := exists_decode_conditionAtEnd pool hcount
  obtain ⟨switch, condition, hne, hnodes⟩ := nodes_conditionAtEnd hcount hdecode
  obtain ⟨result, hlayout⟩ := exists_encodeWith_conditionNodes hne hcount
  obtain ⟨read, found, stored, hdecoded, hstored, hlabels⟩ := decode_eq_ok hdecode
  obtain rfl : stored = ⟨[], [], [], [], none⟩ := (Except.ok.inj hstored).symm
  have hlines : body.lines = [] := List.forall₂_nil_left_iff.mp hlabels.lines
  have hnone : tableAttribute lineTableName
      (body.lines.filterMap (·.bytes? result.places result.code.length)) pool = .ok [] pool := by
    rw [hlines]
    rfl
  obtain ⟨new, hencode, hcode, hattributes⟩ := encode_of_lines hlabels (hnodes ▸ hlayout) hnone
  obtain ⟨moved, again, hkept⟩ := exists_kept hdecode hdecoded hstored hlabels hencode
  obtain ⟨l, hl, hend⟩ := target_end_of_conditionNodes (by decide) hlayout (hcode ▸ hkept.scan_eq)
  refine ⟨body, new, hdecode, hencode, hattributes, fun hnew => ?_⟩
  exact hkept.decode_iff.mp hnew l hl (hcode ▸ hend)

end MethodBody

end ClassPatch
