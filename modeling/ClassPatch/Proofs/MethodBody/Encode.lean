import Mathlib
import ClassPatch.MethodBody.Encode
import ClassPatch.Proofs.ConstantPool.Intern
import ClassPatch.Proofs.MethodBody.Tables

/-!
# Stored code of bodies

Storing a body lays out its nodes and stores its tables by the places of their labels. Where the
labels have been moved together, so that their order is kept, the stored tables are read as the
tables from before with their places moved.
-/

namespace ClassPatch

open Bytes Bytes.Reader Code PoolEdit

/-! ## Entries of tables -/

theorem parses_readLine : CodeTable.readLine.Parses fun _ l data => l.start < UInt16.size ∧
    data = BigEndian.bytes 2 l.start ++ BigEndian.u16 l.line := by
  refine (Parses.u16.bind fun start => Parses.u16.map fun line =>
    LineNumber.mk start.toNat line).congr fun pos l data => ?_
  constructor
  · intro h
    obtain ⟨start, _, _, rfl, ⟨line, rfl, rfl⟩, rfl⟩ := h
    exact ⟨start.toNat_lt, rfl⟩
  · intro h
    obtain ⟨hsmall, rfl⟩ := h
    refine ⟨UInt16.ofNat l.start, _, _, rfl, ⟨l.line, rfl, ?_⟩, ?_⟩
    · rw [UInt16.toNat_ofNat_of_lt' hsmall]
    · rw [u16_ofNat hsmall]

/-- The range of a variable can be stored by its start and its length. -/
def LocalVariable.Fits (v : LocalVariable Nat) : Prop :=
  v.start < UInt16.size ∧ v.start ≤ v.stop ∧ v.stop - v.start < UInt16.size

/-- The bytes of a variable. -/
def LocalVariable.stored (v : LocalVariable Nat) : List UInt8 :=
  BigEndian.bytes 2 v.start ++ BigEndian.bytes 2 (v.stop - v.start) ++
    BigEndian.u16 v.nameIndex ++ BigEndian.u16 v.descriptorIndex ++ BigEndian.u16 v.slot

theorem parses_readVariable :
    CodeTable.readVariable.Parses fun _ v data => v.Fits ∧ data = v.stored := by
  refine (Parses.u16.bind fun start => Parses.u16.bind fun length => Parses.u16.bind fun name =>
    Parses.u16.bind fun descriptor => Parses.u16.map fun slot => LocalVariable.mk start.toNat
      (start.toNat + length.toNat) name descriptor slot).congr fun pos v data => ?_
  constructor
  · intro h
    obtain ⟨start, _, _, rfl, ⟨length, _, _, rfl, ⟨name, _, _, rfl, ⟨descriptor, _, _, rfl,
      ⟨slot, rfl, rfl⟩, rfl⟩, rfl⟩, rfl⟩, rfl⟩ := h
    have hlength : start.toNat + length.toNat - start.toNat = length.toNat := by omega
    refine ⟨⟨start.toNat_lt, Nat.le_add_right .., ?_⟩, ?_⟩
    · rw [hlength]
      exact length.toNat_lt
    · rw [LocalVariable.stored, hlength]
      simp only [List.append_assoc]
      rfl
  · intro h
    obtain ⟨⟨hstart, hle, hlength⟩, rfl⟩ := h
    refine ⟨UInt16.ofNat v.start, _, _, rfl, ⟨UInt16.ofNat (v.stop - v.start), _, _, rfl,
      ⟨v.nameIndex, _, _, rfl, ⟨v.descriptorIndex, _, _, rfl, ⟨v.slot, rfl, ?_⟩, rfl⟩, rfl⟩, rfl⟩, ?_⟩
    · rw [UInt16.toNat_ofNat_of_lt' hstart, UInt16.toNat_ofNat_of_lt' hlength,
        Nat.add_sub_cancel' hle]
    · rw [u16_ofNat hstart, u16_ofNat hlength, LocalVariable.stored]
      simp only [List.append_assoc]

/-- Of entries stored after their number, as many are read as the number in two bytes says. -/
theorem readCounted_counted {α : Type} {r : Reader α} {F : α → List UInt8 → Prop}
    (hr : r.Parses fun _ => F) {entries : List α} {stored : List (List UInt8)}
    (h : List.Forall₂ F entries stored) :
    (CodeTable.readCounted r).runOn (MethodBody.counted stored) = .ok (countedPart entries) := by
  -- the count is cut to two bytes, so it is the remainder that is read
  have hcount : BigEndian.bytes 2 stored.length =
      BigEndian.bytes 2 (entries.length % UInt16.size) := by
    rw [← h.length_eq]
    conv => lhs; rw [← Nat.mod_add_div' entries.length UInt16.size]
    exact BigEndian.bytes_add_mul 2 _ _
  have hlength : (countedPart entries).length = entries.length % UInt16.size := by
    rw [countedPart, List.length_take, Nat.min_eq_left (Nat.mod_le _ _)]
  have hformat : Format.Counted (fun _ => F) 0 (countedPart entries)
      (BigEndian.bytes 2 (entries.length % UInt16.size) ++
        (stored.take (entries.length % UInt16.size)).flatten) := by
    refine ⟨hlength ▸ Nat.mod_lt _ (by decide), _, ?_, by rw [hlength]⟩
    exact Format.sequence_of_forall₂ (List.forall₂_take _ h) _
  have hrest : (Cursor.ofBytes (MethodBody.counted stored)).rest =
      (BigEndian.bytes 2 (entries.length % UInt16.size) ++
        (stored.take (entries.length % UInt16.size)).flatten) ++
        (stored.drop (entries.length % UInt16.size)).flatten := by
    rw [Cursor.rest_ofBytes, MethodBody.counted, hcount, List.append_assoc, ← List.flatten_append,
      List.take_append_drop]
  exact runOn_eq_ok.mpr ⟨_, hr.counted.run hformat hrest⟩

/-! ## Places of labels -/

/-- The labels of code have places in other code, in the order of their offsets and at its end
only if they stood at the end. -/
structure Relocates (m : LabelMap) (moved : Nat → Nat) (places : Places)
    (oldLength newLength : Nat) : Prop where
  movesTo : m.MovesTo moved places
  mono : StrictMonoOn moved {place | ∃ label, m.get? place = some label}
  inside : ∀ place label, m.get? place = some label → (moved place < newLength ↔ place < oldLength)

section Relocates

variable {m : LabelMap} {moved : Nat → Nat} {places : Places} {oldLength newLength : Nat}

theorem filterMap_stored? (hmoves : Relocates m moved places oldLength newLength)
    {blocks : List (TryBlock Nat)} {new : List (TryBlock Label)}
    (h : List.Forall₂ (TryBlock.Labels m) blocks new) :
    (new.filterMap (·.stored? places)).map MethodBody.tryBlock =
      (blocks.filter fun b => b.start < b.stop).map (·.map moved) := by
  induction h with
  | nil => rfl
  | @cons b new blocks rest hb _ ih =>
    obtain ⟨hstart, hstartSmall⟩ := hmoves.movesTo _ _ hb.start
    obtain ⟨hstop, hstopSmall⟩ := hmoves.movesTo _ _ hb.stop
    obtain ⟨hhandler, hhandlerSmall⟩ := hmoves.movesTo _ _ hb.handler
    -- no range becomes empty by moving, and none that was empty stops being so
    have horder : moved b.start < moved b.stop ↔ b.start < b.stop :=
      hmoves.mono.lt_iff_lt ⟨_, hb.start⟩ ⟨_, hb.stop⟩
    have hstored : new.stored? places = if b.start < b.stop then
        some { start := UInt16.ofNat (moved b.start), stop := UInt16.ofNat (moved b.stop),
               handler := UInt16.ofNat (moved b.handler), catchType := b.catchType } else none := by
      simp only [TryBlock.stored?, hstart, hstop, hhandler, Option.bind_eq_bind, Option.bind_some,
        horder, hb.catchType_eq]
    by_cases hrange : b.start < b.stop
    · rw [if_pos hrange] at hstored
      rw [List.filterMap_cons_some hstored, List.filter_cons_of_pos (by simpa using hrange),
        List.map_cons, List.map_cons, ih]
      congr 1
      simp only [MethodBody.tryBlock, TryBlock.map, UInt16.toNat_ofNat_of_lt' hstartSmall,
        UInt16.toNat_ofNat_of_lt' hstopSmall, UInt16.toNat_ofNat_of_lt' hhandlerSmall]
    · rw [if_neg hrange] at hstored
      rw [List.filterMap_cons_none hstored, List.filter_cons_of_neg (by simpa using hrange), ih]

theorem forall₂_line_bytes? (hmoves : Relocates m moved places oldLength newLength)
    {lines : List (LineNumber Nat)} {new : List (LineNumber Label)}
    (h : List.Forall₂ (LineNumber.Labels m) lines new) :
    List.Forall₂ (fun l data => l.start < UInt16.size ∧
        data = BigEndian.bytes 2 l.start ++ BigEndian.u16 l.line)
      ((lines.filter fun l => l.start < oldLength).map (·.map moved))
      (new.filterMap (·.bytes? places newLength)) := by
  induction h with
  | nil => exact .nil
  | @cons l new lines rest hl _ ih =>
    obtain ⟨hstart, hsmall⟩ := hmoves.movesTo _ _ hl.start
    have hbytes : new.bytes? places newLength = if l.start < oldLength then
        some (BigEndian.bytes 2 (moved l.start) ++ BigEndian.u16 l.line) else none := by
      simp only [LineNumber.bytes?, hstart, Option.bind_eq_bind, Option.bind_some,
        hmoves.inside _ _ hl.start, hl.line_eq]
    by_cases hinside : l.start < oldLength
    · rw [if_pos hinside] at hbytes
      rw [List.filterMap_cons_some hbytes, List.filter_cons_of_pos (by simpa using hinside)]
      exact .cons ⟨hsmall, rfl⟩ ih
    · rw [if_neg hinside] at hbytes
      rw [List.filterMap_cons_none hbytes, List.filter_cons_of_neg (by simpa using hinside)]
      exact ih

theorem forall₂_variable_bytes? (hmoves : Relocates m moved places oldLength newLength)
    {locals : List (LocalVariable Nat)} {new : List (LocalVariable Label)}
    (hfits : ∀ v ∈ locals, v.Fits) (h : List.Forall₂ (LocalVariable.Labels m) locals new) :
    List.Forall₂ (fun v data => v.Fits ∧ data = v.stored)
      (locals.map (·.map moved)) (new.filterMap (·.bytes? places)) := by
  induction h with
  | nil => exact .nil
  | @cons v new locals rest hv _ ih =>
    obtain ⟨hhead, hrest⟩ := List.forall_mem_cons.mp hfits
    obtain ⟨hstart, hsmall⟩ := hmoves.movesTo _ _ hv.start
    obtain ⟨hstop, hstopSmall⟩ := hmoves.movesTo _ _ hv.stop
    have horder : moved v.start ≤ moved v.stop :=
      (hmoves.mono.le_iff_le ⟨_, hv.start⟩ ⟨_, hv.stop⟩).mpr hhead.2.1
    have hbytes : new.bytes? places = some (v.map moved).stored := by
      simp only [LocalVariable.bytes?, hstart, hstop, Option.bind_eq_bind, Option.bind_some,
        if_pos horder, hv.nameIndex_eq, hv.descriptorIndex_eq, hv.slot_eq]
      rfl
    rw [List.filterMap_cons_some hbytes]
    exact .cons ⟨⟨hsmall, horder, (Nat.sub_le _ _).trans_lt hstopSmall⟩, rfl⟩ (ih hrest)

end Relocates

/-! ## Attributes of tables -/

/-- The attribute of a table, if there is one: it has the name of the table. -/
def Named (pool : ConstantPool) (name : String) (data? : Option (List UInt8))
    (attributes : List Attribute) : Prop :=
  match data? with
  | none => attributes = []
  | some data => ∃ index, pool.getText index = .ok name ∧ attributes = [⟨index, data⟩]

namespace MethodBody

/-- A table without entries is not stored. -/
def countedData? (entries : List (List UInt8)) : Option (List UInt8) :=
  if entries.isEmpty then none else some (counted entries)

theorem yields_tableAttribute (name : String) (entries : List (List UInt8)) :
    (tableAttribute name entries).Yields fun pool attributes =>
      Named pool name (countedData? entries) attributes := by
  unfold tableAttribute countedData?
  by_cases hempty : entries.isEmpty
  · rw [if_pos hempty, if_pos hempty]
    exact .pure fun _ => rfl
  · rw [if_neg hempty, if_neg hempty]
    exact ((ConstantPool.yields_internText name).map _).mono fun pool attributes h => h

/-- What is stored for the stack map. -/
def FrameData (places : Places) (frames : Option (List (Frame Label)))
    (data? : Option (List UInt8)) : Prop :=
  match frames with
  | none => data? = none
  | some frames => ∃ data, FrameTable.write frames places = .ok data ∧ data? = some data

theorem yields_frameAttribute (places : Places) (frames : Option (List (Frame Label))) :
    (frameAttribute places frames).Yields fun pool attributes => ∃ data?,
      FrameData places frames data? ∧ Named pool frameTableName data? attributes := by
  cases frames with
  | none => exact .pure fun _ => ⟨none, rfl, rfl⟩
  | some frames =>
    unfold frameAttribute
    dsimp only
    by_cases hplaced : frames.all fun frame => places.contains frame.place
    · rw [if_pos hplaced]
      refine ((ConstantPool.yields_internText _).bind fun index =>
        ((yields_ofExcept _).map fun data => [Attribute.mk index data])).mono fun pool attributes h => ?_
      obtain ⟨index, hindex, data, hdata, rfl⟩ := h
      exact ⟨some data, ⟨data, hdata, rfl⟩, index, hindex, rfl⟩
    · rw [if_neg hplaced]
      exact .throw _

/-- What a body is stored as, with its nodes laid out. -/
structure Encoded (body : MethodBody) (pool : ConstantPool) (result : Assembled)
    (code : CodeAttribute) : Prop where
  layout : encodeWith body.widening body.nodes = .ok result
  code_eq : code.code = result.code
  exceptions_eq : code.exceptions = body.tryBlocks.filterMap (·.stored? result.places)
  attributes : ∃ lines locals localTypes frames data?,
    code.attributes = lines ++ locals ++ localTypes ++ frames ∧
    Named pool lineTableName
      (countedData? (body.lines.filterMap (·.bytes? result.places result.code.length))) lines ∧
    Named pool localTableName
      (countedData? (body.locals.filterMap (·.bytes? result.places))) locals ∧
    Named pool localTypeTableName
      (countedData? (body.localTypes.filterMap (·.bytes? result.places))) localTypes ∧
    FrameData result.places body.frames data? ∧ Named pool frameTableName data? frames

theorem yields_encode (body : MethodBody) :
    body.encode.Yields fun pool code => ∃ result, body.Encoded pool result code := by
  refine ((yields_ofExcept (encodeWith body.widening body.nodes)).bind fun result =>
    (yields_tableAttribute _ _).bind fun lines => (yields_tableAttribute _ _).bind fun locals =>
    (yields_tableAttribute _ _).bind fun localTypes => (yields_frameAttribute _ _).bind fun frames =>
      .pure (P := fun _ code => code = CodeAttribute.mk body.maxStack body.maxLocals result.code
        (body.tryBlocks.filterMap (·.stored? result.places))
        (lines ++ locals ++ localTypes ++ frames)) fun _ => rfl).mono fun pool code h => ?_
  obtain ⟨result, hlayout, lines, hlines, locals, hlocals, localTypes, hlocalTypes, frames,
    ⟨data?, hdata, hframes⟩, rfl⟩ := h
  exact ⟨result, hlayout, rfl, rfl, lines, locals, localTypes, frames, data?, rfl, hlines, hlocals,
    hlocalTypes, hdata, hframes⟩

end MethodBody

/-! ## Reading the tables back -/

namespace CodeTable

variable {pool : ConstantPool} {codeLength : Nat}

/-- The table that is stored under a name. -/
inductive Holds (codeLength : Nat) : String → List UInt8 → CodeTable Nat → Prop
  | lines {data : List UInt8} {entries : List (LineNumber Nat)} :
      (readCounted readLine).runOn data = .ok entries →
      Holds codeLength MethodBody.lineTableName data (.lines entries)
  | locals {data : List UInt8} {entries : List (LocalVariable Nat)} :
      (readCounted readVariable).runOn data = .ok entries →
      Holds codeLength MethodBody.localTableName data (.locals entries)
  | localTypes {data : List UInt8} {entries : List (LocalVariable Nat)} :
      (readCounted readVariable).runOn data = .ok entries →
      Holds codeLength MethodBody.localTypeTableName data (.localTypes entries)
  | frames {data : List UInt8} {entries : List (Frame Nat)} :
      (FrameTable.readTable codeLength).runOn data = .ok entries →
      Holds codeLength MethodBody.frameTableName data (.frames entries)

theorem ofAttribute?_eq_some {a : Attribute} {table : CodeTable Nat} :
    ofAttribute? pool codeLength a = .ok (some table) ↔
      ∃ name, pool.getText a.nameIndex = .ok name ∧ Holds codeLength name a.data table := by
  rw [ofAttribute?, Success.except_bind]
  refine exists_congr fun name => and_congr_right fun _ => ?_
  have hread {α : Type} {x : Except Error (List α)} {make : List α → CodeTable Nat} :
      (do return some (make (← x)) : Except Error (Option (CodeTable Nat))) = .ok (some table) ↔
        ∃ entries, x = .ok entries ∧ table = make entries := by
    simp only [Success.except_bind, Success.except_pure, Option.some.injEq]
  constructor
  · intro h
    split at h
    · obtain ⟨entries, hentries, rfl⟩ := hread.mp h
      subst name
      exact .lines hentries
    split at h
    · obtain ⟨entries, hentries, rfl⟩ := hread.mp h
      subst name
      exact .locals hentries
    split at h
    · obtain ⟨entries, hentries, rfl⟩ := hread.mp h
      subst name
      exact .localTypes hentries
    split at h
    · obtain ⟨entries, hentries, rfl⟩ := hread.mp h
      subst name
      exact .frames hentries
    · cases h
  · intro h
    cases h with
    | lines hentries =>
      rw [if_pos rfl]
      exact hread.mpr ⟨_, hentries, rfl⟩
    | locals hentries =>
      rw [if_neg (by decide), if_pos rfl]
      exact hread.mpr ⟨_, hentries, rfl⟩
    | localTypes hentries =>
      rw [if_neg (by decide), if_neg (by decide), if_pos rfl]
      exact hread.mpr ⟨_, hentries, rfl⟩
    | frames hentries =>
      rw [if_neg (by decide), if_neg (by decide), if_neg (by decide), if_pos rfl]
      exact hread.mpr ⟨_, hentries, rfl⟩

theorem fits_of_readCounted {data : List UInt8} {entries : List (LocalVariable Nat)}
    (h : (readCounted readVariable).runOn data = .ok entries) : ∀ v ∈ entries, v.Fits := by
  obtain ⟨c', hrun⟩ := runOn_eq_ok.mp h
  obtain ⟨_, ⟨-, body, hseq, -⟩, -, -⟩ := (parses_readVariable.counted _ _ _).mp hrun
  exact (Format.sequence_iff_flatMap.mp hseq).1

/-- The attribute of a table holds the table, and without the attribute there is none. -/
theorem forall₂_named {name : String} {data? : Option (List UInt8)} {attributes : List Attribute}
    {table? : Option (CodeTable Nat)} (hnamed : Named pool name data? attributes)
    (h : Option.Rel (Holds codeLength name) data? table?) :
    List.Forall₂ (fun a table => ofAttribute? pool codeLength a = .ok table) attributes
      (table?.map some).toList := by
  cases h with
  | none =>
    obtain rfl : attributes = [] := hnamed
    exact .nil
  | some hholds =>
    obtain ⟨index, hindex, rfl⟩ := hnamed
    exact .cons (ofAttribute?_eq_some.mpr ⟨name, hindex, hholds⟩) .nil

end CodeTable

/-- Tables are put together from those that there are. -/
theorem CodeTables.merge_optional {lines? locals? types? : Option (CodeTable Nat)}
    {lines : List (LineNumber Nat)} {locals types : List (LocalVariable Nat)}
    (exceptions : List (TryBlock Nat))
    (hlines : lines? = some (.lines lines) ∨ lines? = none ∧ lines = [])
    (hlocals : locals? = some (.locals locals) ∨ locals? = none ∧ locals = [])
    (htypes : types? = some (.localTypes types) ∨ types? = none ∧ types = [])
    (frames : Option (List (Frame Nat))) :
    merge exceptions (((lines?.map some).toList ++ (locals?.map some).toList ++
        (types?.map some).toList ++ ((frames.map CodeTable.frames).map some).toList).filterMap id) =
      { exceptions, lines, locals, localTypes := types, frames } := by
  rcases hlines with rfl | ⟨rfl, rfl⟩ <;> rcases hlocals with rfl | ⟨rfl, rfl⟩ <;>
    rcases htypes with rfl | ⟨rfl, rfl⟩ <;> cases frames <;> simp [merge]

theorem CodeTables.has_of_mem_optional {lines? locals? types? : Option (CodeTable Nat)}
    {t : CodeTables Nat} (hlines : lines? = some (.lines t.lines) ∨ lines? = none ∧ t.lines = [])
    (hlocals : locals? = some (.locals t.locals) ∨ locals? = none ∧ t.locals = [])
    (htypes : types? = some (.localTypes t.localTypes) ∨ types? = none ∧ t.localTypes = [])
    {table : CodeTable Nat} (htable : table ∈ ((lines?.map some).toList ++
      (locals?.map some).toList ++ (types?.map some).toList ++
        ((t.frames.map CodeTable.frames).map some).toList).filterMap id) : t.Has table := by
  have hmem (x? : Option (CodeTable Nat)) : some table ∈ (x?.map some).toList ↔ x? = some table := by
    cases x? <;> simp [eq_comm]
  simp only [List.mem_filterMap, id_eq, exists_eq_right, List.mem_append, hmem] at htable
  rcases htable with ((h | h) | h) | h
  · obtain rfl : table = .lines t.lines := by simpa [h] using hlines
    exact .lines
  · obtain rfl : table = .locals t.locals := by simpa [h] using hlocals
    exact .locals
  · obtain rfl : table = .localTypes t.localTypes := by simpa [h] using htypes
    exact .localTypes
  · obtain ⟨entries, hentries, rfl⟩ := Option.map_eq_some_iff.mp h
    exact .frames hentries

/-- What is known about tables that were read. -/
structure CodeTables.WasRead (codeLength : Nat) (t : CodeTables Nat) : Prop where
  locals : ∀ v ∈ t.locals, v.Fits
  localTypes : ∀ v ∈ t.localTypes, v.Fits
  frames : ∀ frames ∈ t.frames, ∃ data, (FrameTable.readTable codeLength).runOn data = .ok frames

namespace MethodBody

theorem wasRead_of_storedTables {pool : ConstantPool} {code : CodeAttribute}
    {stored : CodeTables Nat} (h : storedTables pool code = .ok stored) :
    stored.WasRead code.code.length := by
  obtain ⟨tables, htables, h⟩ := Success.except_bind.mp h
  rw [Success.except_mapM] at htables
  cases h
  have hholds : ∀ table ∈ tables.filterMap id, ∃ name data,
      CodeTable.Holds code.code.length name data table := by
    intro table htable
    obtain ⟨table?, hmem, hsome⟩ := List.mem_filterMap.mp htable
    obtain rfl : table? = some table := hsome
    obtain ⟨a, -, ha⟩ := exists_of_mem_right htables hmem
    obtain ⟨name, -, hholds⟩ := CodeTable.ofAttribute?_eq_some.mp ha
    exact ⟨name, a.data, hholds⟩
  constructor
  · intro v hv
    obtain ⟨table, htable, hv⟩ := List.mem_flatMap.mp hv
    obtain ⟨name, data, hholds⟩ := hholds table htable
    cases hholds with
    | locals hentries => exact CodeTable.fits_of_readCounted hentries v hv
    | _ => cases hv
  · intro v hv
    obtain ⟨table, htable, hv⟩ := List.mem_flatMap.mp hv
    obtain ⟨name, data, hholds⟩ := hholds table htable
    cases hholds with
    | localTypes hentries => exact CodeTable.fits_of_readCounted hentries v hv
    | _ => cases hv
  · -- of several stack maps only the last counts, and that one was read like the others
    intro frames hframes
    obtain ⟨table, htable, hsome⟩ := List.mem_filterMap.mp (List.mem_of_getLast? hframes)
    obtain ⟨name, data, hholds⟩ := hholds table htable
    cases hholds with
    | frames hentries =>
      cases hsome
      exact ⟨data, hentries⟩
    | _ => cases hsome

/-- A table of counted entries is read as far as its count reaches, and is left out only if it has
no entries. -/
theorem rel_countedData? {α : Type} {r : Reader α} {F : α → List UInt8 → Prop}
    (hr : r.Parses fun _ => F) {entries : List α} {stored : List (List UInt8)}
    (h : List.Forall₂ F entries stored) {codeLength : Nat} {name : String}
    {make : List α → CodeTable Nat}
    (hmake : ∀ data entries, (CodeTable.readCounted r).runOn data = .ok entries →
      CodeTable.Holds codeLength name data (make entries)) :
    ∃ table?, Option.Rel (CodeTable.Holds codeLength name) (countedData? stored) table? ∧
      (table? = some (make (countedPart entries)) ∨ table? = none ∧ countedPart entries = []) := by
  unfold countedData?
  by_cases hempty : stored.isEmpty
  · obtain rfl := List.isEmpty_iff.mp hempty
    obtain rfl := List.forall₂_nil_right_iff.mp h
    exact ⟨none, .none, .inr ⟨rfl, rfl⟩⟩
  · rw [if_neg hempty]
    exact ⟨_, .some (hmake _ _ (readCounted_counted hr h)), .inl rfl⟩

section Relocates

variable {m : LabelMap} {moved : Nat → Nat} {places : Places} {oldLength newLength : Nat}

/-- A stack map that was read can be stored, and is read with its places moved. -/
theorem exists_write_frames (hmoves : Relocates m moved places oldLength newLength)
    {frames : List (Frame Nat)} {new : List (Frame Label)} {data : List UInt8}
    (hread : (FrameTable.readTable oldLength).runOn data = .ok frames)
    (hlabels : List.Forall₂ (Frame.Labels m) frames new) :
    ∃ data', FrameTable.write new places = .ok data' ∧
      (FrameTable.readTable newLength).runOn data' = .ok (frames.map (·.map moved)) := by
  refine FrameTable.exists_write hread hlabels hmoves.movesTo hmoves.mono fun frame hframe => ?_
  obtain ⟨newFrame, -, hnew⟩ := exists_of_mem_left hlabels hframe
  exact (hmoves.inside _ _ hnew.place).mpr (FrameTable.place_lt_of_runOn hread frame hframe)

theorem rel_frameData (hmoves : Relocates m moved places oldLength newLength)
    {frames : Option (List (Frame Nat))} {new : Option (List (Frame Label))}
    {data? : Option (List UInt8)}
    (hread : ∀ entries ∈ frames, ∃ data, (FrameTable.readTable oldLength).runOn data = .ok entries)
    (hlabels : Option.Rel (List.Forall₂ (Frame.Labels m)) frames new)
    (hdata : FrameData places new data?) :
    Option.Rel (CodeTable.Holds newLength frameTableName) data?
      (frames.map fun entries => .frames (entries.map (·.map moved))) := by
  cases hlabels with
  | none =>
    obtain rfl : data? = none := hdata
    exact .none
  | @some entries new hentries =>
    obtain ⟨data, hwrite, rfl⟩ := hdata
    obtain ⟨old, hold⟩ := hread entries rfl
    obtain ⟨data', hwrite', hread'⟩ := exists_write_frames hmoves hold hentries
    rw [hwrite] at hwrite'
    cases hwrite'
    exact .some (.frames hread')

end Relocates

section Encoded

variable {body : MethodBody} {pool later : ConstantPool} {code new : CodeAttribute}
  {stored : CodeTables Nat} {result : Assembled} {m : LabelMap} {moved : Nat → Nat}

/-- The attributes of stored code hold the tables from before with their places moved, as far as
the counts of entries reach. -/
theorem Encoded.exists_tables (h : body.Encoded later result new)
    (hstored : storedTables pool code = .ok stored) (hlabels : stored.Labels m body.tables)
    (hmoves : Relocates m moved result.places code.code.length result.code.length) :
    ∃ tables, new.attributes.mapM (CodeTable.ofAttribute? later new.code.length) = .ok tables ∧
      .merge (new.exceptions.map tryBlock) (tables.filterMap id) =
        (stored.moved moved code.code.length).counted ∧
      ∀ table ∈ tables.filterMap id, (stored.moved moved code.code.length).counted.Has table := by
  have hread := wasRead_of_storedTables hstored
  obtain ⟨lines, locals, localTypes, frames, data?, hattributes, hlines, hlocals, hlocalTypes,
    hdata, hframes⟩ := h.attributes
  obtain ⟨lines?, hlinesRel, hlines?⟩ := rel_countedData? parses_readLine
    (forall₂_line_bytes? hmoves hlabels.lines) fun _ _ =>
      (.lines : _ → CodeTable.Holds result.code.length _ _ _)
  obtain ⟨locals?, hlocalsRel, hlocals?⟩ := rel_countedData? parses_readVariable
    (forall₂_variable_bytes? hmoves hread.locals hlabels.locals) fun _ _ =>
      (.locals : _ → CodeTable.Holds result.code.length _ _ _)
  obtain ⟨types?, htypesRel, htypes?⟩ := rel_countedData? parses_readVariable
    (forall₂_variable_bytes? hmoves hread.localTypes hlabels.localTypes) fun _ _ =>
      (.localTypes : _ → CodeTable.Holds result.code.length _ _ _)
  have hframesRel := rel_frameData hmoves hread.frames hlabels.frames hdata
  -- every attribute in turn holds its table, in the order in which they are stored
  have hall := List.rel_append (List.rel_append (List.rel_append
    (CodeTable.forall₂_named hlines hlinesRel) (CodeTable.forall₂_named hlocals hlocalsRel))
    (CodeTable.forall₂_named hlocalTypes htypesRel)) (CodeTable.forall₂_named hframes hframesRel)
  dsimp only at hall
  rw [← hattributes, ← h.code_eq] at hall
  have hframes? : (stored.frames.map fun entries => CodeTable.frames (entries.map (·.map moved))) =
      (stored.moved moved code.code.length).counted.frames.map CodeTable.frames :=
    (Option.map_map ..).symm
  rw [hframes?] at hall
  have hexceptions : new.exceptions.map tryBlock =
      (stored.exceptions.filter fun b => b.start < b.stop).map (·.map moved) := by
    rw [h.exceptions_eq]
    exact filterMap_stored? hmoves hlabels.exceptions
  refine ⟨_, Success.except_mapM.mpr hall, ?_, fun table =>
    CodeTables.has_of_mem_optional hlines? hlocals? htypes?⟩
  rw [hexceptions]
  exact CodeTables.merge_optional _ hlines? hlocals? htypes? _

theorem Encoded.storedTables_eq (h : body.Encoded later result new)
    (hstored : storedTables pool code = .ok stored) (hlabels : stored.Labels m body.tables)
    (hmoves : Relocates m moved result.places code.code.length result.code.length) :
    storedTables later new = .ok (stored.moved moved code.code.length).counted := by
  obtain ⟨tables, htables, hmerge, -⟩ := h.exists_tables hstored hlabels hmoves
  rw [storedTables, htables]
  exact congrArg Except.ok hmerge

end Encoded

end MethodBody

end ClassPatch
