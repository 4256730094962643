import Mathlib
import ClassPatch.MethodBody.Decode
import ClassPatch.Proofs.Code.Layout
import ClassPatch.Proofs.Code.Targets
import ClassPatch.Proofs.ConstantPool.Intern
import ClassPatch.Proofs.MethodBody.Tables

/-!
# Bodies of stored code

The nodes of a decoded body are the instructions of the code, each after the label of its
offset if it has one. The places of tables have labels too, and every label stands for the
offset of an instruction or for the end of the code. Code can be decoded where all its places
are of that kind, and constants that are added later do not matter.
-/

namespace ClassPatch

open Bytes Code Labelling

namespace MethodBody

/-- Labels stand for the places of instructions and tables. -/
structure Labelled.Labels (m : LabelMap) (instructions : List (Located Nat))
    (tryBlocks : List (TryBlock Nat)) (tables : List (CodeTable Nat)) (found : Labelled) : Prop where
  instructions : List.Forall₂ (fun l new => l.Labels m new) instructions found.instructions
  tryBlocks : List.Forall₂ (TryBlock.Labels m) tryBlocks found.tryBlocks
  tables : List.Forall₂ (CodeTable.Labels m) tables found.tables

theorem gives_label (instructions : List (Located Nat)) (tryBlocks : List (TryBlock Nat))
    (tables : List (CodeTable Nat)) :
    (label instructions tryBlocks tables).Gives fun m found =>
      found.Labels m instructions tryBlocks tables := by
  refine ((gives_mapM gives_labelled instructions).bind fun new =>
    (gives_mapM gives_labelled_tryBlock tryBlocks).bind fun blocks =>
    (gives_mapM gives_labelled_table tables).bind fun tables =>
      .pure (P := fun _ found => found = Labelled.mk new blocks tables) fun _ => rfl).mono
        fun m found h => ?_
  obtain ⟨new, hnew, blocks, hblocks, tables, htables, rfl⟩ := h
  exact ⟨hnew, hblocks, htables⟩

/-- The place is the offset of an instruction or the end of the code. -/
def PlaceIn {τ : Type} (read : List (Located τ)) (codeLength place : Nat) : Prop :=
  place = codeLength ∨ ∃ l ∈ read, l.offset = place

/-- Without a stray place, a label stands for an instruction or for the end. -/
theorem strayPlace?_eq_none {instructions : List (Located Label)} {codeLength : Nat}
    {labels : LabelMap} (h : strayPlace? instructions codeLength labels = none) {place : Nat}
    {label : Label} (hlabel : labels.get? place = some label) :
    PlaceIn instructions codeLength place := by
  have hnone := List.find?_eq_none.mp (Option.map_eq_none_iff.mp h)
  have hmem : (place, label) ∈ labels.toList := Std.TreeMap.mem_toList_iff_getElem?_eq_some.mpr hlabel
  have hplace := hnone _ hmem
  dsimp only at hplace
  rw [Std.HashSet.contains_ofList] at hplace
  by_cases hend : place = codeLength
  · exact .inl hend
  · right
    simpa [hend] using hplace

theorem strayPlace?_eq_none_of_forall {instructions : List (Located Label)} {codeLength : Nat}
    {labels : LabelMap} (h : ∀ place label, labels.get? place = some label →
      PlaceIn instructions codeLength place) :
    strayPlace? instructions codeLength labels = none := by
  refine Option.map_eq_none_iff.mpr (List.find?_eq_none.mpr fun p hp => ?_)
  obtain ⟨place, label⟩ := p
  have hplace := h place label (Std.TreeMap.mem_toList_iff_getElem?_eq_some.mp hp)
  dsimp only
  rw [Std.HashSet.contains_ofList]
  rcases hplace with rfl | ⟨l, hl, rfl⟩
  · simp
  · simp only [Bool.and_eq_true, bne_iff_ne, Bool.not_eq_true', not_and, Bool.not_eq_false]
    intro
    exact List.contains_iff_mem.mpr (List.mem_map_of_mem hl)

/-- What is decoded: the places of all targets are those of instructions, and their labels
stand before them among the nodes. -/
structure Decoded (code : CodeAttribute) (body : MethodBody) (read : List (Located Nat))
    (found : List (Located Label)) : Prop where
  disassemble_eq : disassemble code.code = .ok read
  labels : List.Forall₂ (fun l new => l.Labels body.labels new) read found
  distinct : body.labels.Distinct
  place_mem : ∀ place label, body.labels.get? place = some label →
    place = code.code.length ∨ ∃ l ∈ read, l.offset = place
  nodes_eq : body.nodes = labelledNodes body.labels found ++
    labelNodes body.labels code.code.length
  maxStack_eq : body.maxStack = code.maxStack
  maxLocals_eq : body.maxLocals = code.maxLocals

/-- Every target of a branch has a label. -/
theorem Decoded.exists_label {code : CodeAttribute} {body : MethodBody} {read : List (Located Nat)}
    {found : List (Located Label)} (h : Decoded code body read found) {l : Located Nat}
    (hl : l ∈ read) {target : Nat} (htarget : target ∈ l.instruction.targets) :
    ∃ label, body.labels.get? target = some label := by
  obtain ⟨new, -, -, hnew⟩ := exists_of_mem_left h.labels hl
  obtain ⟨label, -, hlabel⟩ := exists_of_mem_left (Instruction.mapTargetsM_targets hnew) htarget
  exact ⟨label, hlabel⟩

/-- The targets of branches are the offsets of instructions. -/
theorem Decoded.target_mem {code : CodeAttribute} {body : MethodBody} {read : List (Located Nat)}
    {found : List (Located Label)} (h : Decoded code body read found) :
    ∀ l ∈ read, ∀ target ∈ l.instruction.targets, ∃ l' ∈ read, l'.offset = target := by
  intro l hl target htarget
  obtain ⟨label, hlabel⟩ := h.exists_label hl htarget
  have hlt := target_lt_of_sequence (disassemble_eq_ok.mp h.disassemble_eq) l hl target htarget
  rcases h.place_mem target label hlabel with rfl | hmem
  · exact absurd hlt (Nat.lt_irrefl _)
  · exact hmem

/-- The instructions among the nodes are those of the code, with labels as targets. -/
theorem Decoded.exists_read {code : CodeAttribute} {body : MethodBody} {read : List (Located Nat)}
    {found : List (Located Label)} (h : Decoded code body read found) {i : Instruction Label}
    (hi : .instruction i ∈ body.nodes) :
    ∃ l ∈ read, l.instruction.mapTargetsM body.labels.get? = some i := by
  have hlabel {offset : Nat} : .instruction i ∉ labelNodes body.labels offset := fun hmem =>
    Bool.false_ne_true (List.all_eq_true.mp (all_isLabel_labelNodes body.labels offset) _ hmem)
  rw [h.nodes_eq] at hi
  obtain ⟨new, hnew, hmem⟩ := List.mem_flatMap.mp ((List.mem_append.mp hi).resolve_right hlabel)
  cases List.mem_singleton.mp ((List.mem_append.mp hmem).resolve_left hlabel)
  obtain ⟨l, hl, -, hlabels⟩ := exists_of_mem_right h.labels hnew
  exact ⟨l, hl, hlabels⟩

theorem Decoded.exists_node {code : CodeAttribute} {body : MethodBody} {read : List (Located Nat)}
    {found : List (Located Label)} (h : Decoded code body read found) {l : Located Nat}
    (hl : l ∈ read) : ∃ i, .instruction i ∈ body.nodes ∧
      l.instruction.mapTargetsM body.labels.get? = some i := by
  obtain ⟨new, hnew, -, hlabels⟩ := exists_of_mem_left h.labels hl
  refine ⟨new.instruction, ?_, hlabels⟩
  rw [h.nodes_eq]
  exact List.mem_append_left _
    (List.mem_flatMap.mpr ⟨new, hnew, List.mem_append_right _ (List.mem_singleton_self _)⟩)

theorem decode_eq_ok {pool : ConstantPool} {code : CodeAttribute} {body : MethodBody}
    (h : decode pool code = .ok body) : ∃ read found stored, Decoded code body read found ∧
      storedTables pool code = .ok stored ∧ stored.Labels body.labels body.tables := by
  obtain ⟨read, hread, h⟩ := Success.except_bind.mp h
  obtain ⟨tables, htables, h⟩ := Success.except_bind.mp h
  obtain ⟨hgrows, hgives⟩ := gives_label read (code.exceptions.map tryBlock)
    (tables.filterMap id) .empty
  have hlabels := hgives _ (.refl _)
  cases hfound : label read (code.exceptions.map tryBlock) (tables.filterMap id) .empty with
  | mk found labels =>
  rw [hfound] at hgrows hlabels
  simp only [hfound] at h
  cases hstray : strayPlace? found.instructions code.code.length labels with
  | some place =>
    rw [hstray] at h
    cases h
  | none =>
    rw [hstray] at h
    cases h
    refine ⟨read, found.instructions, .merge (code.exceptions.map tryBlock) (tables.filterMap id),
      ⟨hread, hlabels.instructions, hgrows.distinct LabelMap.distinct_empty, ?_, rfl, rfl, rfl⟩, ?_, ?_⟩
    · intro place label hlabel
      rcases strayPlace?_eq_none hstray hlabel with hend | ⟨new, hnew, hoffset⟩
      · exact .inl hend
      · obtain ⟨l, hl, hsame, -⟩ := exists_of_mem_right hlabels.instructions hnew
        exact .inr ⟨l, hl, hsame.symm.trans hoffset⟩
    · rw [storedTables, htables]
      rfl
    · refine ⟨hlabels.tryBlocks, List.rel_flatMap hlabels.tables fun table new h => ?lines,
        List.rel_flatMap hlabels.tables fun table new h => ?locals,
        List.rel_flatMap hlabels.tables fun table new h => ?localTypes,
        rel_getLast? (List.rel_filterMap (fun table new h => ?frames) hlabels.tables)⟩
      case lines => cases h with
        | lines hentries => exact hentries
        | _ => exact .nil
      case locals => cases h with
        | locals hentries => exact hentries
        | _ => exact .nil
      case localTypes => cases h with
        | localTypes hentries => exact hentries
        | _ => exact .nil
      case frames => cases h with
        | frames hentries => exact .some hentries
        | _ => exact .none

/-! ## When code is decoded -/

/-- Labels are handed out for the targets of branches and the places in tables only. -/
theorem only_label (instructions : List (Located Nat)) (tryBlocks : List (TryBlock Nat))
    (tables : List (CodeTable Nat)) :
    (label instructions tryBlocks tables).Only (instructions.flatMap (·.instruction.targets) ++
      (tryBlocks.flatMap (·.places) ++ tables.flatMap (·.places))) :=
  (only_mapM only_labelled _).bind fun _ => (only_mapM only_labelled_tryBlock _).bind fun _ =>
    (only_mapM only_labelled_table _).map _

theorem place_mem_of_decode {pool : ConstantPool} {code : CodeAttribute} {body : MethodBody}
    {read : List (Located Nat)} {tables : List (Option (CodeTable Nat))}
    (h : decode pool code = .ok body) (hread : disassemble code.code = .ok read)
    (htables : code.attributes.mapM (CodeTable.ofAttribute? pool code.code.length) = .ok tables)
    {place : Nat} (hlabel : (body.labels.get? place).isSome) :
    place ∈ read.flatMap (·.instruction.targets) ++
      ((code.exceptions.map tryBlock).flatMap (·.places) ++
        (tables.filterMap id).flatMap (·.places)) := by
  obtain ⟨read', hread', h⟩ := Success.except_bind.mp h
  obtain rfl : read = read' := Except.ok.inj (hread.symm.trans hread')
  obtain ⟨tables', htables', h⟩ := Success.except_bind.mp h
  obtain rfl : tables = tables' := Except.ok.inj (htables.symm.trans htables')
  have honly := only_label read (code.exceptions.map tryBlock) (tables.filterMap id) .empty
  cases hfound : label read (code.exceptions.map tryBlock) (tables.filterMap id) .empty with
  | mk found labels =>
  rw [hfound] at honly
  simp only [hfound] at h
  cases hstray : strayPlace? found.instructions code.code.length labels with
  | some place =>
    rw [hstray] at h
    cases h
  | none =>
    rw [hstray] at h
    cases h
    refine (honly place hlabel).resolve_left fun hempty => ?_
    simp [LabelMap.empty, LabelMap.get?] at hempty

/-- Code is decoded if all places in it are those of instructions or its end. -/
theorem exists_decode {pool : ConstantPool} {code : CodeAttribute} {read : List (Located Nat)}
    {tables : List (Option (CodeTable Nat))} (hread : disassemble code.code = .ok read)
    (htables : code.attributes.mapM (CodeTable.ofAttribute? pool code.code.length) = .ok tables)
    (htargets : ∀ l ∈ read, ∀ place ∈ l.instruction.targets, PlaceIn read code.code.length place)
    (hblocks : ∀ b ∈ code.exceptions.map tryBlock, ∀ place ∈ b.places,
      PlaceIn read code.code.length place)
    (hplaces : ∀ table ∈ tables.filterMap id, ∀ place ∈ table.places,
      PlaceIn read code.code.length place) :
    ∃ body, decode pool code = .ok body := by
  have honly := only_label read (code.exceptions.map tryBlock) (tables.filterMap id) .empty
  obtain ⟨-, hgives⟩ := gives_label read (code.exceptions.map tryBlock) (tables.filterMap id) .empty
  have hlabels := hgives _ (.refl _)
  cases hfound : label read (code.exceptions.map tryBlock) (tables.filterMap id) .empty with
  | mk found labels =>
  rw [hfound] at honly hlabels
  have hnone : strayPlace? found.instructions code.code.length labels = none := by
    refine strayPlace?_eq_none_of_forall fun place label hlabel => ?_
    rcases honly place (Option.isSome_of_eq_some hlabel) with hempty | hmem
    · simp [LabelMap.empty, LabelMap.get?] at hempty
    · have hplace : PlaceIn read code.code.length place := by
        simp only [List.mem_append, List.mem_flatMap] at hmem
        rcases hmem with ⟨l, hl, hplace⟩ | ⟨b, hb, hplace⟩ | ⟨table, htable, hplace⟩
        · exact htargets l hl place hplace
        · exact hblocks b hb place hplace
        · exact hplaces table htable place hplace
      refine hplace.imp id fun h => ?_
      obtain ⟨l, hl, rfl⟩ := h
      obtain ⟨new, hnew, hsame, -⟩ := exists_of_mem_left hlabels.instructions hl
      exact ⟨new, hnew, hsame⟩
  refine ⟨?body, Success.except_bind.mpr ⟨read, hread,
    Success.except_bind.mpr ⟨tables, htables, ?found⟩⟩⟩
  case found =>
    simp only [hfound, hnone]
    rfl

theorem ofAttribute?_grows {pool later : ConstantPool} (hgrows : pool.Grows later)
    {codeLength : Nat} {a : Attribute} {table? : Option (CodeTable Nat)}
    (h : CodeTable.ofAttribute? pool codeLength a = .ok table?) :
    CodeTable.ofAttribute? later codeLength a = .ok table? := by
  obtain ⟨name, hname, htable⟩ := Success.except_bind.mp h
  exact Success.except_bind.mpr ⟨name, hgrows.getText hname, htable⟩

/-- Code that was decoded is decoded alike where constants have been added. -/
theorem decode_grows {pool later : ConstantPool} {code : CodeAttribute} {body : MethodBody}
    (hgrows : pool.Grows later) (h : decode pool code = .ok body) : decode later code = .ok body := by
  obtain ⟨read, hread, h⟩ := Success.except_bind.mp h
  obtain ⟨tables, htables, h⟩ := Success.except_bind.mp h
  refine Success.except_bind.mpr ⟨read, hread, Success.except_bind.mpr ⟨tables, ?_, h⟩⟩
  exact Success.except_mapM.mpr
    ((Success.except_mapM.mp htables).imp fun _ _ => ofAttribute?_grows hgrows)

end MethodBody

end ClassPatch
