import Mathlib
import ClassPatch.Proofs.Code.Faults
import ClassPatch.Proofs.Code.Scan
import ClassPatch.Proofs.MethodBody.Decode
import ClassPatch.Proofs.MethodBody.Encode

/-!
# Edited bodies

Replacing instructions of a body by others moves the places in its code: an offset goes to where
the instructions in its place start, and the end of the code to the new end. All tables of the
stored code follow this one map.
-/

namespace ClassPatch

open Bytes Code

/-! ## Moving offsets -/

/-- Pairs that ascend on both sides are the graph of a map that keeps the order. -/
theorem exists_strictMonoOn {pairs : List (Nat × Nat)}
    (h : pairs.Pairwise fun p q => p.1 < q.1 ∧ p.2 < q.2) :
    ∃ moved : Nat → Nat, (∀ p ∈ pairs, moved p.1 = p.2) ∧
      StrictMonoOn moved {a | a ∈ pairs.map (·.1)} := by
  induction h with
  | nil => exact ⟨id, by simp, by simp [StrictMonoOn]⟩
  | @cons p pairs hfirst _ ih =>
    obtain ⟨moved, hmoved, hmono⟩ := ih
    have hother : ∀ q ∈ pairs, Function.update moved p.1 p.2 q.1 = q.2 := by
      intro q hq
      rw [Function.update_of_ne (Nat.ne_of_gt (hfirst q hq).1)]
      exact hmoved q hq
    refine ⟨Function.update moved p.1 p.2,
      List.forall_mem_cons.mpr ⟨Function.update_self .., hother⟩, ?_⟩
    intro a ha b hb hlt
    rcases List.mem_cons.mp ha with rfl | ha <;> rcases List.mem_cons.mp hb with rfl | hb
    · exact absurd hlt (Nat.lt_irrefl _)
    · obtain ⟨q, hq, rfl⟩ := List.mem_map.mp hb
      rw [Function.update_self, hother q hq]
      exact (hfirst q hq).2
    · obtain ⟨q, hq, rfl⟩ := List.mem_map.mp ha
      exact absurd hlt (Nat.lt_asymm (hfirst q hq).1)
    · obtain ⟨q, hq, rfl⟩ := List.mem_map.mp ha
      obtain ⟨r, hr, rfl⟩ := List.mem_map.mp hb
      have hlt' := hmono ha hb hlt
      rwa [hmoved q hq, hmoved r hr, ← hother q hq, ← hother r hr] at hlt'

theorem pairwise_zip {α β : Type} {R : α → α → Prop} {S : β → β → Prop} {as : List α}
    {bs : List β} (h : as.Pairwise R) (h' : bs.Pairwise S) :
    (as.zip bs).Pairwise fun p q => R p.1 q.1 ∧ S p.2 q.2 := by
  induction h generalizing bs with
  | nil => exact .nil
  | cons hfirst _ ih =>
    cases h' with
    | nil => exact .nil
    | cons hfirst' hrest =>
      refine .cons (fun q hq => ?_) (ih hrest)
      obtain ⟨hleft, hright⟩ := List.of_mem_zip hq
      exact ⟨hfirst q.1 hleft, hfirst' q.2 hright⟩

/-! ## Edits of nodes -/

/-- Nodes with every instruction replaced by at least one, and with all labels left in place.
There is one list for each instruction, in order. -/
inductive Edited : List Node → List (List (Instruction Label)) → List Node → Prop
  | nil : Edited [] [] []
  | label {label : Label} {nodes edited : List Node} {edits : List (List (Instruction Label))} :
      Edited nodes edits edited → Edited (.label label :: nodes) edits (.label label :: edited)
  | instruction {i : Instruction Label} {new : List (Instruction Label)} {nodes edited : List Node}
        {edits : List (List (Instruction Label))} :
      new ≠ [] → Edited nodes edits edited →
      Edited (.instruction i :: nodes) (new :: edits) (new.map .instruction ++ edited)

theorem Edited.of_labelNodes {labels : LabelMap} {offset : Nat} {rest edited : List Node}
    {edits : List (List (Instruction Label))}
    (h : Edited (labelNodes labels offset ++ rest) edits edited) :
    ∃ later, edited = labelNodes labels offset ++ later ∧ Edited rest edits later := by
  unfold labelNodes at h ⊢
  cases hlabel : labels.get? offset with
  | none =>
    rw [hlabel] at h
    exact ⟨edited, rfl, h⟩
  | some label =>
    rw [hlabel] at h
    cases h with
    | label hrest => exact ⟨_, rfl, hrest⟩

section Layout

variable {widening : BranchWidening} {places : Places} {labels : LabelMap}

/-- The instructions in place of one at an offset are read from their own first offset on, and the
label of the old offset has its place there. -/
def PlacedAt (widening : BranchWidening) (places : Places) (labels : LabelMap) (offset : Nat)
    (new : List (Instruction Label)) (block : List (Located Nat)) : Prop :=
  ∃ first next, block.head?.map (·.offset) = some first ∧
    (∀ label, labels.get? offset = some label → places[label]? = some first) ∧
    LaidOut widening places first (new.map .instruction) block next

theorem head?_of_laidOut {is : List (Instruction Label)} {block : List (Located Nat)}
    {start stop : Nat} (hne : is ≠ [])
    (h : LaidOut widening places start (is.map .instruction) block stop) :
    block.head?.map (·.offset) = some start := by
  obtain ⟨i, is, rfl⟩ := List.exists_cons_of_ne_nil hne
  cases h with
  | instruction hblock _ => cases hblock <;> rfl

/-- Edited nodes are laid out as one block for each old instruction. -/
theorem exists_blocks_of_edited {found : List (Located Label)}
    {edits : List (List (Instruction Label))} {nodes : List Node} {last start stop : Nat}
    {read : List (Located Nat)}
    (hedit : Edited (labelledNodes labels found ++ labelNodes labels last) edits nodes)
    (h : LaidOut widening places start nodes read stop) :
    ∃ blocks : List (List (Located Nat)), read = blocks.flatten ∧ found.length = edits.length ∧
      List.Forall₂ (fun p => PlacedAt widening places labels p.1.offset p.2) (found.zip edits)
        blocks ∧
      ∀ label, labels.get? last = some label → places[label]? = some stop := by
  induction found generalizing edits nodes start read with
  | nil =>
    rw [← List.append_nil (labelledNodes labels [] ++ labelNodes labels last)] at hedit
    obtain ⟨later, rfl, hlater⟩ := hedit.of_labelNodes
    cases hlater
    obtain ⟨hlabel, hnil⟩ := laidOut_labelNodes h
    cases hnil
    exact ⟨[], rfl, rfl, .nil, hlabel⟩
  | cons l found ih =>
    rw [labelledNodes, List.flatMap_cons, ← labelledNodes, List.append_assoc,
      List.append_assoc] at hedit
    obtain ⟨later, rfl, hlater⟩ := hedit.of_labelNodes
    obtain ⟨hlabel, h⟩ := laidOut_labelNodes h
    cases hlater with
    | @instruction _ new _ edited edits hne hrest =>
      obtain ⟨block, back, middle, rfl, hblock, hback⟩ := h.split
      obtain ⟨blocks, rfl, hlength, hblocks, hend⟩ := ih hrest hback
      refine ⟨block :: blocks, rfl, by simp [hlength], .cons ?_ hblocks, hend⟩
      exact ⟨start, middle, head?_of_laidOut hne hblock, hlabel, hblock⟩

end Layout

/-! ## Where instructions go -/

theorem forall₂_zip_left {α β γ : Type} {R : α → β → Prop} {as : List α} {bs : List β}
    (h : List.Forall₂ R as bs) (cs : List γ) :
    List.Forall₂ (fun p q => R p.1 q.1 ∧ q.2 = p.2) (as.zip cs) (bs.zip cs) := by
  induction h generalizing cs with
  | nil => exact .nil
  | cons hab _ ih =>
    cases cs with
    | nil => exact .nil
    | cons c cs => exact .cons ⟨hab, rfl⟩ (ih cs)

theorem exists_mem_zip {α β : Type} {as : List α} {bs : List β} (hlength : as.length = bs.length)
    {a : α} (ha : a ∈ as) : ∃ b, (a, b) ∈ as.zip bs := by
  rw [← List.map_fst_zip hlength.le] at ha
  obtain ⟨⟨_, b⟩, hmem, rfl⟩ := List.mem_map.mp ha
  exact ⟨b, hmem⟩

/-- The new code has one block for each old instruction, from the place on where its offset is
moved to. -/
structure Moved (widening : BranchWidening) (places : Places) (moved : Nat → Nat)
    (read : List (Located Nat)) (edits : List (List (Instruction Label)))
    (blocks : List (List (Located Nat))) : Prop where
  length_eq : read.length = edits.length
  blocks : List.Forall₂ (fun p block => block.head?.map (·.offset) = some (moved p.1.offset) ∧
    ∃ next, LaidOut widening places (moved p.1.offset) (p.2.map .instruction) block next)
    (read.zip edits) blocks

/-- The offset of the first instruction of a block. -/
def startOf (block : List (Located Nat)) : Nat := (block.head?.map (·.offset)).getD 0

theorem exists_mem_startOf {block : List (Located Nat)} (h : block ≠ []) :
    ∃ l ∈ block, l.offset = startOf block := by
  obtain ⟨l, rest, rfl⟩ := List.exists_cons_of_ne_nil h
  exact ⟨l, List.mem_cons_self, rfl⟩

theorem pairwise_startOf {blocks : List (List (Located Nat))} (hne : ∀ block ∈ blocks, block ≠ [])
    (h : blocks.flatten.Pairwise fun l l' => l.offset < l'.offset) :
    (blocks.map startOf).Pairwise (· < ·) := by
  rw [List.pairwise_map]
  refine (List.pairwise_flatten.mp h).2.imp_of_mem fun hblock hblock' hlt => ?_
  obtain ⟨l, hl, hstart⟩ := exists_mem_startOf (hne _ hblock)
  obtain ⟨l', hl', hstart'⟩ := exists_mem_startOf (hne _ hblock')
  rw [← hstart, ← hstart']
  exact hlt l hl l' hl'

/-- Offsets in order can be moved to starts in order, and the end of the code to the new end. -/
theorem exists_moved {offsets starts : List Nat} {oldLength newLength : Nat}
    (hlength : offsets.length = starts.length) (hoffsets : offsets.Pairwise (· < ·))
    (hinside : ∀ offset ∈ offsets, offset < oldLength) (hstarts : starts.Pairwise (· < ·))
    (hinside' : ∀ start ∈ starts, start < newLength) :
    ∃ moved : Nat → Nat, (∀ p ∈ offsets.zip starts, moved p.1 = p.2) ∧
      moved oldLength = newLength ∧
      StrictMonoOn moved {place | place ∈ offsets ∨ place = oldLength} := by
  have hpairs : (offsets.zip starts ++ [(oldLength, newLength)]).Pairwise
      fun p q => p.1 < q.1 ∧ p.2 < q.2 := by
    refine List.pairwise_append.mpr ⟨pairwise_zip hoffsets hstarts, List.pairwise_singleton ..,
      fun p hp q hq => ?_⟩
    obtain rfl := List.mem_singleton.mp hq
    obtain ⟨hleft, hright⟩ := List.of_mem_zip hp
    exact ⟨hinside _ hleft, hinside' _ hright⟩
  obtain ⟨moved, hmoved, hmono⟩ := exists_strictMonoOn hpairs
  refine ⟨moved, fun p hp => hmoved p (List.mem_append_left _ hp),
    hmoved (oldLength, newLength) (List.mem_append_right _ (List.mem_singleton_self _)),
    hmono.mono fun place hplace => ?_⟩
  show place ∈ List.map _ _
  rw [List.map_append, List.map_fst_zip hlength.le, List.mem_append]
  exact hplace.imp id fun hend => List.mem_singleton.mpr hend

section Edited

variable {code : CodeAttribute} {body : MethodBody} {read : List (Located Nat)}
  {found : List (Located Label)} {places : Places} {moved : Nat → Nat}

/-- Labels are relocated where those of instructions have the places to which these are moved. -/
theorem relocates_of_decoded {newLength : Nat} (hdecoded : MethodBody.Decoded code body read found)
    (hmono : StrictMonoOn moved {place | place ∈ read.map (·.offset) ∨ place = code.code.length})
    (hstop : moved code.code.length = newLength) (hfew : newLength < UInt16.size)
    (hplaces : ∀ l ∈ read, ∀ label, body.labels.get? l.offset = some label →
      places[label]? = some (moved l.offset))
    (hend : ∀ label, body.labels.get? code.code.length = some label →
      places[label]? = some newLength) :
    Relocates body.labels moved places code.code.length newLength := by
  have hold := disassemble_eq_ok.mp hdecoded.disassemble_eq
  have hinside : ∀ l ∈ read, l.offset < code.code.length := by
    simpa using offset_lt_of_sequence hold
  have hinside' : ∀ l ∈ read, moved l.offset < newLength := by
    intro l hl
    rw [← hstop]
    exact hmono (.inl (List.mem_map_of_mem hl)) (.inr rfl) (hinside l hl)
  refine ⟨fun place label hlabel => ?_, hmono.mono ?_, fun place label hlabel => ?_⟩
  · rcases hdecoded.place_mem place label hlabel with rfl | ⟨l, hl, rfl⟩
    · rw [hstop]
      exact ⟨hend label hlabel, hfew⟩
    · exact ⟨hplaces l hl label hlabel, (hinside' l hl).trans hfew⟩
  · rintro place ⟨label, hlabel⟩
    rcases hdecoded.place_mem place label hlabel with rfl | ⟨l, hl, rfl⟩
    · exact .inr rfl
    · exact .inl (List.mem_map_of_mem hl)
  · rcases hdecoded.place_mem place label hlabel with rfl | ⟨l, hl, rfl⟩
    · rw [hstop]
      simp
    · exact iff_of_true (hinside' l hl) (hinside l hl)

/-- The code of an edited body has one block for each old instruction. -/
theorem exists_blocks_of_decoded {edits : List (List (Instruction Label))} {nodes : List Node}
    {widening : BranchWidening} {result : Assembled}
    (hdecoded : MethodBody.Decoded code body read found) (hedit : Edited body.nodes edits nodes)
    (hlayout : encodeWith widening nodes = .ok result) :
    ∃ blocks, scan result.code = .ok blocks.flatten ∧ read.length = edits.length ∧
      List.Forall₂ (fun p => PlacedAt widening result.places body.labels p.1.offset p.2)
        (read.zip edits) blocks ∧
      ∀ label, body.labels.get? code.code.length = some label →
        result.places[label]? = some result.code.length := by
  obtain ⟨new, hscan, hlaid⟩ := scan_encodeWith hlayout
  rw [hdecoded.nodes_eq] at hedit
  obtain ⟨blocks, rfl, hlength, hplaced, hend⟩ := exists_blocks_of_edited hedit hlaid
  refine ⟨blocks, hscan, hdecoded.labels.length_eq.trans hlength, ?_, hend⟩
  -- the instructions among the nodes have the offsets of those that were read
  refine (forall₂_comp (forall₂_zip_left hdecoded.labels edits) hplaced).imp fun p block h => ?_
  obtain ⟨q, ⟨⟨hoffset, -⟩, hnew⟩, hplaced⟩ := h
  rwa [hoffset, hnew] at hplaced

/-- Blocks that are read in order tell where each old instruction goes. -/
theorem exists_moved_of_placed {edits : List (List (Instruction Label))}
    {widening : BranchWidening} {labels : LabelMap} {blocks : List (List (Located Nat))}
    {oldReach newReach : Nat} {old new : List UInt8}
    (hold : Format.Sequence (Located.Stored oldReach) 0 read old)
    (hnew : Format.Sequence (Located.Stored newReach) 0 blocks.flatten new)
    (hlength : read.length = edits.length)
    (hplaced : List.Forall₂ (fun p => PlacedAt widening places labels p.1.offset p.2)
      (read.zip edits) blocks) :
    ∃ moved : Nat → Nat,
      StrictMonoOn moved {place | place ∈ read.map (·.offset) ∨ place = old.length} ∧
      moved old.length = new.length ∧
      List.Forall₂ (fun p block => block.head?.map (·.offset) = some (moved p.1.offset) ∧
        (∀ label, labels.get? p.1.offset = some label →
          places[label]? = some (moved p.1.offset)) ∧
        ∃ next, LaidOut widening places (moved p.1.offset) (p.2.map .instruction) block next)
        (read.zip edits) blocks := by
  have hne : ∀ block ∈ blocks, block ≠ [] := by
    rintro block hblock rfl
    obtain ⟨p, -, first, next, hhead, -⟩ := exists_of_mem_right hplaced hblock
    cases hhead
  have hcount : (read.map (·.offset)).length = (blocks.map startOf).length := by
    rw [List.length_map, List.length_map, ← hplaced.length_eq, List.length_zip, hlength,
      Nat.min_self]
  have hinside : ∀ offset ∈ read.map (·.offset), offset < old.length := by
    intro offset hoffset
    obtain ⟨l, hl, rfl⟩ := List.mem_map.mp hoffset
    simpa using offset_lt_of_sequence hold l hl
  have hinside' : ∀ start ∈ blocks.map startOf, start < new.length := by
    intro start hstart
    obtain ⟨block, hblock, rfl⟩ := List.mem_map.mp hstart
    obtain ⟨l, hl, hoffset⟩ := exists_mem_startOf (hne block hblock)
    rw [← hoffset]
    simpa using offset_lt_of_sequence hnew l (List.mem_flatten_of_mem hblock hl)
  -- every block has an instruction, so starts of blocks are in order as the offsets are
  obtain ⟨moved, hmoved, hstop, hmono⟩ := exists_moved hcount
    (List.pairwise_map.mpr (pairwise_offset_of_sequence hold)) hinside
    (pairwise_startOf hne (pairwise_offset_of_sequence hnew)) hinside'
  have hoffsets : read.map (·.offset) = (read.zip edits).map (·.1.offset) := by
    conv => lhs; rw [← List.map_fst_zip hlength.le, List.map_map]
    rfl
  refine ⟨moved, hmono, hstop, List.forall₂_iff_zip.mpr ⟨hplaced.length_eq, fun {p block} hp => ?_⟩⟩
  obtain ⟨first, next, hhead, hlabel, hlaid⟩ := List.forall₂_zip hplaced hp
  have hstart : moved p.1.offset = startOf block := by
    rw [hoffsets, List.zip_map] at hmoved
    exact hmoved (p.1.offset, startOf block) (List.mem_map.mpr ⟨_, hp, rfl⟩)
  obtain rfl : first = moved p.1.offset := by
    rw [hstart, startOf, hhead]
    rfl
  exact ⟨hhead, hlabel, next, hlaid⟩

/-- The places of an edited body are moved by one map that keeps their order. -/
theorem exists_moved_of_edited {edits : List (List (Instruction Label))} {nodes : List Node}
    {widening : BranchWidening} {result : Assembled}
    (hdecoded : MethodBody.Decoded code body read found) (hedit : Edited body.nodes edits nodes)
    (hlayout : encodeWith widening nodes = .ok result) :
    ∃ moved blocks, scan result.code = .ok blocks.flatten ∧
      Moved widening result.places moved read edits blocks ∧
      StrictMonoOn moved {place | place ∈ read.map (·.offset) ∨ place = code.code.length} ∧
      moved code.code.length = result.code.length ∧
      Relocates body.labels moved result.places code.code.length result.code.length := by
  obtain ⟨blocks, hscan, hlength, hplaced, hend⟩ := exists_blocks_of_decoded hdecoded hedit hlayout
  obtain ⟨moved, hmono, hstop, hplaces⟩ := exists_moved_of_placed
    (disassemble_eq_ok.mp hdecoded.disassemble_eq) (scan_eq_ok.mp hscan) hlength hplaced
  refine ⟨moved, blocks, hscan, ⟨hlength, hplaces.imp fun p block h => ⟨h.1, h.2.2⟩⟩, hmono, hstop,
    relocates_of_decoded hdecoded hmono hstop ?_ (fun l hl label hlabel => ?_) hend⟩
  · obtain ⟨plan, pieces, hsettled⟩ := encodeWith_eq_ok hlayout
    exact Nat.lt_succ_of_le hsettled.length_le
  · obtain ⟨edit, hp⟩ := exists_mem_zip hlength hl
    obtain ⟨block, -, -, hlabels, -⟩ := exists_of_mem_left hplaces hp
    exact hlabels label hlabel

end Edited

/-! ## Why storing fails -/

theorem aboutFrames_of_tableAttribute {name : String} {entries : List (List UInt8)}
    {pool pool' : ConstantPool} {e : Error}
    (h : MethodBody.tableAttribute name entries pool = .error e pool') : e.aboutFrames = false := by
  unfold MethodBody.tableAttribute at h
  split at h
  · cases h
  · rcases Success.state_bind_eq_error.mp h with h | ⟨index, pool₁, -, h⟩
    · exact aboutFrames_of_internText h
    · cases h

/-- A stack map whose labels all have places, in order, is not refused. -/
theorem aboutFrames_of_frameAttribute {m : LabelMap} {moved : Nat → Nat} {places : Places}
    {oldLength newLength : Nat} (hmoves : Relocates m moved places oldLength newLength)
    {frames : Option (List (Frame Nat))} {new : Option (List (Frame Label))}
    (hread : ∀ entries ∈ frames, ∃ data, (FrameTable.readTable oldLength).runOn data = .ok entries)
    (hlabels : Option.Rel (List.Forall₂ (Frame.Labels m)) frames new)
    {pool pool' : ConstantPool} {e : Error}
    (h : MethodBody.frameAttribute places new pool = .error e pool') : e.aboutFrames = false := by
  cases hlabels with
  | none => cases h
  | @some entries new hentries =>
    obtain ⟨data, hdata⟩ := hread entries rfl
    obtain ⟨data', hwrite, -⟩ := MethodBody.exists_write_frames hmoves hdata hentries
    have hplaced : (new.all fun frame => places.contains frame.place) = true := by
      refine List.all_eq_true.mpr fun frame hframe => ?_
      obtain ⟨old, -, hold⟩ := exists_of_mem_right hentries hframe
      obtain ⟨hplace, -⟩ := hmoves.movesTo _ _ hold.place
      rw [← Std.HashMap.isSome_getElem?_eq_contains, hplace]
      rfl
    unfold MethodBody.frameAttribute at h
    dsimp only at h
    rw [if_pos hplaced] at h
    rcases Success.state_bind_eq_error.mp h with h | ⟨index, pool₁, -, h⟩
    · exact aboutFrames_of_internText h
    · rcases Success.state_bind_eq_error.mp h with h | ⟨data, pool₂, -, h⟩
      · have hfail := PoolEdit.ofExcept_eq_error h
        rw [hwrite] at hfail
        cases hfail
      · cases h

theorem aboutFrames_of_encode {body : MethodBody} {m : LabelMap} {moved : Nat → Nat}
    {oldLength : Nat} {stored : CodeTables Nat} (hread : stored.WasRead oldLength)
    (hlabels : stored.Labels m body.tables)
    (hmoves : ∀ result, encodeWith body.widening body.nodes = .ok result →
      Relocates m moved result.places oldLength result.code.length)
    {pool pool' : ConstantPool} {e : Error} (h : body.encode pool = .error e pool') :
    e.aboutFrames = false := by
  rcases Success.state_bind_eq_error.mp h with h | ⟨result, pool₁, hresult, h⟩
  · exact aboutFrames_of_encodeWith (PoolEdit.ofExcept_eq_error h)
  rcases Success.state_bind_eq_error.mp h with h | ⟨lines, pool₂, -, h⟩
  · exact aboutFrames_of_tableAttribute h
  rcases Success.state_bind_eq_error.mp h with h | ⟨locals, pool₃, -, h⟩
  · exact aboutFrames_of_tableAttribute h
  rcases Success.state_bind_eq_error.mp h with h | ⟨localTypes, pool₄, -, h⟩
  · exact aboutFrames_of_tableAttribute h
  rcases Success.state_bind_eq_error.mp h with h | ⟨frames, pool₅, -, h⟩
  · have hlayout := (PoolEdit.ofExcept_eq_ok.mp hresult).1
    exact aboutFrames_of_frameAttribute (hmoves result hlayout) hread.frames hlabels.frames h
  · cases h

/-! ## Targets of branches -/

theorem Edited.label_mem {nodes edited : List Node} {edits : List (List (Instruction Label))}
    (h : Edited nodes edits edited) {label : Label} (hlabel : .label label ∈ edited) :
    .label label ∈ nodes := by
  induction h with
  | nil => cases hlabel
  | label _ ih =>
    rcases List.mem_cons.mp hlabel with heq | hmem
    · cases heq
      exact List.mem_cons_self
    · exact List.mem_cons_of_mem _ (ih hmem)
  | instruction _ _ ih =>
    rcases List.mem_append.mp hlabel with hnew | hmem
    · obtain ⟨i, -, hi⟩ := List.mem_map.mp hnew
      cases hi
    · exact List.mem_cons_of_mem _ (ih hmem)

theorem get?_of_label_mem {code : CodeAttribute} {body : MethodBody} {read : List (Located Nat)}
    {found : List (Located Label)} (h : MethodBody.Decoded code body read found) {label : Label}
    (hlabel : .label label ∈ body.nodes) : ∃ place, body.labels.get? place = some label := by
  rw [h.nodes_eq] at hlabel
  rcases List.mem_append.mp hlabel with hmem | hmem
  · obtain ⟨l, -, hmem⟩ := List.mem_flatMap.mp hmem
    rcases List.mem_append.mp hmem with hmem | hmem
    · exact ⟨l.offset, mem_labelNodes hmem⟩
    · cases List.mem_singleton.mp hmem
  · exact ⟨code.code.length, mem_labelNodes hmem⟩

/-- Branches of an edited body lead to where the labels of the body are moved, or, if conditional
branches are widened, past the jump of a widened one. -/
theorem target_of_edited {code : CodeAttribute} {body : MethodBody} {read new : List (Located Nat)}
    {found : List (Located Label)} {edits : List (List (Instruction Label))} {nodes : List Node}
    {widening : BranchWidening} {result : Assembled} {moved : Nat → Nat}
    (hdecoded : MethodBody.Decoded code body read found) (hedit : Edited body.nodes edits nodes)
    (hlayout : encodeWith widening nodes = .ok result)
    (hmoves : body.labels.MovesTo moved result.places) (hnew : scan result.code = .ok new) :
    ∀ l ∈ new, ∀ target ∈ l.instruction.targets,
      (∃ place label, body.labels.get? place = some label ∧ target = moved place) ∨
      widening = .all ∧ (target = result.code.length ∨ ∃ l' ∈ new, l'.offset = target) := by
  intro l hl target htarget
  obtain ⟨new', hscan, hlaid⟩ := scan_encodeWith hlayout
  obtain rfl : new = new' := Except.ok.inj (hnew.symm.trans hscan)
  refine (target_of_laidOut hlaid l hl target htarget).imp (fun h => ?_) id
  obtain ⟨label, hplace⟩ := h
  obtain ⟨plan, pieces, hsettled⟩ := encodeWith_eq_ok hlayout
  have hmem := hsettled.label_mem label target hplace
  rw [hsettled.nodes_eq] at hmem
  obtain ⟨place, hlabel⟩ := get?_of_label_mem hdecoded (hedit.label_mem hmem)
  obtain ⟨hplace', -⟩ := hmoves place label hlabel
  rw [hplace] at hplace'
  exact ⟨place, label, hlabel, Option.some.inj hplace'⟩

/-! ## Stored code of an edited body -/

namespace MethodBody

/-- The code and the tables of an edited body, where offsets of the stored code have been moved. -/
structure Follows (moved : Nat → Nat) (code : CodeAttribute) (body : MethodBody)
    (read : List (Located Nat)) (stored : CodeTables Nat)
    (edits : List (List (Instruction Label))) (pool : ConstantPool) (new : CodeAttribute) :
    Prop where
  /-- The end goes to the end. -/
  stop_eq : moved code.code.length = new.code.length
  /-- The tables are those from before, every place moved. -/
  tables_eq : storedTables pool new = .ok (stored.moved moved code.code.length)
  /-- Instructions go to where those in their place start. -/
  code_eq : ∃ (places : Places) (blocks : List (List (Located Nat))),
    scan new.code = .ok blocks.flatten ∧ Moved body.widening places moved read edits blocks ∧
    ∀ place label, body.labels.get? place = some label → places[label]? = some (moved place)
  /-- With a stack map, branches lead to labels only. -/
  target_label : body.frames.isSome = true → ∀ new', scan new.code = .ok new' → ∀ l ∈ new',
    ∀ target ∈ l.instruction.targets, ∃ place label,
      body.labels.get? place = some label ∧ target = moved place

/-- An edited body that is laid out is stored with its places moved. -/
theorem follows_of_encode {pool before after : ConstantPool} {code new : CodeAttribute}
    {body : MethodBody} {read : List (Located Nat)} {found : List (Located Label)}
    {stored : CodeTables Nat} {edits : List (List (Instruction Label))} {nodes : List Node}
    {moved : Nat → Nat} {blocks : List (List (Located Nat))} {result : Assembled}
    (hdecoded : Decoded code body read found) (hstored : storedTables pool code = .ok stored)
    (hlabels : stored.Labels body.labels body.tables) (hlines : body.lines.length < UInt16.size)
    (hlocals : body.locals.length < UInt16.size)
    (hlocalTypes : body.localTypes.length < UInt16.size) (hedit : Edited body.nodes edits nodes)
    (hlayout : encodeWith body.widening nodes = .ok result)
    (hscan : scan result.code = .ok blocks.flatten)
    (hmoved : Moved body.widening result.places moved read edits blocks)
    (hstop : moved code.code.length = result.code.length)
    (hrelocates : Relocates body.labels moved result.places code.code.length result.code.length)
    (hencode : ({ body with nodes } : MethodBody).encode before = .ok new after) :
    Follows moved code body read stored edits after new := by
  obtain ⟨-, hyields⟩ := yields_encode _ _ _ _ hencode
  obtain ⟨result', hencoded⟩ := hyields after (.refl after)
  have hok : encodeWith body.widening nodes = .ok result' := hencoded.layout
  obtain rfl : result = result' := Except.ok.inj (hlayout.symm.trans hok)
  have htables := hencoded.storedTables_eq hstored hlabels hrelocates
  rw [← hencoded.code_eq] at hscan hstop
  refine ⟨hstop, ?_, ⟨result.places, blocks, hscan, hmoved, fun place label hlabel =>
    (hrelocates.movesTo place label hlabel).1⟩, ?_⟩
  · rw [htables, CodeTables.counted_moved (hlabels.lines.length_eq.trans_lt hlines)
      (hlabels.locals.length_eq.trans_lt hlocals)
      (hlabels.localTypes.length_eq.trans_lt hlocalTypes)]
  · intro hframes new' hnew' l hl target htarget
    rw [hencoded.code_eq] at hnew'
    -- conditional branches are not widened next to a stack map
    rw [show body.widening = .unconditional from if_pos hframes] at hlayout
    rcases target_of_edited hdecoded hedit hlayout hrelocates.movesTo hnew' l hl target htarget
      with hlabel | ⟨hall, -⟩
    · exact hlabel
    · cases hall

/-- Replacing instructions of a body moves all places by one map that keeps their order. When the
body is stored, its code has the new instructions where the map says, and its tables are the old
ones with every place moved; and it is never refused because of its frames. -/
theorem encode_edited {pool : ConstantPool} {code : CodeAttribute} {body : MethodBody}
    {edits : List (List (Instruction Label))} {nodes : List Node}
    (hdecode : decode pool code = .ok body) (hlines : body.lines.length < UInt16.size)
    (hlocals : body.locals.length < UInt16.size)
    (hlocalTypes : body.localTypes.length < UInt16.size) (hedit : Edited body.nodes edits nodes) :
    ∃ read stored moved, disassemble code.code = .ok read ∧ storedTables pool code = .ok stored ∧
      StrictMonoOn moved {place | place ∈ read.map (·.offset) ∨ place = code.code.length} ∧
      ∀ before,
        (∀ new after, ({ body with nodes } : MethodBody).encode before = .ok new after →
          Follows moved code body read stored edits after new) ∧
        ∀ e after, ({ body with nodes } : MethodBody).encode before = .error e after →
          e.aboutFrames = false := by
  obtain ⟨read, found, stored, hdecoded, hstored, hlabels⟩ := decode_eq_ok hdecode
  refine ⟨read, stored, ?_⟩
  have hread := wasRead_of_storedTables hstored
  have hlabels' : stored.Labels body.labels ({ body with nodes } : MethodBody).tables := hlabels
  cases hlayout : encodeWith body.widening nodes with
  | error e =>
    -- the nodes cannot be laid out at all, so any map will do
    have hfails : ∀ result, encodeWith body.widening nodes ≠ .ok result := by
      intro result hok
      rw [hlayout] at hok
      cases hok
    refine ⟨id, hdecoded.disassemble_eq, hstored, strictMonoOn_id, fun before => ⟨?_, ?_⟩⟩
    · intro new after hencode
      obtain ⟨-, hyields⟩ := yields_encode _ _ _ _ hencode
      obtain ⟨result, hencoded⟩ := hyields after (.refl after)
      exact absurd hencoded.layout (hfails result)
    · intro e' after hencode
      have hmoves : ∀ result, encodeWith body.widening nodes = .ok result →
          Relocates body.labels id result.places code.code.length result.code.length :=
        fun result hok => absurd hok (hfails result)
      exact aboutFrames_of_encode hread hlabels' hmoves hencode
  | ok result =>
    obtain ⟨moved, blocks, hscan, hmoved, hmono, hstop, hrelocates⟩ :=
      exists_moved_of_edited hdecoded hedit hlayout
    refine ⟨moved, hdecoded.disassemble_eq, hstored, hmono, fun before => ⟨?_, ?_⟩⟩
    · intro new after hencode
      exact follows_of_encode hdecoded hstored hlabels hlines hlocals hlocalTypes hedit hlayout
        hscan hmoved hstop hrelocates hencode
    · intro e after hencode
      have hmoves : ∀ result', encodeWith body.widening nodes = .ok result' →
          Relocates body.labels moved result'.places code.code.length result'.code.length := by
        intro result' hok
        obtain rfl : result = result' := Except.ok.inj (hlayout.symm.trans hok)
        exact hrelocates
      exact aboutFrames_of_encode hread hlabels' hmoves hencode

/-! ## An edit, and a table that is lost -/

/-- The names of tables, and of a variable and its type. -/
def tableNames : ConstantPool :=
  ⟨#[.unusable, .utf8 frameTableName, .utf8 lineTableName, .utf8 localTableName, .utf8 "x",
    .utf8 "I"]⟩

/-- Code with two branches to its last instruction, where a new object is on the stack. -/
def branching : CodeAttribute where
  maxStack := 2
  maxLocals := 1
  code := [0xbb, 0, 9, 0x59, 0xc6, 0, 6, 0xa7, 0, 3, 0xb1]
  exceptions := [⟨4, 7, 10, 0⟩]
  attributes := [⟨2, [0, 2, 0, 0, 0, 1, 0, 10, 0, 2]⟩, ⟨3, [0, 1, 0, 4, 0, 7, 0, 4, 0, 5, 0, 0]⟩,
    ⟨1, [0, 1, 74, 8, 0, 0]⟩]

/-- An instruction is put before the second branch. -/
theorem encode_edited_branching : ∃ body nodes edits read stored moved,
    decode tableNames branching = .ok body ∧
      (body.lines.length < UInt16.size ∧ body.locals.length < UInt16.size ∧
        body.localTypes.length < UInt16.size ∧ Edited body.nodes edits nodes) ∧
      storedTables tableNames branching = .ok stored ∧ nodes ≠ body.nodes ∧
      StrictMonoOn moved {place | place ∈ read.map (·.offset) ∨ place = branching.code.length} ∧
      ∀ before,
        (∀ new after, ({ body with nodes } : MethodBody).encode before = .ok new after →
          Follows moved branching body read stored edits after new) ∧
        ∀ e after, ({ body with nodes } : MethodBody).encode before = .error e after →
          e.aboutFrames = false := by
  let front : List Node := [.label ⟨3⟩, .instruction ⟨0xbb, .constant 9⟩,
    .instruction ⟨0x59, .plain⟩, .label ⟨1⟩, .instruction ⟨0xc6, .branch ⟨0⟩⟩, .label ⟨2⟩]
  let back : List Node := [.instruction ⟨0xa7, .branch ⟨0⟩⟩, .label ⟨0⟩,
    .instruction ⟨0xb1, .plain⟩, .label ⟨4⟩]
  have hrun : (match decode tableNames branching with
      | .ok body => decide (body.nodes = front ++ back ∧ body.lines.length < UInt16.size ∧
          body.locals.length < UInt16.size ∧ body.localTypes.length < UInt16.size)
      | .error _ => false) = true := by
    simp only [decode, strayPlace?, Std.HashSet.contains_ofList]
    decide +kernel
  split at hrun
  · rename_i body hdecode
    obtain ⟨hnodes, hlines, hlocals, hlocalTypes⟩ := of_decide_eq_true hrun
    have hedit : Edited body.nodes [[⟨0xbb, .constant 9⟩], [⟨0x59, .plain⟩],
        [⟨0xc6, .branch ⟨0⟩⟩], [⟨0, .plain⟩, ⟨0xa7, .branch ⟨0⟩⟩], [⟨0xb1, .plain⟩]]
        (front ++ .instruction ⟨0, .plain⟩ :: back) := by
      rw [hnodes]
      exact .label (.instruction (by simp) (.instruction (by simp) (.label (.instruction (by simp)
        (.label (.instruction (by simp) (.label (.instruction (by simp) (.label .nil)))))))))
    obtain ⟨read, stored, moved, -, hstored, hmono, hmoved⟩ :=
      encode_edited hdecode hlines hlocals hlocalTypes hedit
    refine ⟨body, _, _, read, stored, moved, hdecode, ⟨hlines, hlocals, hlocalTypes, hedit⟩,
      hstored, ?_, hmono, hmoved⟩
    rw [hnodes]
    decide
  · cases hrun

/-- The frames of all stack maps of stored code. -/
def storedFrames (pool : ConstantPool) (code : CodeAttribute) : Except Error (List (Frame Nat)) := do
  let tables ← code.attributes.mapM (CodeTable.ofAttribute? pool code.code.length)
  return tables.flatMap fun | some (.frames entries) => entries | _ => []

/-- Code with a frame in a stack map, and a second stack map without any. -/
def twoStackMaps : CodeAttribute where
  maxStack := 0
  maxLocals := 0
  code := [0xb1]
  exceptions := []
  attributes := [⟨1, [0, 1, 0]⟩, ⟨1, [0, 0]⟩]

/-- The frame in the first stack map is lost, also where no instruction is replaced by another. -/
theorem encode_twoStackMaps : ∃ body edits old new after,
    decode tableNames twoStackMaps = .ok body ∧
      (body.lines.length < UInt16.size ∧ body.locals.length < UInt16.size ∧
        body.localTypes.length < UInt16.size ∧ Edited body.nodes edits body.nodes) ∧
      body.encode tableNames = .ok new after ∧ storedFrames tableNames twoStackMaps = .ok old ∧
      ∀ moved : Nat → Nat, storedFrames after new ≠ .ok (old.map (·.map moved)) := by
  have hrun : (match decode tableNames twoStackMaps with
      | .ok body => decide (body.nodes = [.label ⟨0⟩, .instruction ⟨0xb1, .plain⟩] ∧
          body.tables = ⟨[], [], [], [], some []⟩)
      | .error _ => false) = true := by
    simp only [decode, strayPlace?, Std.HashSet.contains_ofList]
    decide +kernel
  have hcode : (encodeWith .unconditional [.label ⟨0⟩, .instruction ⟨0xb1, .plain⟩]).toOption.map
      (·.code) = some [0xb1] := by
    cbv
  have hold : storedFrames tableNames twoStackMaps = .ok [⟨0, .same⟩] := by
    rfl
  have hstackMap (places : Places) :
      frameAttribute places (some []) tableNames = .ok [⟨1, [0, 0]⟩] tableNames := by
    have hname : ConstantPool.internText frameTableName tableNames = .ok 1 tableNames := by cbv
    exact Success.state_bind.mpr ⟨1, _, hname, Success.state_bind.mpr ⟨[0, 0], _, rfl, rfl⟩⟩
  split at hrun
  · rename_i body hdecode
    obtain ⟨hnodes, htables⟩ := of_decide_eq_true hrun
    injection htables with hblocks hlines hlocals hlocalTypes hframes
    cases hlayout : encodeWith .unconditional [.label ⟨0⟩, .instruction ⟨0xb1, .plain⟩] with
    | error e =>
      rw [hlayout] at hcode
      cases hcode
    | ok result =>
      rw [hlayout] at hcode
      have hcode : result.code = [0xb1] := Option.some.inj hcode
      have hnew : body.encode tableNames =
          .ok ⟨body.maxStack, body.maxLocals, result.code, [], [⟨1, [0, 0]⟩]⟩ tableNames := by
        rw [encode, widening, hframes, hnodes, hblocks, hlines, hlocals, hlocalTypes]
        dsimp only [Option.isSome_some]
        rw [if_pos rfl, hlayout]
        exact Success.state_bind.mpr ⟨result, _, rfl,
          Success.state_bind.mpr ⟨[], _, rfl, Success.state_bind.mpr ⟨[], _, rfl,
          Success.state_bind.mpr ⟨[], _, rfl, Success.state_bind.mpr ⟨_, _, hstackMap result.places,
          rfl⟩⟩⟩⟩⟩
      refine ⟨body, [[⟨0xb1, .plain⟩]], _, _, _, hdecode, ⟨?_, ?_, ?_, ?_⟩, hnew, hold, ?_⟩
      · simp [hlines]
      · simp [hlocals]
      · simp [hlocalTypes]
      · rw [hnodes]
        exact .label (.instruction (by simp) .nil)
      · intro moved hsame
        rw [hcode] at hsame
        have hnone : storedFrames tableNames
            ⟨body.maxStack, body.maxLocals, [0xb1], [], [⟨1, [0, 0]⟩]⟩ = .ok [] := by
          rfl
        rw [hnone] at hsame
        cases hsame
  · cases hrun

end MethodBody

end ClassPatch
