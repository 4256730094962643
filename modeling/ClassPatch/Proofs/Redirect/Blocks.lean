import Mathlib
import ClassPatch.Proofs.MethodBody.Decode
import ClassPatch.Proofs.Redirect.Nodes

/-!
# Blocks of redirected code

Every instruction of a method becomes a block of instructions in the code that its
redirected nodes are laid out as. The blocks follow each other as the instructions did,
and branches lead to the blocks of what they led to.
-/

namespace ClassPatch.Redirect

open Bytes Code Machine

variable {site : Site} {targets : List MethodKey} {pool : ConstantPool}

/-! ## Instructions of redirected calls -/

/-- The conditions are two rows of opcodes. -/
theorem mem_of_inverse? {opcode : UInt8} (h : Opcode.inverse? opcode ≠ none) :
    opcode ∈ [0x99, 0x9A, 0x9B, 0x9C, 0x9D, 0x9E, 0x9F, 0xA0, 0xA1, 0xA2, 0xA3, 0xA4, 0xA5, 0xA6,
      0xC6, 0xC7] :=
  forall_opcode (P := fun opcode => Opcode.inverse? opcode ≠ none → opcode ∈ [0x99, 0x9A, 0x9B,
    0x9C, 0x9D, 0x9E, 0x9F, 0xA0, 0xA1, 0xA2, 0xA3, 0xA4, 0xA5, 0xA6, 0xC6, 0xC7])
    (by decide +kernel) opcode h

theorem action?_of_inverse? {i : Instruction Label} (h : Opcode.inverse? i.opcode ≠ none) :
    action? pool i = none := by
  obtain ⟨opcode, operand⟩ := i
  have hmem := mem_of_inverse? h
  simp only [List.mem_cons, List.not_mem_nil, or_false] at hmem
  rcases hmem with rfl | rfl | rfl | rfl | rfl | rfl | rfl | rfl | rfl | rfl | rfl | rfl | rfl |
    rfl | rfl | rfl <;> cases operand <;> rfl

/-- The machine runs neither branches nor the opcodes of conditions. -/
theorem no_branch_of_action? {i : Instruction Label} {a : Action} (h : action? pool i = some a) :
    i.targets = [] ∧ Opcode.inverse? i.opcode = none := by
  constructor
  · obtain ⟨opcode, operand⟩ := i
    cases operand <;> first | rfl | cases h
  · by_contra hinverse
    rw [action?_of_inverse? hinverse] at h
    cases h

/-- An instruction of a redirected call as it is read back: itself, or `ldc_w` for a constant
whose index takes two bytes. -/
inductive Stands : Instruction Label → Instruction Nat → Prop
  | same {i : Instruction Label} {read : Instruction Nat} :
      i.mapTargetsM (fun _ => none) = some read → Stands i read
  | wide {index : UInt16} :
      255 < index → Stands (.ofConstant Opcode.ldc index) (.ofConstant Opcode.ldcW index)

theorem action?_mapTargetsM {i : Instruction Label} {read : Instruction Nat}
    (h : i.mapTargetsM (fun _ => none) = some read) : action? pool read = action? pool i := by
  obtain ⟨hopcode, hoperand⟩ := Instruction.mapTargetsM_eq_some.mp h
  obtain ⟨opcode, operand⟩ := i
  obtain ⟨opcode', operand'⟩ := read
  obtain rfl : opcode' = opcode := hopcode
  cases operand <;> cases hoperand <;> rfl

/-- Both forms of loading a constant resolve to the same. -/
theorem Stands.action?_eq {i : Instruction Label} {read : Instruction Nat} (h : Stands i read) :
    action? pool read = action? pool i := by
  cases h with
  | same hread => exact action?_mapTargetsM hread
  | wide => rfl

/-- An instruction without targets is read as one instruction. -/
theorem stands_of_readsAs {widening : BranchWidening} {places : Places} {offset next : Nat}
    {i : Instruction Label} {block : List (Located Nat)} (htargets : i.targets = [])
    (h : ReadsAs widening places offset i block next) :
    ∃ read, block = [⟨offset, read⟩] ∧ Stands i read := by
  cases h with
  | @same read _ hread =>
    refine ⟨read, rfl, .same (Instruction.mapTargetsM_congr hread fun t ht => ?_)⟩
    rw [htargets] at ht
    cases ht
  | wideConstant hconstant hlarge =>
    subst hconstant
    exact ⟨_, rfl, .wide hlarge⟩
  | wideJump hoperand =>
    rw [Instruction.targets, hoperand] at htargets
    cases htargets
  | inverted _ hoperand =>
    rw [Instruction.targets, hoperand] at htargets
    cases htargets

/-- What the instructions of a redirected call resolve to does not depend on the pool that
they were made in. -/
theorem resolves_of_stands {is : List (Instruction Label)} {block : List (Instruction Nat)}
    {actions : List Machine.Action} (hresolves : Resolves pool is actions)
    (h : List.Forall₂ Stands is block) : Resolves pool block actions := by
  induction h generalizing actions with
  | nil =>
    obtain rfl := List.forall₂_nil_left_iff.mp hresolves
    exact .nil
  | cons hstands _ ih =>
    obtain ⟨a, actions, ha, hactions, rfl⟩ := List.forall₂_cons_left_iff.mp hresolves
    exact .cons (hstands.action?_eq.trans ha) (ih hactions)

/-! ## Groups of nodes -/

/-- The nodes of instructions, each replaced by a group after the label of its offset. -/
def groupNodes (labels : LabelMap) (pairs : List (Located Label × List Node)) : List Node :=
  pairs.flatMap fun p => labelNodes labels p.1.offset ++ p.2

theorem groupNodes_cons {labels : LabelMap} {l : Located Label} {group : List Node}
    {pairs : List (Located Label × List Node)} :
    groupNodes labels ((l, group) :: pairs) =
      labelNodes labels l.offset ++ (group ++ groupNodes labels pairs) := by
  rw [groupNodes, List.flatMap_cons, List.append_assoc, ← groupNodes]

theorem flatten_of_labelNodes {labels : LabelMap} {offset : Nat} {rest : List Node}
    {groups : List (List Node)}
    (h : List.Forall₂ (Replaced site targets pool) (labelNodes labels offset ++ rest) groups) :
    ∃ later, List.Forall₂ (Replaced site targets pool) rest later ∧
      groups.flatten = labelNodes labels offset ++ later.flatten := by
  unfold labelNodes at h ⊢
  cases hlabel : labels.get? offset with
  | none =>
    rw [hlabel] at h
    exact ⟨groups, h, rfl⟩
  | some label =>
    rw [hlabel] at h
    obtain ⟨group, later, hgroup, hlater, rfl⟩ := List.forall₂_cons_left_iff.mp h
    cases hgroup
    exact ⟨later, hlater, rfl⟩

/-- The new nodes are those of the instructions with some of them replaced; all labels stay
where they were. -/
theorem exists_groups {labels : LabelMap} {found : List (Located Label)} {stop : Nat}
    {groups : List (List Node)}
    (h : List.Forall₂ (Replaced site targets pool)
      (labelledNodes labels found ++ labelNodes labels stop) groups) :
    ∃ bodies, List.Forall₂ (fun l body => Replaced site targets pool (.instruction l.instruction) body)
        found bodies ∧
      groups.flatten = groupNodes labels (found.zip bodies) ++ labelNodes labels stop := by
  induction found generalizing groups with
  | nil =>
    rw [← List.append_nil (labelledNodes labels [] ++ labelNodes labels stop)] at h
    obtain ⟨later, hlater, hflat⟩ := flatten_of_labelNodes h
    obtain rfl := List.forall₂_nil_left_iff.mp hlater
    rw [List.flatten_nil, List.append_nil] at hflat
    exact ⟨[], .nil, hflat⟩
  | cons l found ih =>
    rw [labelledNodes, List.flatMap_cons, ← labelledNodes, List.append_assoc,
      List.append_assoc] at h
    obtain ⟨later, hlater, hflat⟩ := flatten_of_labelNodes h
    obtain ⟨body, later, hbody, hrest, rfl⟩ := List.forall₂_cons_left_iff.mp hlater
    obtain ⟨bodies, hbodies, hrestFlat⟩ := ih hrest
    refine ⟨body :: bodies, .cons hbody hbodies, ?_⟩
    rw [hflat, List.flatten_cons, hrestFlat, List.zip_cons_cons, groupNodes_cons,
      List.append_assoc, List.append_assoc]

theorem sequence_instructions {call : Call} {before after : ConstantPool} {replaced : Sequence}
    (h : sequence site call before = .ok replaced after) :
    replaced.instructions ≠ [] ∧ ∀ i ∈ replaced.instructions,
      i.targets = [] ∧ Opcode.inverse? i.opcode = none := by
  obtain ⟨-, hyields⟩ := yields_sequence site call before replaced after h
  obtain ⟨spilled, last, -, -, hresolves⟩ := hyields after (.refl after)
  constructor
  · intro hempty
    rw [hempty] at hresolves
    have hplan := List.forall₂_nil_left_iff.mp hresolves
    simp [plan] at hplan
  · intro i hi
    obtain ⟨a, -, ha⟩ := exists_of_mem_left hresolves hi
    exact no_branch_of_action? ha

/-! ## Closed nodes -/

theorem Replaced.eq_append {i : Instruction Label} {body : List Node}
    (h : Replaced site targets pool (.instruction i) body) :
    ∃ front j, body = front ++ [.instruction j] ∧ (j = i ∨ Opcode.inverse? j.opcode = none) := by
  cases h with
  | kept _ => exact ⟨[], i, rfl, .inl rfl⟩
  | @redirected _ call before after replaced _ _ hsequence _ =>
    obtain ⟨hne, hall⟩ := sequence_instructions hsequence
    obtain ⟨front, j, heq⟩ := (List.eq_nil_or_concat replaced.instructions).resolve_left hne
    rw [List.concat_eq_append] at heq
    refine ⟨front.map .instruction, j, by rw [heq, List.map_append]; rfl, .inr ?_⟩
    exact (hall j (by rw [heq]; simp)).2

/-- The nodes of the instructions end in an instruction, which is the last one or one of a
redirected call. -/
theorem groupNodes_eq_append {labels : LabelMap} {found : List (Located Label)}
    {bodies : List (List Node)}
    (h : List.Forall₂ (fun l body => Replaced site targets pool (.instruction l.instruction) body)
      found bodies) (hne : found ≠ []) :
    ∃ front i, groupNodes labels (found.zip bodies) = front ++ [.instruction i] ∧
      ((∃ l ∈ found.getLast?, l.instruction = i) ∨ Opcode.inverse? i.opcode = none) := by
  induction h with
  | nil => exact absurd rfl hne
  | @cons l body found bodies hbody _ ih =>
    rw [List.zip_cons_cons, groupNodes_cons]
    by_cases hlast : found = []
    · subst hlast
      obtain ⟨front, i, rfl, hi⟩ := hbody.eq_append
      refine ⟨labelNodes labels l.offset ++ front, i, ?_, ?_⟩
      · rw [List.zip_nil_left, show groupNodes labels [] = [] from rfl, List.append_nil,
          List.append_assoc]
      · exact hi.imp_left fun hsame => ⟨l, rfl, hsame.symm⟩
    · obtain ⟨front, i, hfront, hi⟩ := ih hlast
      refine ⟨labelNodes labels l.offset ++ (body ++ front), i, ?_, ?_⟩
      · rw [hfront, List.append_assoc, List.append_assoc]
      · rwa [List.getLast?_cons_of_ne_nil hlast]

theorem mem_groupNodes {labels : LabelMap} {found : List (Located Label)}
    {bodies : List (List Node)} {i : Instruction Label}
    (h : List.Forall₂ (fun l body => Replaced site targets pool (.instruction l.instruction) body)
      found bodies) (hi : .instruction i ∈ groupNodes labels (found.zip bodies))
    (htargets : i.targets ≠ []) : ∃ l ∈ found, l.instruction = i := by
  obtain ⟨⟨l, body⟩, hpair, hmem⟩ := List.mem_flatMap.mp hi
  have hbody := List.forall₂_zip h hpair
  rcases List.mem_append.mp hmem with hlabel | hmem
  · exact absurd (List.all_eq_true.mp (all_isLabel_labelNodes labels _) _ hlabel)
      Bool.false_ne_true
  refine ⟨l, (List.of_mem_zip hpair).1, ?_⟩
  cases hbody with
  | kept _ =>
    cases List.mem_singleton.mp hmem
    rfl
  | redirected _ _ hsequence _ =>
    obtain ⟨j, hj, hsame⟩ := List.mem_map.mp hmem
    cases hsame
    exact absurd ((sequence_instructions hsequence).2 i hj).1 htargets

/-- Branches lead to labels of instructions, and the label of the end is another one. -/
theorem closed_groupNodes {read : List (Located Nat)} {found : List (Located Label)}
    {bodies : List (List Node)} {labels : LabelMap} {stop : Nat}
    (hlabels : List.Forall₂ (fun l new => l.Labels labels new) read found)
    (hdistinct : labels.Distinct)
    (hinside : ∀ l ∈ read, ∀ target ∈ l.instruction.targets, target < stop)
    (hends : ∀ l ∈ read.getLast?, Opcode.inverse? l.instruction.opcode = none)
    (hbodies : List.Forall₂
      (fun l body => Replaced site targets pool (.instruction l.instruction) body) found bodies)
    (hne : found ≠ []) :
    Closed (groupNodes labels (found.zip bodies) ++ labelNodes labels stop) := by
  have hstop := all_isLabel_labelNodes labels stop
  obtain ⟨front, last, hgroups, hlast⟩ := groupNodes_eq_append hbodies hne
  have hnodes : groupNodes labels (found.zip bodies) ++ labelNodes labels stop =
      front ++ .instruction last :: labelNodes labels stop := by
    rw [hgroups, List.append_assoc]
    rfl
  constructor
  · intro i hi target htarget htrailing
    rw [hnodes, trailingLabels_append hstop] at htrailing
    have hgroup : .instruction i ∈ groupNodes labels (found.zip bodies) := by
      rcases List.mem_append.mp hi with hgroup | hlabel
      · exact hgroup
      · exact absurd (List.all_eq_true.mp hstop _ hlabel) Bool.false_ne_true
    obtain ⟨new, hnew, rfl⟩ := mem_groupNodes hbodies hgroup (List.ne_nil_of_mem htarget)
    obtain ⟨l, hl, -, hlabelled⟩ := exists_of_mem_right hlabels hnew
    obtain ⟨place, hplace, hlabel⟩ :=
      exists_of_mem_right (Instruction.mapTargetsM_targets hlabelled) htarget
    have hsame := hdistinct.injective place stop target hlabel (mem_labelNodes htrailing)
    exact absurd (hinside l hl place hplace) (hsame ▸ Nat.lt_irrefl stop)
  · intro i hi
    rw [hnodes, lastInstruction?_append hstop] at hi
    cases hi
    rcases hlast with ⟨new, hnew, rfl⟩ | hsequence
    · obtain ⟨l, hl, -, hlabelled⟩ := exists_of_mem_getLast? hlabels hnew
      rw [(Instruction.mapTargetsM_eq_some.mp hlabelled).1]
      exact hends l hl
    · exact hsequence

/-! ## Blocks -/

section Blocks

variable {widening : BranchWidening} {places : Places} {labels : LabelMap} {start stop : Nat}

/-- What is read for an instruction, with places of labels as targets. -/
inductive Placed (site : Site) (targets : List MethodKey) (pool : ConstantPool)
    (widening : BranchWidening) (places : Places) (start : Nat) (i : Instruction Label) :
    List (Located Nat) → Prop
  | kept {block : List (Located Nat)} {next : Nat} :
      isTarget pool targets i = false → ReadsAs widening places start i block next →
      Placed site targets pool widening places start i block
  | redirected {call : Call} {before after : ConstantPool} {replaced : Sequence}
        {block : List (Located Nat)} :
      isTarget pool targets i = true → Calls pool i call →
      sequence site call before = .ok replaced after → after.Grows pool →
      List.Forall₂ Stands replaced.instructions (block.map (·.instruction)) →
      Placed site targets pool widening places start i block

/-- Instructions without targets are read one by one. -/
theorem stands_of_laidOut {is : List (Instruction Label)} {read : List (Located Nat)}
    (htargets : ∀ i ∈ is, i.targets = [])
    (h : LaidOut widening places start (is.map .instruction) read stop) :
    List.Forall₂ Stands is (read.map (·.instruction)) := by
  induction is generalizing start read with
  | nil =>
    cases h
    exact .nil
  | cons i is ih =>
    cases h with
    | instruction hblock hrest =>
      obtain ⟨new, rfl, hnew⟩ := stands_of_readsAs (htargets i List.mem_cons_self) hblock
      exact .cons hnew (ih (fun j hj => htargets j (List.mem_cons_of_mem i hj)) hrest)

theorem placed_of_replaced {i : Instruction Label} {body : List Node}
    {block : List (Located Nat)} (hbody : Replaced site targets pool (.instruction i) body)
    (h : LaidOut widening places start body block stop) :
    Placed site targets pool widening places start i block ∧
      block.head?.map (·.offset) = some start := by
  have hhead (hne : block ≠ []) : block.head?.map (·.offset) = some start := by
    have hstart := h.start_eq
    obtain ⟨l, rest, rfl⟩ := List.exists_cons_of_ne_nil hne
    exact congrArg some hstart.symm
  cases hbody with
  | kept htarget =>
    cases h with
    | instruction hblock hrest =>
      cases hrest
      rw [List.append_nil] at hhead ⊢
      refine ⟨.kept htarget hblock, hhead ?_⟩
      cases hblock <;> simp
  | redirected htarget hcalls hsequence hgrows =>
    obtain ⟨hne, hall⟩ := sequence_instructions hsequence
    have hstands := stands_of_laidOut (fun j hj => (hall j hj).1) h
    refine ⟨.redirected htarget hcalls hsequence hgrows hstands, hhead fun hempty => hne ?_⟩
    rw [hempty] at hstands
    exact List.forall₂_nil_right_iff.mp hstands

/-- The code of the new nodes is made of one block for each instruction, which starts at the
place of the label of the instruction. -/
theorem exists_blocks {found : List (Located Label)} {bodies : List (List Node)}
    {read : List (Located Nat)} {last : Nat}
    (hbodies : List.Forall₂
      (fun l body => Replaced site targets pool (.instruction l.instruction) body) found bodies)
    (h : LaidOut widening places start
      (groupNodes labels (found.zip bodies) ++ labelNodes labels last) read stop) :
    ∃ blocks : List (List (Located Nat)), read = blocks.flatten ∧
      List.Forall₂ (fun new block => ∃ first, block.head?.map (·.offset) = some first ∧
        (∀ label, labels.get? new.offset = some label → places[label]? = some first) ∧
        Placed site targets pool widening places first new.instruction block) found blocks := by
  induction hbodies generalizing start read with
  | nil =>
    rw [List.zip_nil_left, show groupNodes labels [] = [] from rfl, List.nil_append,
      ← List.append_nil (labelNodes labels last)] at h
    cases (laidOut_labelNodes h).2
    exact ⟨[], rfl, .nil⟩
  | @cons new body found bodies hbody _ ih =>
    rw [List.zip_cons_cons, groupNodes_cons, List.append_assoc, List.append_assoc] at h
    obtain ⟨hlabel, h⟩ := laidOut_labelNodes h
    obtain ⟨block, later, middle, rfl, hblock, hlater⟩ := h.split
    obtain ⟨blocks, rfl, hblocks⟩ := ih hlater
    obtain ⟨hplaced, hhead⟩ := placed_of_replaced hbody hblock
    exact ⟨block :: blocks, rfl, .cons ⟨start, hhead, hlabel, hplaced⟩ hblocks⟩

/-! ## What instructions become -/

/-- An instruction that is not redirected: itself with its targets moved, or a branch in a form
that reaches further. -/
inductive Kept (moved : Nat → Nat) (l : Located Nat) : List (Located Nat) → Prop
  | same {read : Instruction Nat} :
      l.instruction.mapTargetsM (fun target => some (moved target)) = some read →
      Kept moved l [⟨moved l.offset, read⟩]
  | wideJump {jump : UInt8} {target : Nat} :
      l.instruction.operand = .branch target →
      Opcode.wideJump? l.instruction.opcode = some jump →
      Kept moved l [⟨moved l.offset, ⟨jump, .branch (moved target)⟩⟩]
  | inverted {inverse : UInt8} {target : Nat} :
      l.instruction.operand = .branch target →
      Opcode.inverse? l.instruction.opcode = some inverse →
      Kept moved l [⟨moved l.offset, ⟨inverse, .branch (moved l.offset + 8)⟩⟩,
        ⟨moved l.offset + 3, ⟨Opcode.gotoW, .branch (moved target)⟩⟩]

/-- What an instruction of the old code becomes, if its offset and the offsets that it leads to
are moved. The instructions in place of a call are those made for it, and resolve to its plan. -/
inductive Becomes (site : Site) (targets : List MethodKey) (pool : ConstantPool)
    (moved : Nat → Nat) (l : Located Nat) : List (Located Nat) → Prop
  | kept {block : List (Located Nat)} :
      isTarget pool targets l.instruction = false → Kept moved l block →
      Becomes site targets pool moved l block
  | redirected {call : Call} {before after : ConstantPool} {replaced : Sequence}
        {spilled : List Spill} {last : UInt16} {block : List (Located Nat)} :
      isTarget pool targets l.instruction = true → Calls pool l.instruction call →
      sequence site call before = .ok replaced after → after.Grows pool →
      List.Forall₂ Stands replaced.instructions (block.map (·.instruction)) →
      spills site.scratch call.descriptor.params = .ok (spilled, last) →
      Resolves pool (block.map (·.instruction)) (plan site call spilled) →
      block.head?.map (·.offset) = some (moved l.offset) →
      Becomes site targets pool moved l block

/-- Different offsets can be moved independently. -/
theorem exists_moved {read : List (Located Nat)} {blocks : List (List (Located Nat))}
    (hnodup : (read.map (·.offset)).Nodup)
    (h : List.Forall₂ (fun _ block => block ≠ []) read blocks) :
    ∃ moved : Nat → Nat, List.Forall₂
      (fun l block => block.head?.map (·.offset) = some (moved l.offset)) read blocks := by
  induction h with
  | nil => exact ⟨id, .nil⟩
  | @cons l block read blocks hne _ ih =>
    rw [List.map_cons, List.nodup_cons] at hnodup
    obtain ⟨moved, hmoved⟩ := ih hnodup.2
    obtain ⟨first, rest, rfl⟩ := List.exists_cons_of_ne_nil hne
    refine ⟨Function.update moved l.offset first.offset, .cons ?_ ?_⟩
    · rw [Function.update_self]
      rfl
    · have hother : ∀ l' ∈ read, l'.offset ≠ l.offset := by
        intro l' hl' hsame
        exact hnodup.1 (hsame ▸ List.mem_map_of_mem hl')
      refine ((List.forall₂_and_left _ _).mpr ⟨hother, hmoved⟩).imp fun l' block' h => ?_
      rw [Function.update_of_ne h.1]
      exact h.2

/-- The targets of an instruction are moved to where their labels are. -/
theorem kept_of_readsAs {moved : Nat → Nat} {l : Located Nat} {new : Located Label}
    {block : List (Located Nat)} {next : Nat} (hlabels : l.Labels labels new)
    (hplaces : ∀ target ∈ l.instruction.targets, ∀ label, labels.get? target = some label →
      places[label]? = some (moved target))
    (hshort : ∀ index, l.instruction = .ofConstant Opcode.ldc index → index < 256)
    (h : ReadsAs widening places (moved l.offset) new.instruction block next) :
    Kept moved l block := by
  obtain ⟨-, hnew⟩ := hlabels
  obtain ⟨hopcode, hoperand⟩ := Instruction.mapTargetsM_eq_some.mp hnew
  have hbranch {label : Label} (hlabel : new.instruction.operand = .branch label) :
      ∃ target, l.instruction.operand = .branch target ∧ places[label]? = some (moved target) := by
    rw [hlabel] at hoperand
    obtain ⟨target, htarget, hplace⟩ := Operand.mapTargetsM_eq_branch hoperand
    refine ⟨target, htarget, hplaces target ?_ label hplace⟩
    rw [Instruction.targets, htarget]
    exact List.mem_singleton_self target
  cases h with
  | same hread =>
    refine .same (Instruction.mapTargetsM_trans hnew hread fun target htarget label place hlabel hplace => ?_)
    rw [← hplace]
    exact (hplaces target htarget label hlabel).symm
  | @wideConstant index _ hconstant hlarge =>
    rw [hconstant] at hopcode hoperand
    have hldc : l.instruction = .ofConstant Opcode.ldc index := by
      obtain ⟨_, opcode, operand⟩ := l
      obtain rfl : Opcode.ldc = opcode := hopcode
      obtain rfl : operand = .constant index := Operand.mapTargetsM_eq_constant hoperand
      rfl
    have hsmall := UInt16.lt_iff_toNat_lt.mp (hshort index hldc)
    exact absurd hsmall (Nat.not_lt.mpr (UInt16.lt_iff_toNat_lt.mp hlarge))
  | wideJump hlabel hjump hplace =>
    obtain ⟨target, htarget, hmoved⟩ := hbranch hlabel
    rw [hplace] at hmoved
    cases hmoved
    rw [hopcode] at hjump
    exact .wideJump htarget hjump
  | inverted _ hlabel hinverse hplace =>
    obtain ⟨target, htarget, hmoved⟩ := hbranch hlabel
    rw [hplace] at hmoved
    cases hmoved
    rw [hopcode] at hinverse
    exact .inverted htarget hinverse

/-- Every instruction becomes its block. The places of the labels are those of the blocks, so
targets are moved as the instructions there are. -/
theorem exists_becomes {codeLength : Nat} {code : List UInt8} {read : List (Located Nat)}
    {found : List (Located Label)} {blocks : List (List (Located Nat))}
    (hstored : Format.Sequence (Located.Stored codeLength) 0 read code)
    (htargets : ∀ l ∈ read, ∀ target ∈ l.instruction.targets, ∃ l' ∈ read, l'.offset = target)
    (hlabels : List.Forall₂ (fun l new => l.Labels labels new) read found)
    (hblocks : List.Forall₂ (fun new block => ∃ first, block.head?.map (·.offset) = some first ∧
      (∀ label, labels.get? new.offset = some label → places[label]? = some first) ∧
      Placed site targets pool widening places first new.instruction block) found blocks) :
    ∃ moved, List.Forall₂ (Becomes site targets pool moved) read blocks := by
  have hall := forall₂_comp hlabels hblocks
  obtain ⟨moved, hmoved⟩ := exists_moved (nodup_offset_of_sequence hstored)
    (hall.imp fun l block h => by
      obtain ⟨new, -, first, hfirst, -, -⟩ := h
      intro hempty
      rw [hempty] at hfirst
      cases hfirst)
  have hboth := forall₂_and hall hmoved
  have hplaces : ∀ l ∈ read, ∀ target ∈ l.instruction.targets, ∀ label,
      labels.get? target = some label → places[label]? = some (moved target) := by
    intro l hl target htarget label hlabel
    obtain ⟨l', hl', rfl⟩ := htargets l hl target htarget
    obtain ⟨block, -, ⟨new, hnew, first, hfirst, hplace, -⟩, hstart⟩ := exists_of_mem_left hboth hl'
    rw [hfirst] at hstart
    rw [← hstart]
    exact hplace label (hnew.1 ▸ hlabel)
  refine ⟨moved, ((List.forall₂_and_left _ _).mpr ⟨fun l hl => hl, hboth⟩).imp fun l block h => ?_⟩
  obtain ⟨hl, ⟨new, hnew, first, hfirst, -, hplaced⟩, hstart⟩ := h
  obtain rfl : first = moved l.offset := Option.some.inj (hfirst.symm.trans hstart)
  have htarget : isTarget pool targets new.instruction = isTarget pool targets l.instruction :=
    isTarget_mapTargetsM hnew.2
  cases hplaced with
  | kept hnot hreads =>
    exact .kept (htarget.symm.trans hnot) (kept_of_readsAs hnew (hplaces l hl)
      (index_lt_of_sequence hstored l hl) hreads)
  | redirected hcall hcalls hsequence hgrows hstands =>
    obtain ⟨-, hyields⟩ := yields_sequence _ _ _ _ _ hsequence
    obtain ⟨spilled, last, hspills, -, hresolves⟩ := hyields pool hgrows
    exact .redirected (htarget.symm.trans hcall) (hcalls.mapTargetsM hnew.2) hsequence hgrows hstands
      hspills (resolves_of_stands hresolves hstands) hstart

end Blocks

end ClassPatch.Redirect
