import Mathlib
import ClassPatch.Proofs.Code.Layout

/-!
# Scanned code

Code whose branches may lead to its end as well as to its instructions. Nodes are laid out as such
code whatever their branches lead to: a label after the last instruction has a place too.
-/

namespace ClassPatch.Code

open Bytes Bytes.Reader

/-- The instructions of bytecode, in which a branch may lead to the end of the code. -/
def scan (code : List UInt8) : Except Error (List (Located Nat)) :=
  (readInstructions (code.length + 1) [] code.length).runOn code

theorem scan_eq_ok {code : List UInt8} {ls : List (Located Nat)} :
    scan code = .ok ls ↔ Format.Sequence (Located.Stored (code.length + 1)) 0 ls code :=
  runOn_readInstructions_eq_ok

/-- In other code an operand is stored alike, if its targets are in that code. -/
theorem Operand.Stored.within {codeLength codeLength' offset pos : Nat} {layout : OperandLayout}
    {operand : Operand Nat} {data : List UInt8}
    (h : Operand.Stored codeLength offset layout pos operand data)
    (htargets : ∀ target ∈ operand.targets, target < codeLength') :
    Operand.Stored codeLength' offset layout pos operand data := by
  cases h with
  | branch hreach => exact .branch ⟨htargets _ (List.mem_singleton_self _), hreach.2⟩
  | branchWide hreach => exact .branchWide ⟨htargets _ (List.mem_singleton_self _), hreach.2⟩
  | tableSwitch hpad hfallback hbounds hcount hreach =>
    obtain ⟨hfirst, hrest⟩ := List.forall_mem_cons.mp htargets
    exact .tableSwitch hpad ⟨hfirst, hfallback.2⟩ hbounds hcount fun target htarget =>
      ⟨hrest target htarget, (hreach target htarget).2⟩
  | lookupSwitch hpad hfallback hcount hreach =>
    obtain ⟨hfirst, hrest⟩ := List.forall_mem_cons.mp htargets
    exact .lookupSwitch hpad ⟨hfirst, hfallback.2⟩ hcount fun pair hpair =>
      ⟨hrest pair.2 (List.mem_map_of_mem hpair), (hreach pair hpair).2⟩
  | plain => exact .plain
  | byte => exact .byte
  | short => exact .short
  | arrayType => exact .arrayType
  | slot => exact .slot
  | increment => exact .increment
  | constantByte => exact .constantByte
  | constant => exact .constant
  | interface hreserved => exact .interface hreserved
  | dynamic hreserved => exact .dynamic hreserved
  | multiArray => exact .multiArray

theorem Located.Stored.within {codeLength codeLength' pos : Nat} {l : Located Nat}
    {data : List UInt8} (h : Located.Stored codeLength pos l data)
    (htargets : ∀ target ∈ l.instruction.targets, target < codeLength') :
    Located.Stored codeLength' pos l data := by
  obtain ⟨offset, instruction⟩ := l
  refine ⟨h.1, ?_⟩
  cases h.2 with
  | short hlayout hne hoperand => exact .short hlayout hne (hoperand.within htargets)
  | wideSlot hlayout => exact .wideSlot hlayout
  | wideIncrement hlayout => exact .wideIncrement hlayout

theorem sequence_within {codeLength codeLength' pos : Nat} {read : List (Located Nat)}
    {data : List UInt8} (h : Format.Sequence (Located.Stored codeLength) pos read data)
    (htargets : ∀ l ∈ read, ∀ target ∈ l.instruction.targets, target < codeLength') :
    Format.Sequence (Located.Stored codeLength') pos read data := by
  induction h with
  | nil => exact .nil
  | cons hfirst _ ih =>
    obtain ⟨hhead, hrest⟩ := List.forall_mem_cons.mp htargets
    exact .cons (hfirst.within hhead) (ih hrest)

/-- Code whose branches lead to its instructions is scanned as it is taken apart. -/
theorem scan_of_disassemble {code : List UInt8} {read : List (Located Nat)}
    (h : disassemble code = .ok read) : scan code = .ok read := by
  have hseq := disassemble_eq_ok.mp h
  exact scan_eq_ok.mpr (sequence_within hseq fun l hl target htarget =>
    Nat.lt_succ_of_lt (target_lt_of_sequence hseq l hl target htarget))

/-- Scanned code can be taken apart unless one of its branches leads to its end. -/
theorem disassemble_iff_of_scan {code : List UInt8} {read : List (Located Nat)}
    (h : scan code = .ok read) :
    disassemble code = .ok read ↔ ∀ l ∈ read, code.length ∉ l.instruction.targets := by
  have hseq := scan_eq_ok.mp h
  rw [disassemble_eq_ok]
  constructor
  · intro hread l hl hend
    exact Nat.lt_irrefl _ (target_lt_of_sequence hread l hl _ hend)
  · intro hinside
    refine sequence_within hseq fun l hl target htarget => ?_
    have hle := Nat.le_of_lt_succ (target_lt_of_sequence hseq l hl target htarget)
    exact Nat.lt_of_le_of_ne hle fun hend => hinside l hl (hend ▸ htarget)

theorem scan_encodeWith {widening : BranchWidening} {nodes : List Node} {result : Assembled}
    (h : encodeWith widening nodes = .ok result) :
    ∃ read, scan result.code = .ok read ∧
      LaidOut widening result.places 0 nodes read result.code.length := by
  obtain ⟨plan, pieces, hsettled⟩ := encodeWith_eq_ok h
  obtain rfl := hsettled.nodes_eq
  have hin : ∀ i, .instruction i ∈ plan.map (·.node) →
      TargetsInside result.places (result.code.length + 1) i := by
    intro i _ target _ place hplace
    obtain ⟨place', hplace', hle⟩ := place_le_of_emitted hsettled.emitted
      (hsettled.label_mem target place hplace)
    rw [hplace] at hplace'
    cases hplace'
    exact Nat.lt_succ_of_le hle
  obtain ⟨read, hread, hseq⟩ := laidOut_of_emitted hsettled.emitted hsettled.resolved
    (Nat.le_succ _) hsettled.allowed hin fun hend => absurd hend (Nat.ne_of_lt (Nat.lt_succ_self _))
  exact ⟨read, scan_eq_ok.mpr hseq, hread⟩

/-- Branches lead to the places of labels, or, if conditional branches are widened, past the jump of
a widened one. -/
theorem target_of_laidOut {widening : BranchWidening} {places : Places} {start stop : Nat}
    {nodes : List Node} {read : List (Located Nat)}
    (h : LaidOut widening places start nodes read stop) :
    ∀ l ∈ read, ∀ target ∈ l.instruction.targets, (∃ label : Label, places[label]? = some target) ∨
      widening = .all ∧ (target = stop ∨ ∃ l' ∈ read, l'.offset = target) := by
  induction h with
  | nil =>
    intro l hl
    cases hl
  | label _ _ ih => exact ih
  | @instruction start next stop i nodes block read hblock hrest ih =>
    have hnext : next = stop ∨ ∃ l' ∈ read, l'.offset = next := by
      have hstart := hrest.start_eq
      cases hread : read with
      | nil =>
        rw [hread] at hstart
        exact .inl hstart
      | cons l' rest =>
        rw [hread] at hstart
        exact .inr ⟨l', List.mem_cons_self, hstart.symm⟩
    intro l hl target htarget
    rcases List.mem_append.mp hl with hl | hl
    · cases hblock with
      | same hread =>
        obtain rfl := List.mem_singleton.mp hl
        obtain ⟨label, -, hplace⟩ :=
          exists_of_mem_right (Instruction.mapTargetsM_targets hread) htarget
        exact .inl ⟨label, hplace⟩
      | wideConstant =>
        obtain rfl := List.mem_singleton.mp hl
        cases htarget
      | wideJump _ _ hplace =>
        obtain rfl := List.mem_singleton.mp hl
        obtain rfl := List.mem_singleton.mp htarget
        exact .inl ⟨_, hplace⟩
      | inverted hall _ _ hplace =>
        simp only [List.mem_cons, List.not_mem_nil, or_false] at hl
        rcases hl with rfl | rfl
        · obtain rfl := List.mem_singleton.mp htarget
          refine .inr ⟨hall, hnext.imp id fun h => ?_⟩
          obtain ⟨l', hl', hoffset⟩ := h
          exact ⟨l', List.mem_append_right _ hl', hoffset⟩
        · obtain rfl := List.mem_singleton.mp htarget
          exact .inl ⟨_, hplace⟩
    · refine (ih l hl target htarget).imp id fun h => ⟨h.1, h.2.imp id fun h => ?_⟩
      obtain ⟨l', hl', hoffset⟩ := h
      exact ⟨l', List.mem_append_right _ hl', hoffset⟩

/-- Nodes without instructions are read as nothing, and no others are. -/
theorem lastInstruction?_eq_none_of_laidOut {widening : BranchWidening} {places : Places}
    {start stop : Nat} {nodes : List Node} (h : LaidOut widening places start nodes [] stop) :
    lastInstruction? nodes = none := by
  generalize hread : ([] : List (Located Nat)) = read at h
  induction h with
  | nil => rfl
  | label _ _ ih => exact ih hread
  | instruction hblock _ _ =>
    have hempty := (List.append_eq_nil_iff.mp hread.symm).1
    cases hblock <;> cases hempty

/-- Branches lead into the code where those of the nodes do, unless the last instruction is a
conditional branch that may be widened. -/
theorem target_lt_of_laidOut {widening : BranchWidening} {places : Places} {start stop : Nat}
    {nodes : List Node} {read : List (Located Nat)}
    (h : LaidOut widening places start nodes read stop)
    (hin : ∀ i, .instruction i ∈ nodes → TargetsInside places stop i)
    (hoffsets : ∀ l ∈ read, l.offset < stop)
    (hlast : widening = .all → ∀ i ∈ lastInstruction? nodes, Opcode.inverse? i.opcode = none) :
    ∀ l ∈ read, ∀ target ∈ l.instruction.targets, target < stop := by
  induction h with
  | nil =>
    intro l hl
    cases hl
  | label _ _ ih => exact ih (fun i hi => hin i (List.mem_cons_of_mem _ hi)) hoffsets hlast
  | @instruction start next stop i nodes block read hblock hrest ih =>
    have hinside := hin i List.mem_cons_self
    rw [lastInstruction?_cons] at hlast
    intro l hl target htarget
    rcases List.mem_append.mp hl with hl | hl
    · cases hblock with
      | same hread =>
        obtain rfl := List.mem_singleton.mp hl
        obtain ⟨label, hlabel, hplace⟩ :=
          exists_of_mem_right (Instruction.mapTargetsM_targets hread) htarget
        exact hinside label hlabel target hplace
      | wideConstant =>
        obtain rfl := List.mem_singleton.mp hl
        cases htarget
      | @wideJump jump label place _ hoperand _ hplace =>
        obtain rfl := List.mem_singleton.mp hl
        obtain rfl := List.mem_singleton.mp htarget
        exact hinside label (by simp [Instruction.targets, hoperand, Operand.targets]) _ hplace
      | @inverted inverse label place hall hoperand hinverse hplace =>
        simp only [List.mem_cons, List.not_mem_nil, or_false] at hl
        rcases hl with rfl | rfl
        · obtain rfl := List.mem_singleton.mp htarget
          -- there is an instruction to lead to, as the condition is not the last one
          have hstart := hrest.start_eq
          cases hread : read with
          | nil =>
            rw [hread] at hrest
            rw [lastInstruction?_eq_none_of_laidOut hrest] at hlast
            rw [hlast hall i rfl] at hinverse
            cases hinverse
          | cons l' rest =>
            rw [hread] at hstart
            exact hstart ▸ hoffsets l' (by simp [hread])
        · obtain rfl := List.mem_singleton.mp htarget
          exact hinside label (by simp [Instruction.targets, hoperand, Operand.targets]) _ hplace
    · refine ih (fun i hi => hin i (List.mem_cons_of_mem _ hi))
        (fun l hl => hoffsets l (List.mem_append_right _ hl)) (fun hall j hj => ?_) l hl target
        htarget
      exact hlast hall j (by rw [Option.mem_def.mp hj]; rfl)

end ClassPatch.Code
