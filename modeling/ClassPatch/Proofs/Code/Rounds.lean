import Mathlib
import ClassPatch.Proofs.Code.Assembly
import ClassPatch.Proofs.Code.Disassembly
import ClassPatch.Proofs.Code.Faults

/-!
# Rounds of a layout

The layout as the loop that it is: a round assembles the plan and either finds that every branch
reaches, or gives the plan of the next round. Offsets may move in both directions from one round to
the next, as padding takes up what wide branches need, so neither they nor the size of the code
measure how far the layout has come. What does are the short branches that are not wide yet: only
they can fail to reach, and all that do are wide from then on.
-/

namespace ClassPatch.Code

/-! ## Short branches -/

/-- A branch whose offset has two bytes. -/
def Node.isShortBranch : Node → Bool
  | .instruction ⟨opcode, .branch _⟩ => Opcode.layout? opcode = some .branch
  | _ => false

/-- A branch that can take its wide form in a later round. -/
def PlannedNode.isOpen (p : PlannedNode) : Bool := !p.wide && p.node.isShortBranch

theorem exists_offset16_of_overflows {places : Places} {piece : Piece}
    (h : piece.overflows places = true) : ∃ target origin, piece = .offset16 target origin := by
  cases piece with
  | offset16 target origin => exact ⟨target, origin, rfl⟩
  | bytes data => cases h
  | offset32 target origin => cases h

theorem isShortBranch_of_mem_pieces {i : Instruction Label} {start origin : Nat} {target : Label}
    {pieces : List Piece} (h : i.pieces start = .ok pieces)
    (hmem : .offset16 target origin ∈ pieces) : (Node.instruction i).isShortBranch = true := by
  cases emits_of_pieces h with
  | branch hlayout hoperand =>
    obtain ⟨opcode, operand⟩ := i
    cases hoperand
    exact decide_eq_true hlayout
  | _ => simp at hmem

theorem isOpen_of_mem_pieces {p : PlannedNode} {start origin : Nat} {target : Label}
    {pieces : List Piece} (h : p.pieces start = .ok pieces)
    (hmem : .offset16 target origin ∈ pieces) : p.isOpen = true := by
  obtain ⟨node, wide⟩ := p
  cases node with
  | label label =>
    cases h
    cases hmem
  | instruction i =>
    cases wide with
    | false => exact isShortBranch_of_mem_pieces h hmem
    | true =>
      rcases widePieces_cases h with
        ⟨_, _, -, -, rfl⟩ | ⟨_, _, -, -, -, rfl⟩ | ⟨hoperand, hpieces⟩
      · simp at hmem
      · simp at hmem
      · have hshort := isShortBranch_of_mem_pieces hpieces hmem
        unfold Node.isShortBranch at hshort
        split at hshort
        · rename_i hbranch
          cases hbranch
          exact (hoperand _ rfl).elim
        · cases hshort

section

variable {places : Places} {start stop : Nat} {plan : List PlannedNode} {pieces : List (List Piece)}

/-- Only a short branch that is not wide yet can fail to reach. -/
theorem Emitted.isOpen_of_overflows (h : Emitted places start plan pieces stop) {final : Places}
    {c : CheckedNode} (hc : c ∈ checkPlan plan pieces final) (hoverflows : c.overflows = true) :
    c.planned.isOpen = true := by
  have hnode {p : PlannedNode} {ps : List Piece} {origin : Nat} (hpieces : p.pieces origin = .ok ps)
      (hany : ps.any (Piece.overflows final) = true) : p.isOpen = true := by
    obtain ⟨piece, hmem, hpiece⟩ := List.any_eq_true.mp hany
    obtain ⟨target, origin, rfl⟩ := exists_offset16_of_overflows hpiece
    exact isOpen_of_mem_pieces hpieces hmem
  induction h with
  | nil => cases hc
  | label _ _ ih =>
    rcases List.mem_cons.mp hc with rfl | hc
    · cases hoverflows
    · exact ih hc
  | instruction hfront _ ih =>
    rcases List.mem_cons.mp hc with rfl | hc
    · exact hnode hfront hoverflows
    · exact ih hc

/-- The branches that are wide from now on are those that failed to reach. -/
theorem countP_next {checked : List CheckedNode} (counted : Node → Bool)
    (hopen : ∀ c ∈ checked, c.overflows = true →
      (!c.planned.wide && counted c.planned.node) = true) :
    (checked.map CheckedNode.next).countP (fun p => !p.wide && counted p.node) +
        checked.countP (·.overflows) =
      (checked.map CheckedNode.planned).countP fun p => !p.wide && counted p.node := by
  induction checked with
  | nil => rfl
  | cons c checked ih =>
    obtain ⟨hhead, hrest⟩ := List.forall_mem_cons.mp hopen
    have ih := ih hrest
    obtain ⟨⟨node, wide⟩, overflows⟩ := c
    simp only [List.map_cons, List.countP_cons, CheckedNode.next] at ih ⊢
    cases overflows with
    | false =>
      rw [Bool.or_false, if_neg Bool.false_ne_true]
      omega
    | true =>
      rw [if_pos (hhead rfl), Bool.or_true, if_pos rfl, if_neg (by simp)]
      omega

end

/-! ## One round -/

theorem checkPlan_nodes {plan : List PlannedNode} {pieces : List (List Piece)}
    (hlen : plan.length = pieces.length) (places : Places) :
    (checkPlan plan pieces places).map CheckedNode.planned = plan := by
  unfold checkPlan
  rw [List.map_map]
  exact List.map_fst_zip hlen.le

/-- Only branches that may be widened take their wide form. -/
def PlannedNode.Allowed (widening : BranchWidening) (p : PlannedNode) : Prop :=
  ∀ i, p.node = .instruction i → p.wide = true → widening.covers i.opcode = true

/-- A branch that is widened next was wide already or may be widened. -/
theorem allowed_next {widening : BranchWidening} {c : CheckedNode}
    (hplanned : c.planned.Allowed widening) (hrefusal : c.refusal? widening = none) :
    c.next.Allowed widening := by
  intro i hnode hwide
  cases hold : c.planned.wide with
  | true => exact hplanned i hnode hold
  | false =>
    have hoverflows : c.overflows = true := by simpa [CheckedNode.next, hold] using hwide
    have hplannedNode : c.planned.node = .instruction i := hnode
    rw [CheckedNode.refusal?, hplannedNode] at hrefusal
    simpa [hoverflows] using hrefusal

/-- A round of the layout: the assembled code if every branch reaches, the plan of the next round
otherwise. -/
def round (widening : BranchWidening) (plan : List PlannedNode) :
    Except Error (Assembler ⊕ List PlannedNode) := do
  let (pieces, a) ← assemblePlan plan
  let checked := checkPlan plan pieces a.places
  match checked.findSome? (·.refusal? widening) with
  | some fault => refuse fault
  | none => return if checked.any (·.overflows) then .inr (checked.map CheckedNode.next) else .inl a

/-- The short branches of a plan that are not wide. -/
def openCount (plan : List PlannedNode) : Nat := plan.countP PlannedNode.isOpen

/-- How a round of the layout ends: nodes cannot be assembled, a branch that does not reach may not be
widened, every branch reaches, or those that do not are wide in the next round. -/
inductive RoundEnds (widening : BranchWidening) (plan : List PlannedNode) :
    Except Error (Assembler ⊕ List PlannedNode) → Prop
  | unassembled {e : Error} : assemblePlan plan = .error e → RoundEnds widening plan (.error e)
  | refused {pieces : List (List Piece)} {a : Assembler} {fault : RewriteFault} :
      assemblePlan plan = .ok (pieces, a) →
      (checkPlan plan pieces a.places).findSome? (·.refusal? widening) = some fault →
      RoundEnds widening plan (refuse fault)
  | reached {pieces : List (List Piece)} {a : Assembler} :
      assemblePlan plan = .ok (pieces, a) →
      (∀ c ∈ checkPlan plan pieces a.places, c.overflows = false) →
      RoundEnds widening plan (.ok (.inl a))
  | widened {pieces : List (List Piece)} {a : Assembler} :
      assemblePlan plan = .ok (pieces, a) →
      (∀ c ∈ checkPlan plan pieces a.places, c.refusal? widening = none) →
      (∃ c ∈ checkPlan plan pieces a.places, c.overflows = true) →
      RoundEnds widening plan (.ok (.inr ((checkPlan plan pieces a.places).map CheckedNode.next)))

section

variable {widening : BranchWidening} {plan next : List PlannedNode}

theorem CheckedNode.refusal?_of_reaching (widening : BranchWidening) {c : CheckedNode}
    (h : c.overflows = false) : c.refusal? widening = none := by
  rw [refusal?, h]
  cases c.planned.node <;> rfl

theorem roundEnds (widening : BranchWidening) (plan : List PlannedNode) :
    RoundEnds widening plan (round widening plan) := by
  unfold round
  cases hassemble : assemblePlan plan with
  | error e => exact .unassembled hassemble
  | ok assembled =>
    obtain ⟨pieces, a⟩ := assembled
    show RoundEnds widening plan (match (checkPlan plan pieces a.places).findSome?
      (·.refusal? widening) with
      | some fault => refuse fault
      | none => .ok (if (checkPlan plan pieces a.places).any (·.overflows) then
          .inr ((checkPlan plan pieces a.places).map CheckedNode.next) else .inl a))
    cases hrefusal : (checkPlan plan pieces a.places).findSome? (·.refusal? widening) with
    | some fault => exact .refused hassemble hrefusal
    | none =>
      dsimp only
      split
      · rename_i hany
        exact .widened hassemble (List.findSome?_eq_none_iff.mp hrefusal) (List.any_eq_true.mp hany)
      · rename_i hnone
        refine .reached hassemble fun c hc => ?_
        rw [Bool.not_eq_true, List.any_eq_false] at hnone
        exact Bool.eq_false_iff.mpr (hnone c hc)

/-- A round ends in one way only. -/
theorem RoundEnds.round_eq {outcome : Except Error (Assembler ⊕ List PlannedNode)}
    (h : RoundEnds widening plan outcome) : round widening plan = outcome := by
  unfold round
  cases h with
  | unassembled hassemble =>
    rw [hassemble]
    rfl
  | refused hassemble hrefusal =>
    rw [hassemble]
    dsimp only [bind, Except.bind]
    rw [hrefusal]
  | reached hassemble hreach =>
    have hnone := List.findSome?_eq_none_iff.mpr fun c hc =>
      CheckedNode.refusal?_of_reaching widening (hreach c hc)
    rw [hassemble]
    dsimp only [bind, Except.bind]
    rw [hnone]
    dsimp only
    rw [if_neg (by simpa using hreach)]
    rfl
  | widened hassemble hrefusal hoverflow =>
    rw [hassemble]
    dsimp only [bind, Except.bind]
    rw [List.findSome?_eq_none_iff.mpr hrefusal]
    dsimp only
    rw [if_pos (List.any_eq_true.mpr hoverflow)]
    rfl

theorem round_eq_iff {outcome : Except Error (Assembler ⊕ List PlannedNode)} :
    round widening plan = outcome ↔ RoundEnds widening plan outcome :=
  ⟨fun h => h ▸ roundEnds widening plan, RoundEnds.round_eq⟩

theorem allowed_of_round (h : round widening plan = .ok (.inr next))
    (hplan : ∀ p ∈ plan, p.Allowed widening) : ∀ p ∈ next, p.Allowed widening := by
  cases round_eq_iff.mp h with
  | @widened pieces a hassemble hrefusal _ =>
    intro p hp
    obtain ⟨c, hc, rfl⟩ := List.mem_map.mp hp
    refine allowed_next (hplan _ ?_) (hrefusal c hc)
    rw [← checkPlan_nodes (assemblePlan_eq_ok hassemble).emitted.length_eq a.places]
    exact List.mem_map_of_mem hc

/-- The next plan has the same nodes, and fewer of its branches are still short. -/
theorem openCount_lt_of_round (h : round widening plan = .ok (.inr next)) :
    next.map (·.node) = plan.map (·.node) ∧ openCount next < openCount plan ∧
      shortCount next < shortCount plan := by
  cases round_eq_iff.mp h with
  | @widened pieces a hassemble _ hoverflow =>
    have hemitted := (assemblePlan_eq_ok hassemble).emitted
    have hplan := checkPlan_nodes hemitted.length_eq a.places
    have hopen (c : CheckedNode) (hc : c ∈ checkPlan plan pieces a.places)
        (hoverflows : c.overflows = true) := hemitted.isOpen_of_overflows hc hoverflows
    -- the same count over short branches and over all nodes, which is what the layout stops by
    have hsome : 0 < (checkPlan plan pieces a.places).countP (·.overflows) :=
      List.countP_pos_iff.mpr hoverflow
    have hbranches := countP_next Node.isShortBranch hopen
    change openCount _ + _ = openCount _ at hbranches
    have hnodes := countP_next (fun _ => true) fun c hc hoverflows => by
      have hwide := hopen c hc hoverflows
      simp only [PlannedNode.isOpen, Bool.and_eq_true] at hwide
      simpa using hwide.1
    rw [hplan] at hbranches hnodes
    simp only [Bool.and_true] at hnodes
    refine ⟨?_, ?_, ?_⟩
    · conv => rhs; rw [← hplan]
      rw [List.map_map, List.map_map]
      rfl
    · omega
    · simp only [shortCount]
      omega

/-- A round in which every branch reaches is the last one. -/
theorem settle_of_reaching {pieces : List (List Piece)} {a : Assembler}
    (hassemble : assemblePlan plan = .ok (pieces, a))
    (hreach : ∀ c ∈ checkPlan plan pieces a.places, c.overflows = false) :
    settle widening plan = a.finish := by
  have hlength := (assemblePlan_eq_ok hassemble).emitted.length_eq
  have hrefusal : (checkPlan plan pieces a.places).findSome? (·.refusal? widening) = none :=
    List.findSome?_eq_none_iff.mpr fun c hc => CheckedNode.refusal?_of_reaching widening (hreach c hc)
  have hnext : (checkPlan plan pieces a.places).map CheckedNode.next = plan := by
    conv => rhs; rw [← checkPlan_nodes hlength a.places]
    refine List.map_congr_left fun c hc => ?_
    rw [CheckedNode.next, hreach c hc, Bool.or_false]
  rw [settle, hassemble]
  dsimp only [bind, Except.bind]
  rw [hrefusal]
  dsimp only
  rw [hnext, if_neg (Nat.lt_irrefl _)]

/-- The layout is its first round, and then what that round leaves to do. -/
theorem settle_eq_round (widening : BranchWidening) (plan : List PlannedNode) :
    settle widening plan = round widening plan >>= fun
      | .inl a => a.finish
      | .inr next => settle widening next := by
  generalize hround : round widening plan = outcome
  cases round_eq_iff.mp hround with
  | unassembled hassemble =>
    rw [settle, hassemble]
    rfl
  | refused hassemble hrefusal =>
    rw [settle, hassemble]
    dsimp only [bind, Except.bind]
    rw [hrefusal]
    rfl
  | reached hassemble hreach => exact settle_of_reaching hassemble hreach
  | widened hassemble hrefusal _ =>
    rw [settle, hassemble]
    dsimp only [bind, Except.bind]
    rw [List.findSome?_eq_none_iff.mpr hrefusal]
    dsimp only
    rw [if_pos (openCount_lt_of_round hround).2.2]

end

/-! ## All rounds -/

/-- The nodes in their short forms, as the first round has them. -/
def shortPlan (nodes : List Node) : List PlannedNode := nodes.map (⟨·, false⟩)

theorem map_node_shortPlan (nodes : List Node) : (shortPlan nodes).map (·.node) = nodes := by
  rw [shortPlan, List.map_map]
  exact List.map_id nodes

theorem openCount_shortPlan (nodes : List Node) :
    openCount (shortPlan nodes) = nodes.countP Node.isShortBranch := by
  rw [openCount, shortPlan, List.countP_map]
  rfl

theorem allowed_shortPlan (widening : BranchWidening) (nodes : List Node) :
    ∀ p ∈ shortPlan nodes, p.Allowed widening := by
  intro p hp i _ hwide
  obtain ⟨node, -, rfl⟩ := List.mem_map.mp hp
  cases hwide

/-- The rounds of the layout of a plan: their number, and the code that the last of them assembled
or its error. -/
inductive Rounds (widening : BranchWidening) :
    Nat → List PlannedNode → Except Error Assembler → Prop
  | failed {plan : List PlannedNode} {e : Error} :
      round widening plan = .error e → Rounds widening 1 plan (.error e)
  | reached {plan : List PlannedNode} {a : Assembler} :
      round widening plan = .ok (.inl a) → Rounds widening 1 plan (.ok a)
  | widened {n : Nat} {plan next : List PlannedNode} {outcome : Except Error Assembler} :
      round widening plan = .ok (.inr next) → Rounds widening n next outcome →
      Rounds widening (n + 1) plan outcome

section

variable {widening : BranchWidening} {n : Nat} {plan : List PlannedNode}
  {outcome : Except Error Assembler}

/-- The rounds come to an end: each but the last makes a short branch wide, and none makes a wide
one short. -/
theorem exists_rounds (widening : BranchWidening) (plan : List PlannedNode) :
    ∃ n outcome, Rounds widening n plan outcome := by
  generalize hcount : openCount plan = count
  induction count using Nat.strongRecOn generalizing plan with
  | ind count ih =>
    cases hround : round widening plan with
    | error e => exact ⟨1, .error e, .failed hround⟩
    | ok result =>
      cases result with
      | inl a => exact ⟨1, .ok a, .reached hround⟩
      | inr next =>
        obtain ⟨-, hless, -⟩ := openCount_lt_of_round hround
        obtain ⟨n, outcome, hrounds⟩ := ih _ (hcount ▸ hless) next rfl
        exact ⟨n + 1, outcome, .widened hround hrounds⟩

theorem Rounds.le_openCount (h : Rounds widening n plan outcome) : n ≤ openCount plan + 1 := by
  induction h with
  | failed _ => exact Nat.le_add_left 1 _
  | reached _ => exact Nat.le_add_left 1 _
  | widened hround _ ih =>
    obtain ⟨-, hless, -⟩ := openCount_lt_of_round hround
    omega

/-- The layout finishes the code of its last round. -/
theorem Rounds.settle_eq (h : Rounds widening n plan outcome) :
    settle widening plan = outcome >>= Assembler.finish := by
  induction h with
  | failed hround =>
    rw [settle_eq_round, hround]
    rfl
  | reached hround =>
    rw [settle_eq_round, hround]
    rfl
  | widened hround _ ih =>
    rw [settle_eq_round, hround]
    exact ih

/-- Assembled code is that of a plan for the same nodes in which every branch reaches, and only
branches that may be widened are wide. -/
theorem Rounds.exists_last {a : Assembler} (h : Rounds widening n plan (.ok a))
    (hplan : ∀ p ∈ plan, p.Allowed widening) :
    ∃ last pieces, last.map (·.node) = plan.map (·.node) ∧ (∀ p ∈ last, p.Allowed widening) ∧
      assemblePlan last = .ok (pieces, a) ∧
      ∀ c ∈ checkPlan last pieces a.places, c.overflows = false := by
  generalize houtcome : Except.ok a = outcome at h
  induction h with
  | failed _ => cases houtcome
  | @reached plan a' hround =>
    cases houtcome
    cases round_eq_iff.mp hround with
    | reached hassemble hreach => exact ⟨plan, _, rfl, hplan, hassemble, hreach⟩
  | widened hround _ ih =>
    obtain ⟨last, pieces, hnodes, hrest⟩ := ih (allowed_of_round hround hplan) houtcome
    exact ⟨last, pieces, hnodes.trans (openCount_lt_of_round hround).1, hrest⟩

/-- A layout is that of one plan for the nodes in which only branches that may be widened
are wide. -/
theorem settle_eq_ok {result : Assembled} (h : settle widening plan = .ok result)
    (hplan : ∀ p ∈ plan, p.Allowed widening) :
    ∃ plan' pieces a, plan'.map (·.node) = plan.map (·.node) ∧
      (∀ p ∈ plan', p.Allowed widening) ∧ assemblePlan plan' = .ok (pieces, a) ∧
      a.finish = .ok result := by
  obtain ⟨n, outcome, hrounds⟩ := exists_rounds widening plan
  rw [hrounds.settle_eq] at h
  obtain ⟨a, rfl, hfinish⟩ := Success.except_bind.mp h
  obtain ⟨last, pieces, hnodes, hallowed, hassemble, -⟩ := hrounds.exists_last hplan
  exact ⟨last, pieces, a, hnodes, hallowed, hassemble, hfinish⟩

end

/-! ## Refusals -/

/-- Every short branch has a wide form. -/
theorem covers_of_isShortBranch {i : Instruction Label}
    (h : (Node.instruction i).isShortBranch = true) : BranchWidening.all.covers i.opcode = true := by
  unfold Node.isShortBranch at h
  split at h
  · rename_i opcode target heq
    cases heq
    exact forall_opcode (P := fun opcode => Opcode.layout? opcode = some .branch →
      BranchWidening.all.covers opcode = true) (by decide +kernel) opcode (of_decide_eq_true h)
  · cases h

theorem CheckedNode.refusal?_all {c : CheckedNode}
    (hopen : c.overflows = true → c.planned.isOpen = true) : c.refusal? .all = none := by
  cases hoverflows : c.overflows with
  | false => exact refusal?_of_reaching .all hoverflows
  | true =>
    have hopen := hopen hoverflows
    rw [PlannedNode.isOpen, Bool.and_eq_true] at hopen
    unfold refusal?
    split
    · rename_i i hnode
      rw [hnode] at hopen
      rw [covers_of_isShortBranch hopen.2, Bool.not_true, Bool.and_false, if_neg Bool.false_ne_true]
    · rfl

theorem eq_unwidenable_of_refusal? {widening : BranchWidening} {c : CheckedNode}
    {fault : RewriteFault} (h : c.refusal? widening = some fault) :
    ∃ opcode, fault = .unwidenable opcode := by
  unfold CheckedNode.refusal? at h
  split at h
  · split at h
    · cases h
      exact ⟨_, rfl⟩
    · cases h
  · cases h

/-- Where all branches may be widened, a round only fails to assemble. -/
theorem assemblePlan_of_round_all {plan : List PlannedNode} {e : Error}
    (h : round .all plan = .error e) : assemblePlan plan = .error e := by
  cases round_eq_iff.mp h with
  | unassembled hassemble => exact hassemble
  | refused hassemble hrefusal =>
    obtain ⟨c, hc, hfault⟩ := List.exists_of_findSome?_eq_some hrefusal
    rw [CheckedNode.refusal?_all fun hoverflows =>
      (assemblePlan_eq_ok hassemble).emitted.isOpen_of_overflows hc hoverflows] at hfault
    cases hfault

/-- A round fails to assemble, or refuses to widen a branch. -/
theorem fault_of_round {widening : BranchWidening} {plan : List PlannedNode} {e : Error}
    (h : round widening plan = .error e) : e.ofAssembly = true ∨
      widening ≠ .all ∧ ∃ opcode, e = .rewriteFailed (.unwidenable opcode) := by
  cases round_eq_iff.mp h with
  | unassembled hassemble => exact .inl (ofAssembly_of_assemblePlan hassemble)
  | refused hassemble hrefusal =>
    obtain ⟨c, -, hfault⟩ := List.exists_of_findSome?_eq_some hrefusal
    obtain ⟨opcode, rfl⟩ := eq_unwidenable_of_refusal? hfault
    refine .inr ⟨?_, opcode, rfl⟩
    rintro rfl
    have hfail := assemblePlan_of_round_all h
    rw [hassemble] at hfail
    cases hfail

theorem Rounds.fault {widening : BranchWidening} {n : Nat} {plan : List PlannedNode} {e : Error}
    (h : Rounds widening n plan (.error e)) : e.ofAssembly = true ∨
      widening ≠ .all ∧ ∃ opcode, e = .rewriteFailed (.unwidenable opcode) := by
  generalize houtcome : Except.error e = outcome at h
  induction h with
  | failed hround =>
    cases houtcome
    exact fault_of_round hround
  | reached _ => cases houtcome
  | widened _ _ ih => exact ih houtcome

theorem fault_of_encodeWith {widening : BranchWidening} {nodes : List Node} {e : Error}
    (h : encodeWith widening nodes = .error e) : e.ofAssembly = true ∨
      widening ≠ .all ∧ ∃ opcode, e = .rewriteFailed (.unwidenable opcode) := by
  obtain ⟨n, outcome, hrounds⟩ := exists_rounds widening (shortPlan nodes)
  have hsettle := hrounds.settle_eq.symm.trans h
  rcases Success.except_bind_eq_error.mp hsettle with rfl | ⟨a, -, hfinish⟩
  · exact hrounds.fault
  · exact .inl (ofAssembly_of_finish hfinish)

/-- Nodes are never refused because of a stack map. -/
theorem aboutFrames_of_encodeWith {widening : BranchWidening} {nodes : List Node} {e : Error}
    (h : encodeWith widening nodes = .error e) : e.aboutFrames = false := by
  rcases fault_of_encodeWith h with hassembly | ⟨-, opcode, rfl⟩
  · exact aboutFrames_of_ofAssembly hassembly
  · rfl

/-- What may be widened with jumps only may be widened with all branches. -/
theorem CheckedNode.refusal?_mono {c : CheckedNode} (h : c.refusal? .unconditional = none) :
    c.refusal? .all = none := by
  unfold refusal? at h ⊢
  split at h
  · simp only [ite_eq_right_iff, reduceCtorEq, imp_false, Bool.and_eq_true, Bool.not_eq_true',
      not_and, Bool.not_eq_false] at h ⊢
    intro hoverflows
    have hcovers := h hoverflows
    simp only [BranchWidening.covers, reduceCtorEq, decide_false, Bool.false_and,
      Bool.or_false] at hcovers
    rw [BranchWidening.covers, hcovers, Bool.true_or]
  · rfl

/-- Rounds that only have to widen jumps are the same where conditions may be widened too. -/
theorem Rounds.all_of_unconditional {n : Nat} {plan : List PlannedNode} {a : Assembler}
    (h : Rounds .unconditional n plan (.ok a)) : Rounds .all n plan (.ok a) := by
  generalize houtcome : Except.ok a = outcome at h
  induction h with
  | failed _ => cases houtcome
  | @reached plan a' hround =>
    cases houtcome
    cases round_eq_iff.mp hround with
    | reached hassemble hreach => exact .reached (round_eq_iff.mpr (.reached hassemble hreach))
  | @widened n plan next outcome hround _ ih =>
    cases round_eq_iff.mp hround with
    | widened hassemble hrefusal hoverflow =>
      have hsame : round .all plan = .ok (.inr _) := round_eq_iff.mpr (.widened hassemble
        (fun c hc => CheckedNode.refusal?_mono (hrefusal c hc)) hoverflow)
      exact .widened hsame (ih houtcome)

end ClassPatch.Code
