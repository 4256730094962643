import Mathlib
import ClassPatch.Proofs.Code.Canonical

/-!
# Nodes that can be laid out

When laying out nodes succeeds. Nodes whose operands fit their opcodes and whose targets all have
one place pass every round, whatever branches are wide by then, and when the last round is over every
offset can be closed: short ones because they reach, wide ones because the code is short.
-/

namespace ClassPatch.Code

/-! ## Operands that fit -/

/-- The operand has the form that belongs to a layout, and the numbers that it implies can be
written. -/
def Operand.Fits (operand : Operand Label) (layout : OperandLayout) : Prop :=
  match layout, operand with
  | .plain, .plain | .byte, .byte _ | .short, .short _ | .arrayType, .arrayType _ | .slot, .slot _ |
    .increment, .increment _ _ | .constantByte, .constant _ | .constant, .constant _ |
    .interface, .interface _ _ | .dynamic, .dynamic _ | .multiArray, .multiArray _ _ |
    .branch, .branch _ | .branchWide, .branch _ => True
  | .tableSwitch, .tableSwitch _ low targets =>
    targets ≠ [] ∧ targets.length ≤ 0x80000000 ∧ low.toInt + targets.length - 1 < 0x80000000
  | .lookupSwitch, .lookupSwitch _ pairs => pairs.length < 0x80000000
  | _, _ => False

/-- The opcode is defined, and the operand fits it. -/
def Instruction.Fits (i : Instruction Label) : Prop :=
  ∃ layout, Opcode.layout? i.opcode = some layout ∧ i.operand.Fits layout

theorem Instruction.Fits.exists_pieces {i : Instruction Label} (h : i.Fits) (start : Nat) :
    ∃ pieces, i.pieces start = .ok pieces := by
  obtain ⟨opcode, operand⟩ := i
  obtain ⟨layout, hlayout, hfits⟩ := h
  change Opcode.layout? opcode = some layout at hlayout
  unfold Operand.Fits at hfits
  unfold Instruction.pieces
  rw [hlayout]
  split at hfits
  case h_14 fallback low targets hoperand =>
    cases hoperand
    obtain ⟨hsome, hfew, hhigh⟩ := hfits
    dsimp only
    rw [if_neg (by simpa using hsome), if_neg (by omega)]
    exact ⟨_, rfl⟩
  case h_15 fallback pairs hoperand =>
    cases hoperand
    dsimp only
    rw [if_neg (Nat.not_le.mpr hfits)]
    exact ⟨_, rfl⟩
  case h_16 => exact hfits.elim
  all_goals
    rename_i hoperand
    cases hoperand
    exact ⟨_, rfl⟩

theorem Instruction.Fits.exists_widePieces {i : Instruction Label} (h : i.Fits) (start : Nat)
    (hcovers : BranchWidening.all.covers i.opcode = true) :
    ∃ pieces, i.widePieces start = .ok pieces := by
  unfold widePieces
  split
  · split
    · exact ⟨_, rfl⟩
    · exact ⟨_, rfl⟩
    · rename_i hjump hinverse
      simp [BranchWidening.covers, hjump, hinverse] at hcovers
  · exact h.exists_pieces start

/-! ## Rounds that succeed -/

/-- Nodes whose operands fit, with at most one place for each label and one for each target. -/
structure LayoutReady (nodes : List Node) : Prop where
  fits : ∀ i, .instruction i ∈ nodes → i.Fits
  once : ∀ label, nodes.count (.label label) ≤ 1
  placed : ∀ i, .instruction i ∈ nodes → ∀ target ∈ i.targets, .label target ∈ nodes

theorem exists_mapM_assemble {plan : List PlannedNode} {a : Assembler}
    (hfits : ∀ i, .instruction i ∈ plan.map (·.node) → i.Fits)
    (honce : ∀ label, (plan.map (·.node)).count (.label label) ≤ 1)
    (hallowed : ∀ p ∈ plan, p.Allowed .all)
    (hfresh : ∀ label, .label label ∈ plan.map (·.node) → a.places[label]? = none) :
    ∃ pieces a', plan.mapM PlannedNode.assemble a = .ok pieces a' := by
  induction plan generalizing a with
  | nil => exact ⟨[], a, rfl⟩
  | cons p plan ih =>
    obtain ⟨node, wide⟩ := p
    obtain ⟨hallowedHead, hallowedRest⟩ := List.forall_mem_cons.mp hallowed
    have ih {a : Assembler} (hfresh : ∀ label, .label label ∈ plan.map (·.node) →
        a.places[label]? = none) :=
      ih (fun i hi => hfits i (List.mem_cons_of_mem _ hi))
        (fun label => (List.count_le_count_cons).trans (honce label)) hallowedRest hfresh
    cases node with
    | label label =>
      -- the label is placed here, so it is not placed again later
      have hlast : .label label ∉ plan.map (·.node) := by
        have hcount := honce label
        rw [List.map_cons, List.count_cons_self] at hcount
        exact List.count_eq_zero.mp (by omega)
      have hplace : (⟨.label label, wide⟩ : PlannedNode).assemble a =
          .ok [] { a with places := a.places.insert label a.size } :=
        assemble_label_eq_ok.mpr ⟨rfl, hfresh label List.mem_cons_self, rfl⟩
      obtain ⟨pieces, a', hrest⟩ := ih (a := { a with places := a.places.insert label a.size })
        fun other hother => by
          rw [Std.HashMap.getElem?_insert, if_neg, hfresh other (List.mem_cons_of_mem _ hother)]
          intro heq
          exact hlast (eq_of_beq heq ▸ hother)
      exact ⟨_, a', mapM_assemble_cons hplace hrest⟩
    | instruction i =>
      have hfitsHead := hfits i List.mem_cons_self
      have hpieces : ∃ front, (⟨.instruction i, wide⟩ : PlannedNode).pieces a.size = .ok front := by
        cases wide with
        | false => exact hfitsHead.exists_pieces a.size
        | true => exact hfitsHead.exists_widePieces a.size (hallowedHead i rfl rfl)
      obtain ⟨front, hfront⟩ := hpieces
      obtain ⟨pieces, a', hrest⟩ := ih (a := a.append front)
        fun label hlabel => hfresh label (List.mem_cons_of_mem _ hlabel)
      exact ⟨_, a', mapM_assemble_cons (assemble_instruction_eq_ok.mpr ⟨hfront, rfl⟩) hrest⟩

/-- Nodes that can be laid out pass every round: the last one assembles their code. -/
theorem Rounds.exists_code {n : Nat} {plan : List PlannedNode} {outcome : Except Error Assembler}
    (h : Rounds .all n plan outcome) (hready : LayoutReady (plan.map (·.node)))
    (hallowed : ∀ p ∈ plan, p.Allowed .all) : ∃ a, outcome = .ok a := by
  induction h with
  | @failed plan e hround =>
    obtain ⟨pieces, a, hassembled⟩ := exists_mapM_assemble (a := .empty) hready.fits hready.once
      hallowed fun _ _ => by simp [Assembler.empty]
    have hassemble : assemblePlan plan = .ok (pieces, a) := by rw [assemblePlan, hassembled]
    rw [assemblePlan_of_round_all hround] at hassemble
    cases hassemble
  | @reached plan a _ => exact ⟨a, rfl⟩
  | widened hround _ ih =>
    exact ih ((openCount_lt_of_round hround).1 ▸ hready) (allowed_of_round hround hallowed)

/-! ## Open offsets -/

/-- The label and the origin of the offset that a piece leaves open. -/
def Piece.open? : Piece → Option (Label × Nat)
  | .bytes _ => none
  | .offset16 target origin | .offset32 target origin => some (target, origin)

section

variable {places : Places} {start stop : Nat}

/-- An offset whose label and origin lie in short code can be closed, unless it is a short one that
does not reach. -/
theorem exists_resolve {piece : Piece} (hreach : piece.overflows places = false)
    (hopen : ∀ target origin, piece.open? = some (target, origin) → origin ≤ maxCodeLength ∧
      ∃ place, places[target]? = some place ∧ place ≤ maxCodeLength) :
    ∃ data, piece.resolve places = .ok data := by
  cases piece with
  | bytes data => exact ⟨data, rfl⟩
  | offset16 target origin =>
    obtain ⟨-, place, hplace, -⟩ := hopen target origin rfl
    have hshort : isShort ((place : Int) - origin) = true := by
      simpa [Piece.overflows, hplace] using hreach
    simp only [isShort, Bool.and_eq_true, decide_eq_true_eq] at hshort
    exact ⟨_, resolve_offset16.mpr ⟨place, hplace, hshort.1, hshort.2, rfl⟩⟩
  | offset32 target origin =>
    obtain ⟨horigin, place, hplace, hlow⟩ := hopen target origin rfl
    rw [maxCodeLength] at horigin hlow
    exact ⟨_, resolve_offset32.mpr ⟨place, hplace, by omega, by omega, rfl⟩⟩

/-- The open offsets of an instruction lead to its targets, and start inside of it. -/
theorem open_of_mem_pieces {i : Instruction Label} {pieces : List Piece}
    (h : i.pieces start = .ok pieces) {piece : Piece} (hmem : piece ∈ pieces) {target : Label}
    {origin : Nat} (hopen : piece.open? = some (target, origin)) :
    target ∈ i.targets ∧ origin = start := by
  obtain ⟨opcode, operand⟩ := i
  cases emits_of_pieces h with
  | closed _ =>
    rw [List.mem_singleton.mp hmem] at hopen
    cases hopen
  | branch _ hoperand | branchWide hoperand =>
    cases hoperand
    rcases List.mem_cons.mp hmem with rfl | hmem
    · cases hopen
    · obtain rfl := List.mem_singleton.mp hmem
      cases hopen
      exact ⟨List.mem_singleton_self _, rfl⟩
  | tableSwitch hoperand =>
    cases hoperand
    simp only [List.mem_cons, List.mem_map] at hmem
    rcases hmem with rfl | rfl | rfl | ⟨target', htarget', rfl⟩
    · cases hopen
    · cases hopen
      exact ⟨List.mem_cons_self, rfl⟩
    · cases hopen
    · cases hopen
      exact ⟨List.mem_cons_of_mem _ htarget', rfl⟩
  | lookupSwitch hoperand =>
    cases hoperand
    simp only [List.mem_cons, List.mem_flatMap, List.not_mem_nil, or_false] at hmem
    rcases hmem with rfl | rfl | rfl | ⟨pair, hpair, rfl | rfl⟩
    · cases hopen
    · cases hopen
      exact ⟨List.mem_cons_self, rfl⟩
    · cases hopen
    · cases hopen
    · cases hopen
      exact ⟨List.mem_cons_of_mem _ (List.mem_map_of_mem hpair), rfl⟩

/-- The offset of a wide condition starts at the jump after it. -/
theorem open_of_mem_planned {i : Instruction Label} {wide : Bool} {pieces : List Piece}
    (h : (⟨.instruction i, wide⟩ : PlannedNode).pieces start = .ok pieces) {piece : Piece}
    (hmem : piece ∈ pieces) {target : Label} {origin : Nat}
    (hopen : piece.open? = some (target, origin)) :
    target ∈ i.targets ∧ origin ≤ start + piecesSize pieces := by
  cases wide with
  | false =>
    obtain ⟨htarget, rfl⟩ := open_of_mem_pieces h hmem hopen
    exact ⟨htarget, Nat.le_add_right _ _⟩
  | true =>
    have htarget {label : Label} (hoperand : i.operand = .branch label) : label ∈ i.targets := by
      rw [Instruction.targets, hoperand]
      exact List.mem_singleton_self label
    rcases widePieces_cases h with
      ⟨_, _, hoperand, -, rfl⟩ | ⟨_, _, hoperand, -, -, rfl⟩ | ⟨-, hpieces⟩
    · rcases List.mem_cons.mp hmem with rfl | hmem
      · cases hopen
      · obtain rfl := List.mem_singleton.mp hmem
        cases hopen
        exact ⟨htarget hoperand, Nat.le_add_right _ _⟩
    · rcases List.mem_cons.mp hmem with rfl | hmem
      · cases hopen
      · obtain rfl := List.mem_singleton.mp hmem
        cases hopen
        refine ⟨htarget hoperand, ?_⟩
        simp [Piece.size]
    · obtain ⟨htarget, rfl⟩ := open_of_mem_pieces hpieces hmem hopen
      exact ⟨htarget, Nat.le_add_right _ _⟩

/-- All open offsets lead to targets of the nodes, and start inside the code. -/
theorem Emitted.open_of_mem {plan : List PlannedNode} {pieces : List (List Piece)}
    (h : Emitted places start plan pieces stop) :
    ∀ piece ∈ pieces.flatten, ∀ target origin, piece.open? = some (target, origin) →
      origin ≤ stop ∧ ∃ i, .instruction i ∈ plan.map (·.node) ∧ target ∈ i.targets := by
  induction h with
  | nil =>
    intro piece hpiece
    cases hpiece
  | label _ _ ih =>
    intro piece hpiece target origin hopen
    obtain ⟨horigin, i, hi, htarget⟩ := ih piece hpiece target origin hopen
    exact ⟨horigin, i, List.mem_cons_of_mem _ hi, htarget⟩
  | @instruction start stop i wide plan front pieces hfront hrest ih =>
    intro piece hpiece target origin hopen
    rw [List.flatten_cons] at hpiece
    rcases List.mem_append.mp hpiece with hpiece | hpiece
    · obtain ⟨htarget, horigin⟩ := open_of_mem_planned hfront hpiece hopen
      exact ⟨horigin.trans (emitted_pos hrest).1, i, List.mem_cons_self, htarget⟩
    · obtain ⟨horigin, j, hj, htarget⟩ := ih piece hpiece target origin hopen
      exact ⟨horigin, j, List.mem_cons_of_mem _ hj, htarget⟩

end

/-! ## The layout -/

theorem exists_resolved {places : Places} {pieces : List Piece}
    (h : ∀ piece ∈ pieces, ∃ data, piece.resolve places = .ok data) :
    ∃ data, Resolved places pieces data := by
  induction pieces with
  | nil => exact ⟨[], resolved_nil.mpr rfl⟩
  | cons piece pieces ih =>
    obtain ⟨⟨front, hfront⟩, hrest⟩ := List.forall_mem_cons.mp h
    obtain ⟨back, hback⟩ := ih hrest
    exact ⟨front ++ back, resolved_cons.mpr ⟨front, back, hfront, hback, rfl⟩⟩

/-- Where every branch reaches, no piece overflows. -/
theorem overflows_of_reaching {plan : List PlannedNode} {pieces : List (List Piece)}
    {places : Places} (hlength : plan.length = pieces.length)
    (hreach : ∀ c ∈ checkPlan plan pieces places, c.overflows = false) :
    ∀ piece ∈ pieces.flatten, piece.overflows places = false := by
  intro piece hpiece
  obtain ⟨ps, hps, hpiece⟩ := List.mem_flatten.mp hpiece
  rw [← List.map_snd_zip hlength.ge] at hps
  obtain ⟨⟨p, ps⟩, hmem, rfl⟩ := List.mem_map.mp hps
  have hnone := hreach ⟨p, ps.any (Piece.overflows places)⟩ (List.mem_map.mpr ⟨(p, ps), hmem, rfl⟩)
  exact Bool.eq_false_iff.mpr (List.any_eq_false.mp hnone piece hpiece)

/-- Code that is short enough can be finished once every branch reaches. -/
theorem exists_finish {plan : List PlannedNode} {pieces : List (List Piece)} {a : Assembler}
    (hassemble : assemblePlan plan = .ok (pieces, a)) (hready : LayoutReady (plan.map (·.node)))
    (hreach : ∀ c ∈ checkPlan plan pieces a.places, c.overflows = false)
    (hsize : a.size ≤ maxCodeLength) :
    ∃ result, a.finish = .ok result ∧ result.code.length = a.size ∧ result.places = a.places := by
  have hemitted : Emitted a.places 0 plan pieces a.size := (assemblePlan_eq_ok hassemble).emitted
  have hclosed : ∀ piece ∈ pieces.flatten, ∃ data, piece.resolve a.places = .ok data := by
    intro piece hpiece
    refine exists_resolve (overflows_of_reaching hemitted.length_eq hreach piece hpiece)
      fun target origin hopen => ?_
    obtain ⟨horigin, i, hi, htarget⟩ := hemitted.open_of_mem piece hpiece target origin hopen
    obtain ⟨place, hplace, hle⟩ := place_le_of_emitted hemitted (hready.placed i hi target htarget)
    exact ⟨horigin.trans hsize, place, hplace, hle.trans hsize⟩
  obtain ⟨code, hcode⟩ := exists_resolved hclosed
  refine ⟨⟨code, a.places⟩, finish_eq_ok.mpr ⟨hsize, ?_, rfl⟩, ?_, rfl⟩
  · rwa [pieces_of_assemblePlan hassemble]
  · rw [length_resolved hcode, size_of_emitted hemitted, Nat.zero_add]

/-- Nodes that can be laid out have code if it is short enough whatever branches are wide. -/
theorem exists_encodeWith {nodes : List Node} (hready : LayoutReady nodes)
    (hsize : ∀ places plan pieces stop, plan.map (·.node) = nodes →
      Emitted places 0 plan pieces stop → stop ≤ maxCodeLength) :
    ∃ result, encodeWith .all nodes = .ok result := by
  have hallowed := allowed_shortPlan .all nodes
  obtain ⟨n, outcome, hrounds⟩ := exists_rounds .all (shortPlan nodes)
  obtain ⟨a, rfl⟩ := hrounds.exists_code (by rwa [map_node_shortPlan]) hallowed
  obtain ⟨last, pieces, hnodes, -, hassemble, hreach⟩ := hrounds.exists_last hallowed
  rw [map_node_shortPlan] at hnodes
  have hshort := hsize _ last pieces a.size hnodes (assemblePlan_eq_ok hassemble).emitted
  obtain ⟨result, hfinish, -⟩ := exists_finish hassemble (hnodes ▸ hready) hreach hshort
  exact ⟨result, hrounds.settle_eq.trans hfinish⟩

/-- The layout of nodes comes to an end, after at most one round more than the nodes have short
branches, and then it finishes the code of its last round. Where all branches may be widened, none is
refused, nodes that can be laid out get code unless it is too long, and nodes that have code with wide
jumps only have the same code. -/
theorem encodeWith_rounds (nodes : List Node) :
    (∀ widening, (∃ n outcome, Rounds widening n (shortPlan nodes) outcome) ∧
      ∀ n outcome, Rounds widening n (shortPlan nodes) outcome →
        n ≤ nodes.countP Node.isShortBranch + 1 ∧
        encodeWith widening nodes = outcome >>= Assembler.finish) ∧
    (∀ opcode, encodeWith .all nodes ≠ refuse (.unwidenable opcode)) ∧
    (LayoutReady nodes → ∀ n outcome, Rounds .all n (shortPlan nodes) outcome →
      ∃ a, outcome = .ok a ∧ (a.size ≤ maxCodeLength →
        ∃ result, encodeWith .all nodes = .ok result ∧
          result.code.length = a.size ∧ result.places = a.places)) ∧
    ∀ result, encodeWith .unconditional nodes = .ok result →
      encodeWith .all nodes = .ok result := by
  refine ⟨fun widening => ⟨exists_rounds widening (shortPlan nodes), fun n outcome hrounds => ?_⟩,
    fun opcode h => ?_, fun hready n outcome hrounds => ?_, fun result h => ?_⟩
  · exact ⟨openCount_shortPlan nodes ▸ hrounds.le_openCount, hrounds.settle_eq⟩
  · rcases fault_of_encodeWith h with hassembly | ⟨hwidening, -⟩
    · cases hassembly
    · exact hwidening rfl
  · have hallowed := allowed_shortPlan .all nodes
    obtain ⟨a, rfl⟩ := hrounds.exists_code (by rwa [map_node_shortPlan]) hallowed
    refine ⟨a, rfl, fun hsize => ?_⟩
    obtain ⟨last, pieces, hnodes, -, hassemble, hreach⟩ := hrounds.exists_last hallowed
    rw [map_node_shortPlan] at hnodes
    obtain ⟨result, hfinish, hresult⟩ := exists_finish hassemble (hnodes ▸ hready) hreach hsize
    exact ⟨result, hrounds.settle_eq.trans hfinish, hresult⟩
  · obtain ⟨n, outcome, hrounds⟩ := exists_rounds .unconditional (shortPlan nodes)
    obtain ⟨a, rfl, hfinish⟩ := Success.except_bind.mp (hrounds.settle_eq.symm.trans h)
    exact hrounds.all_of_unconditional.settle_eq.trans hfinish

theorem layoutReady_switchLoop : LayoutReady switchLoop where
  fits := by
    intro i hi
    simp only [switchLoop, List.mem_cons, Node.instruction.injEq, reduceCtorEq, false_or,
      List.not_mem_nil, or_false] at hi
    rcases hi with rfl | rfl | rfl | rfl | rfl | rfl
    · exact ⟨.slot, by decide, trivial⟩
    · exact ⟨.constantByte, by decide, trivial⟩
    · exact ⟨.plain, by decide, trivial⟩
    · exact ⟨.tableSwitch, by decide, List.cons_ne_nil _ _, by decide, by decide⟩
    · exact ⟨.branch, by decide, trivial⟩
    · exact ⟨.plain, by decide, trivial⟩
  once := by
    intro label
    have hnodup : (switchLoop.filter Node.isLabel).Nodup := by decide
    rw [← List.count_filter (p := Node.isLabel) rfl]
    exact List.nodup_iff_count_le_one.mp hnodup (.label label)
  placed := by
    intro i hi
    simp only [switchLoop, List.mem_cons, Node.instruction.injEq, reduceCtorEq, false_or,
      List.not_mem_nil, or_false] at hi
    rcases hi with rfl | rfl | rfl | rfl | rfl | rfl <;> decide

theorem encodeWith_rounds_switchLoop : LayoutReady switchLoop ∧
    ∃ n a, Rounds .all n (shortPlan switchLoop) (.ok a) ∧ n ≤ 2 := by
  obtain ⟨hrounds, -, hcode, -⟩ := encodeWith_rounds switchLoop
  obtain ⟨⟨n, outcome, hlast⟩, hall⟩ := hrounds .all
  obtain ⟨a, rfl, -⟩ := hcode layoutReady_switchLoop n outcome hlast
  exact ⟨layoutReady_switchLoop, n, a, hlast, (hall n _ hlast).1⟩

end ClassPatch.Code
