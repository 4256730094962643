import Mathlib
import ClassPatch.Proofs.Code.Disassembly
import ClassPatch.Proofs.Success

/-!
# Targets of instructions

What stays the same when the targets of an instruction are replaced, and where the targets
of code that was taken apart lie.
-/

namespace ClassPatch.Code

open Bytes

variable {τ υ φ : Type}

/-! ## Lists in step -/

section Forall₂

variable {α β : Type} {R : α → β → Prop} {as : List α} {bs : List β}

theorem exists_of_mem_left (h : List.Forall₂ R as bs) {a : α} (ha : a ∈ as) :
    ∃ b ∈ bs, R a b := by
  induction h with
  | nil => cases ha
  | @cons a' b as bs hab _ ih =>
    rcases List.mem_cons.mp ha with rfl | hmem
    · exact ⟨b, List.mem_cons_self, hab⟩
    · obtain ⟨b', hb', hR⟩ := ih hmem
      exact ⟨b', List.mem_cons_of_mem b hb', hR⟩

theorem exists_of_mem_right (h : List.Forall₂ R as bs) {b : β} (hb : b ∈ bs) :
    ∃ a ∈ as, R a b :=
  exists_of_mem_left h.flip hb

theorem forall₂_comp {γ : Type} {S : β → γ → Prop} {cs : List γ} (h : List.Forall₂ R as bs)
    (h' : List.Forall₂ S bs cs) : List.Forall₂ (fun a c => ∃ b, R a b ∧ S b c) as cs := by
  induction h generalizing cs with
  | nil =>
    obtain rfl := List.forall₂_nil_left_iff.mp h'
    exact .nil
  | @cons a b as bs hab _ ih =>
    obtain ⟨c, cs, hbc, hcs, rfl⟩ := List.forall₂_cons_left_iff.mp h'
    exact .cons ⟨b, hab, hbc⟩ (ih hcs)

theorem forall₂_trans {γ : Type} {S : β → γ → Prop} {T : α → γ → Prop} {cs : List γ}
    (h : List.Forall₂ R as bs) (h' : List.Forall₂ S bs cs)
    (htrans : ∀ a ∈ as, ∀ b c, R a b → S b c → T a c) : List.Forall₂ T as cs := by
  refine ((List.forall₂_and_left _ _).mpr ⟨fun a ha => ha, forall₂_comp h h'⟩).imp ?_
  intro a c hac
  obtain ⟨ha, b, hab, hbc⟩ := hac
  exact htrans a ha b c hab hbc

theorem forall₂_and {S : α → β → Prop} (h : List.Forall₂ R as bs) (h' : List.Forall₂ S as bs) :
    List.Forall₂ (fun a b => R a b ∧ S a b) as bs :=
  List.forall₂_iff_zip.mpr ⟨h.length_eq, fun hmem =>
    ⟨List.forall₂_zip h hmem, List.forall₂_zip h' hmem⟩⟩

theorem rel_getElem? (h : List.Forall₂ R as bs) (index : Nat) :
    Option.Rel R as[index]? bs[index]? := by
  induction h generalizing index with
  | nil => exact .none
  | cons hab _ ih =>
    cases index with
    | zero => exact .some hab
    | succ index => exact ih index

theorem exists_getElem?_of_left (h : List.Forall₂ R as bs) {index : Nat} {a : α}
    (ha : as[index]? = some a) : ∃ b, bs[index]? = some b ∧ R a b := by
  have hrel := rel_getElem? h index
  rw [ha] at hrel
  generalize bs[index]? = b? at hrel ⊢
  cases hrel with
  | some hab => exact ⟨_, rfl, hab⟩

theorem rel_getLast? (h : List.Forall₂ R as bs) : Option.Rel R as.getLast? bs.getLast? := by
  have hreverse := List.forall₂_reverse_iff.mpr h
  rw [List.getLast?_eq_head?_reverse, List.getLast?_eq_head?_reverse]
  generalize as.reverse = xs, bs.reverse = ys at hreverse
  cases hreverse with
  | nil => exact .none
  | cons hab _ => exact .some hab

theorem exists_of_mem_getLast? (h : List.Forall₂ R as bs) {b : β} (hb : b ∈ bs.getLast?) :
    ∃ a ∈ as.getLast?, R a b := by
  have hrel := rel_getLast? h
  rw [Option.mem_def.mp hb] at hrel
  generalize as.getLast? = a? at hrel
  cases hrel with
  | some hab => exact ⟨_, rfl, hab⟩

/-- A list with one item edited is related to the list item by item. -/
theorem forall₂_modify {R : α → α → Prop} (hrefl : ∀ a, R a a) {f : α → α}
    (hf : ∀ a, R a (f a)) (as : List α) (index : Nat) : List.Forall₂ R as (as.modify index f) := by
  induction as generalizing index with
  | nil =>
    rw [List.modify_nil]
    exact .nil
  | cons a as ih =>
    cases index with
    | zero => exact .cons (hf a) (List.forall₂_same.mpr fun a _ => hrefl a)
    | succ index => exact .cons (hrefl a) (ih index)

end Forall₂

/-! ## Replacing targets -/

namespace Operand

section Cases

variable {f : τ → Option υ} {y : Operand υ}

theorem mapTargetsM_branch_eq_some {target : τ} :
    (Operand.branch target).mapTargetsM f = some y ↔ ∃ u, f target = some u ∧ y = .branch u := by
  constructor
  · intro h
    obtain ⟨u, hu, h⟩ := Option.bind_eq_some_iff.mp h
    cases h
    exact ⟨u, hu, rfl⟩
  · intro h
    obtain ⟨u, hu, rfl⟩ := h
    exact Option.bind_eq_some_iff.mpr ⟨u, hu, rfl⟩

theorem mapTargetsM_tableSwitch_eq_some {fallback : τ} {low : Int32} {targets : List τ} :
    (Operand.tableSwitch fallback low targets).mapTargetsM f = some y ↔
      ∃ u us, f fallback = some u ∧ List.Forall₂ (fun t u => f t = some u) targets us ∧
        y = .tableSwitch u low us := by
  constructor
  · intro h
    obtain ⟨u, hu, h⟩ := Option.bind_eq_some_iff.mp h
    obtain ⟨us, hus, h⟩ := Option.bind_eq_some_iff.mp h
    cases h
    exact ⟨u, us, hu, Success.option_mapM.mp hus, rfl⟩
  · intro h
    obtain ⟨u, us, hu, hus, rfl⟩ := h
    exact Option.bind_eq_some_iff.mpr ⟨u, hu,
      Option.bind_eq_some_iff.mpr ⟨us, Success.option_mapM.mpr hus, rfl⟩⟩

theorem mapTargetsM_lookupSwitch_eq_some {fallback : τ} {pairs : List (Int32 × τ)} :
    (Operand.lookupSwitch fallback pairs).mapTargetsM f = some y ↔
      ∃ u new, f fallback = some u ∧
        List.Forall₂ (fun p q => q.1 = p.1 ∧ f p.2 = some q.2) pairs new ∧
        y = .lookupSwitch u new := by
  constructor
  · intro h
    obtain ⟨u, hu, h⟩ := Option.bind_eq_some_iff.mp h
    obtain ⟨new, hnew, h⟩ := Option.bind_eq_some_iff.mp h
    cases h
    refine ⟨u, new, hu, (Success.option_mapM.mp hnew).imp fun p q hpq => ?_, rfl⟩
    obtain ⟨v, hv, hpq⟩ := Option.bind_eq_some_iff.mp hpq
    cases hpq
    exact ⟨rfl, hv⟩
  · intro h
    obtain ⟨u, new, hu, hnew, rfl⟩ := h
    refine Option.bind_eq_some_iff.mpr ⟨u, hu, Option.bind_eq_some_iff.mpr ⟨new, ?_, rfl⟩⟩
    refine Success.option_mapM.mpr (hnew.imp fun p q hpq => ?_)
    obtain ⟨hkey, hv⟩ := hpq
    exact Option.bind_eq_some_iff.mpr ⟨q.2, hv, by rw [← hkey]; rfl⟩

end Cases

/-- Replacing the targets twice is replacing them once. -/
theorem mapTargetsM_trans {x : Operand τ} {y : Operand υ} {z : Operand φ} {f : τ → Option υ}
    {g : υ → Option φ} {h : τ → Option φ} (hf : x.mapTargetsM f = some y)
    (hg : y.mapTargetsM g = some z)
    (hh : ∀ t ∈ x.targets, ∀ u v, f t = some u → g u = some v → h t = some v) :
    x.mapTargetsM h = some z := by
  cases x with
  | branch target =>
    obtain ⟨u, hu, rfl⟩ := mapTargetsM_branch_eq_some.mp hf
    obtain ⟨v, hv, rfl⟩ := mapTargetsM_branch_eq_some.mp hg
    exact mapTargetsM_branch_eq_some.mpr ⟨v, hh target List.mem_cons_self u v hu hv, rfl⟩
  | tableSwitch fallback low targets =>
    obtain ⟨u, us, hu, hus, rfl⟩ := mapTargetsM_tableSwitch_eq_some.mp hf
    obtain ⟨v, vs, hv, hvs, rfl⟩ := mapTargetsM_tableSwitch_eq_some.mp hg
    have hrest := forall₂_trans (T := fun t v => h t = some v) hus hvs
      fun t ht => hh t (List.mem_cons_of_mem fallback ht)
    exact mapTargetsM_tableSwitch_eq_some.mpr
      ⟨v, vs, hh fallback List.mem_cons_self u v hu hv, hrest, rfl⟩
  | lookupSwitch fallback pairs =>
    obtain ⟨u, new, hu, hnew, rfl⟩ := mapTargetsM_lookupSwitch_eq_some.mp hf
    obtain ⟨v, last, hv, hlast, rfl⟩ := mapTargetsM_lookupSwitch_eq_some.mp hg
    have hrest : List.Forall₂ (fun p r => r.1 = p.1 ∧ h p.2 = some r.2) pairs last := by
      refine forall₂_trans hnew hlast fun p hp q r hpq hqr => ⟨hqr.1.trans hpq.1, ?_⟩
      exact hh p.2 (List.mem_cons_of_mem fallback (List.mem_map_of_mem hp)) q.2 r.2 hpq.2 hqr.2
    exact mapTargetsM_lookupSwitch_eq_some.mpr
      ⟨v, last, hh fallback List.mem_cons_self u v hu hv, hrest, rfl⟩
  | _ =>
    cases hf
    cases hg
    rfl

theorem mapTargetsM_some (x : Operand τ) : x.mapTargetsM some = some x := by
  cases x with
  | tableSwitch fallback low targets =>
    exact mapTargetsM_tableSwitch_eq_some.mpr
      ⟨fallback, targets, rfl, List.forall₂_same.mpr fun _ _ => rfl, rfl⟩
  | lookupSwitch fallback pairs =>
    exact mapTargetsM_lookupSwitch_eq_some.mpr
      ⟨fallback, pairs, rfl, List.forall₂_same.mpr fun _ _ => ⟨rfl, rfl⟩, rfl⟩
  | _ => rfl

theorem mapTargetsM_targets {x : Operand τ} {y : Operand υ} {f : τ → Option υ}
    (hf : x.mapTargetsM f = some y) :
    List.Forall₂ (fun t u => f t = some u) x.targets y.targets := by
  cases x with
  | branch target =>
    obtain ⟨u, hu, rfl⟩ := mapTargetsM_branch_eq_some.mp hf
    exact .cons hu .nil
  | tableSwitch fallback low targets =>
    obtain ⟨u, us, hu, hus, rfl⟩ := mapTargetsM_tableSwitch_eq_some.mp hf
    exact .cons hu hus
  | lookupSwitch fallback pairs =>
    obtain ⟨u, new, hu, hnew, rfl⟩ := mapTargetsM_lookupSwitch_eq_some.mp hf
    refine .cons hu ?_
    rw [List.forall₂_map_left_iff, List.forall₂_map_right_iff]
    exact hnew.imp fun p q hpq => hpq.2
  | _ =>
    cases hf
    exact .nil

theorem mapTargetsM_eq_branch {x : Operand τ} {f : τ → Option υ} {u : υ}
    (h : x.mapTargetsM f = some (.branch u)) : ∃ t, x = .branch t ∧ f t = some u := by
  cases x with
  | branch target =>
    obtain ⟨u', hu, hsame⟩ := mapTargetsM_branch_eq_some.mp h
    cases hsame
    exact ⟨target, rfl, hu⟩
  | tableSwitch fallback low targets =>
    obtain ⟨_, _, -, -, hsame⟩ := mapTargetsM_tableSwitch_eq_some.mp h
    cases hsame
  | lookupSwitch fallback pairs =>
    obtain ⟨_, _, -, -, hsame⟩ := mapTargetsM_lookupSwitch_eq_some.mp h
    cases hsame
  | _ => cases h

theorem mapTargetsM_eq_constant {x : Operand τ} {f : τ → Option υ} {index : UInt16}
    (h : x.mapTargetsM f = some (.constant index)) : x = .constant index := by
  cases x with
  | branch target =>
    obtain ⟨_, -, hsame⟩ := mapTargetsM_branch_eq_some.mp h
    cases hsame
  | tableSwitch fallback low targets =>
    obtain ⟨_, _, -, -, hsame⟩ := mapTargetsM_tableSwitch_eq_some.mp h
    cases hsame
  | lookupSwitch fallback pairs =>
    obtain ⟨_, _, -, -, hsame⟩ := mapTargetsM_lookupSwitch_eq_some.mp h
    cases hsame
  | constant other =>
    cases h
    rfl
  | _ => cases h

end Operand

namespace Instruction

variable {i : Instruction τ} {j : Instruction υ} {k : Instruction φ} {f : τ → Option υ}

theorem mapTargetsM_eq_some : i.mapTargetsM f = some j ↔
    j.opcode = i.opcode ∧ i.operand.mapTargetsM f = some j.operand := by
  obtain ⟨opcode, operand⟩ := j
  unfold mapTargetsM
  cases i.operand.mapTargetsM f with
  | none => simp
  | some new => simp [eq_comm]

theorem mapTargetsM_trans {g : υ → Option φ} {h : τ → Option φ} (hf : i.mapTargetsM f = some j)
    (hg : j.mapTargetsM g = some k)
    (hh : ∀ t ∈ i.targets, ∀ u v, f t = some u → g u = some v → h t = some v) :
    i.mapTargetsM h = some k := by
  rw [mapTargetsM_eq_some] at hf hg ⊢
  exact ⟨hg.1.trans hf.1, Operand.mapTargetsM_trans hf.2 hg.2 hh⟩

theorem mapTargetsM_congr {h : τ → Option υ} (hf : i.mapTargetsM f = some j)
    (hh : ∀ t ∈ i.targets, ∀ u, f t = some u → h t = some u) : i.mapTargetsM h = some j := by
  refine mapTargetsM_trans hf (g := some) ?_ fun t ht u v hu hv => ?_
  · exact mapTargetsM_eq_some.mpr ⟨rfl, Operand.mapTargetsM_some j.operand⟩
  · cases hv
    exact hh t ht u hu

theorem mapTargetsM_targets (hf : i.mapTargetsM f = some j) :
    List.Forall₂ (fun t u => f t = some u) i.targets j.targets :=
  Operand.mapTargetsM_targets (mapTargetsM_eq_some.mp hf).2

theorem invoked?_mapTargetsM (hf : i.mapTargetsM f = some j) : j.invoked? = i.invoked? := by
  obtain ⟨hopcode, hoperand⟩ := mapTargetsM_eq_some.mp hf
  obtain ⟨opcode, operand⟩ := i
  obtain ⟨opcode', operand'⟩ := j
  obtain rfl : opcode' = opcode := hopcode
  cases operand with
  | branch target =>
    obtain ⟨_, -, rfl⟩ := Operand.mapTargetsM_branch_eq_some.mp hoperand
    rfl
  | tableSwitch fallback low targets =>
    obtain ⟨_, _, -, -, rfl⟩ := Operand.mapTargetsM_tableSwitch_eq_some.mp hoperand
    rfl
  | lookupSwitch fallback pairs =>
    obtain ⟨_, _, -, -, rfl⟩ := Operand.mapTargetsM_lookupSwitch_eq_some.mp hoperand
    rfl
  | _ =>
    cases hoperand
    rfl

end Instruction

/-! ## Places in stored code -/

theorem target_lt_of_stored {codeLength pos : Nat} {i : Instruction Nat} {data : List UInt8}
    (h : i.Stored codeLength pos data) : ∀ target ∈ i.targets, target < codeLength := by
  intro target htarget
  cases h with
  | wideSlot => cases htarget
  | wideIncrement => cases htarget
  | short _ _ hoperand =>
    cases hoperand with
    | branch hreach =>
      obtain rfl := List.mem_singleton.mp htarget
      exact hreach.1
    | branchWide hreach =>
      obtain rfl := List.mem_singleton.mp htarget
      exact hreach.1
    | tableSwitch _ hfallback _ _ htargets =>
      rcases List.mem_cons.mp htarget with rfl | hmem
      · exact hfallback.1
      · exact (htargets target hmem).1
    | lookupSwitch _ hfallback _ hpairs =>
      rcases List.mem_cons.mp htarget with rfl | hmem
      · exact hfallback.1
      · obtain ⟨pair, hpair, rfl⟩ := List.mem_map.mp hmem
        exact (hpairs pair hpair).1
    | _ => cases htarget

/-- The short form of a constant has an index of one byte. -/
theorem index_lt_of_stored {codeLength pos : Nat} {index : UInt16} {data : List UInt8}
    (h : Instruction.Stored codeLength pos (.ofConstant Opcode.ldc index) data) : index < 256 := by
  unfold Instruction.ofConstant at h
  cases h with
  | short hlayout _ hoperand =>
    have hldc : Opcode.layout? Opcode.ldc = some .constantByte := by decide
    rw [hldc] at hlayout
    cases hlayout
    cases hoperand with
    | @constantByte _ index =>
      rw [UInt16.lt_iff_toNat_lt, UInt8.toNat_toUInt16]
      exact index.toNat_lt

theorem index_lt_of_sequence {codeLength pos : Nat} {ls : List (Located Nat)}
    {data : List UInt8} (h : Format.Sequence (Located.Stored codeLength) pos ls data) :
    ∀ l ∈ ls, ∀ index, l.instruction = .ofConstant Opcode.ldc index → index < 256 := by
  induction h with
  | nil =>
    intro l hl
    cases hl
  | cons hstored _ ih =>
    intro l hl index hldc
    rcases List.mem_cons.mp hl with rfl | hmem
    · exact index_lt_of_stored (hldc ▸ hstored.2)
    · exact ih l hmem index hldc

theorem le_offset_of_sequence {codeLength pos : Nat} {ls : List (Located Nat)}
    {data : List UInt8} (h : Format.Sequence (Located.Stored codeLength) pos ls data) :
    ∀ l ∈ ls, pos ≤ l.offset := by
  induction h with
  | nil =>
    intro l hl
    cases hl
  | cons hstored _ ih =>
    intro l hl
    rcases List.mem_cons.mp hl with rfl | hmem
    · exact hstored.1.ge
    · have := ih l hmem
      omega

theorem target_lt_of_sequence {codeLength pos : Nat} {ls : List (Located Nat)}
    {data : List UInt8} (h : Format.Sequence (Located.Stored codeLength) pos ls data) :
    ∀ l ∈ ls, ∀ target ∈ l.instruction.targets, target < codeLength := by
  induction h with
  | nil =>
    intro l hl
    cases hl
  | cons hstored _ ih =>
    intro l hl
    rcases List.mem_cons.mp hl with rfl | hmem
    · exact target_lt_of_stored hstored.2
    · exact ih l hmem

theorem offset_lt_of_sequence {codeLength pos : Nat} {ls : List (Located Nat)}
    {data : List UInt8} (h : Format.Sequence (Located.Stored codeLength) pos ls data) :
    ∀ l ∈ ls, l.offset < pos + data.length := by
  induction h with
  | nil =>
    intro l hl
    cases hl
  | @cons pos l ls front back hstored _ ih =>
    have hpos := length_stored_pos hstored
    rw [List.length_append]
    intro l' hl'
    rcases List.mem_cons.mp hl' with rfl | hmem
    · have hoffset := hstored.1
      omega
    · have hlt := ih l' hmem
      omega

/-- Instructions are stored in the order of their offsets. -/
theorem pairwise_offset_of_sequence {codeLength pos : Nat} {ls : List (Located Nat)}
    {data : List UInt8} (h : Format.Sequence (Located.Stored codeLength) pos ls data) :
    ls.Pairwise fun l l' => l.offset < l'.offset := by
  induction h with
  | nil => exact .nil
  | cons hstored hrest ih =>
    refine .cons (fun l' hl' => ?_) ih
    have hpos := length_stored_pos hstored
    have hle := le_offset_of_sequence hrest l' hl'
    have hoffset := hstored.1
    omega

/-- No two instructions have the same offset. -/
theorem nodup_offset_of_sequence {codeLength pos : Nat} {ls : List (Located Nat)}
    {data : List UInt8} (h : Format.Sequence (Located.Stored codeLength) pos ls data) :
    (ls.map (·.offset)).Nodup :=
  List.pairwise_map.mpr ((pairwise_offset_of_sequence h).imp Nat.ne_of_lt)

end ClassPatch.Code
