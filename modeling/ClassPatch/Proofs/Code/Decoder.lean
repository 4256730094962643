import Mathlib
import ClassPatch.Code.Decoder
import ClassPatch.Proofs.Code.Labels

/-!
# The decoder in 32 bits

The decoder with numbers of 32 bits follows the one with numbers without bound: while a table holds
the numbers of a map, what is handed out from the table is what is handed out from the map, cut to
32 bits. Targets that differ by a multiple of 2³² are one place to the table, so the map is asked
for targets that are cut already. In code of at most 4 GiB that changes no target, and both decoders
agree.
-/

namespace ClassPatch.Code

open Bytes

theorem toNat_toUInt32 (n : Nat) : n.toUInt32.toNat = n % 2 ^ 32 := UInt32.toNat_ofNat'

theorem toNat_toUInt32_of_lt {n : Nat} (h : n < 2 ^ 32) : n.toUInt32.toNat = n :=
  UInt32.toNat_ofNat_of_lt' h

/-! ## Tables and maps -/

namespace LabelTable

variable {t : LabelTable} {m : LabelMap} {loose : Int}

/-- The table holds the numbers of the map, cut to 32 bits. Of the labels handed out so far, `loose`
have no offset in the table. -/
structure Holds (t : LabelTable) (m : LabelMap) (loose : Int) : Prop where
  get?_eq : ∀ offset : UInt32, t.get? offset = (m.get? offset.toNat).map (·.id.toUInt32)
  next_eq : t.next = m.next.toUInt32
  next_add : (m.next : Int) = t.byOffset.size + loose

theorem holds_empty : empty.Holds .empty 0 := by
  constructor <;> simp [empty, get?, LabelMap.empty, LabelMap.get?]

/-- Cutting the next number after counting up is counting up in 32 bits. -/
theorem Holds.next_succ (h : t.Holds m loose) : t.next + 1 = (m.next + 1).toUInt32 := by
  rw [h.next_eq, Nat.toUInt32_eq, Nat.toUInt32_eq, UInt32.ofNat_add]
  rfl

theorem Holds.fresh (h : t.Holds m loose) : t.fresh.2.Holds m.fresh.2 (loose + 1) := by
  refine ⟨h.get?_eq, h.next_succ, ?_⟩
  have hnext := h.next_add
  simp only [LabelMap.fresh, LabelTable.fresh]
  omega

theorem Holds.labelAt (h : t.Holds m loose) (offset : UInt32) :
    (t.labelAt offset).1 = (m.labelAt offset.toNat).1.id.toUInt32 ∧
      (t.labelAt offset).2.Holds (m.labelAt offset.toNat).2 loose := by
  have hget := h.get?_eq offset
  unfold LabelTable.labelAt LabelMap.labelAt
  cases hm : m.get? offset.toNat with
  | some label =>
    rw [hm] at hget
    simp only [hget, Option.map_some]
    exact ⟨trivial, h⟩
  | none =>
    rw [hm] at hget
    simp only [hget, Option.map_none]
    refine ⟨h.next_eq, fun other => ?_, h.next_succ, ?_⟩
    · have hother := h.get?_eq other
      simp only [get?, LabelMap.get?, Std.TreeMap.getElem?_insert,
        Std.LawfulEqCmp.compare_eq_iff_eq, UInt32.toNat_inj] at hother ⊢
      by_cases hsame : offset = other
      · rw [if_pos hsame, if_pos hsame, h.next_eq, Option.map_some]
      · rw [if_neg hsame, if_neg hsame, hother]
    · have hnew : ¬ t.byOffset.contains offset = true := by simpa [get?] using hget
      have hnext := h.next_add
      simp only [Std.TreeMap.size_insert, if_neg hnew]
      omega

/-- Every table holds the numbers of a map. -/
theorem holds_toLabelMap (t : LabelTable) :
    t.Holds t.toLabelMap (t.next.toNat - t.byOffset.size) := by
  refine ⟨fun offset => ?_, UInt32.ofNat_toNat.symm, by simp [toLabelMap]⟩
  set cast : UInt32 × UInt32 → Nat × Label := fun entry => (entry.1.toNat, ⟨entry.2.toNat⟩)
  show t.byOffset[offset]? =
    (Std.TreeMap.ofList (t.byOffset.toList.map cast) _)[offset.toNat]?.map (·.id.toUInt32)
  cases hget : t.byOffset[offset]? with
  | some label =>
    have hmem : (offset.toNat, Label.mk label.toNat) ∈ t.byOffset.toList.map cast :=
      List.mem_map_of_mem (f := cast) (Std.TreeMap.mem_toList_iff_getElem?_eq_some.mpr hget)
    have hkeys : (t.byOffset.toList.map cast).Pairwise fun a b => ¬ compare a.1 b.1 = .eq := by
      refine List.pairwise_map.mpr (Std.TreeMap.distinct_keys_toList.imp fun hne heq => hne ?_)
      simpa [cast, UInt32.toNat_inj] using heq
    rw [Std.TreeMap.getElem?_ofList_of_mem (by simp) hkeys hmem, Option.map_some]
    exact congrArg some UInt32.ofNat_toNat.symm
  | none =>
    rw [Std.TreeMap.getElem?_ofList_of_contains_eq_false, Option.map_none]
    rw [List.contains_eq_mem, decide_eq_false_iff_not, List.map_map, List.mem_map]
    rintro ⟨⟨other, label⟩, hmem, heq⟩
    obtain rfl : other = offset := UInt32.toNat_inj.mp heq
    rw [Std.TreeMap.mem_toList_iff_getElem?_eq_some, hget] at hmem
    contradiction

/-- The tables that come about when labels are handed out, `loose` of them for no offset. -/
inductive Made : Nat → LabelTable → Prop
  | empty : Made 0 empty
  | labelAt {loose : Nat} {t : LabelTable} (offset : UInt32) :
    Made loose t → Made loose (t.labelAt offset).2
  | fresh {loose : Nat} {t : LabelTable} : Made loose t → Made (loose + 1) t.fresh.2

/-- A table that came about holds the numbers of a map without a label that two offsets share. -/
theorem Made.exists_holds {loose : Nat} (h : Made loose t) :
    ∃ m : LabelMap, m.Distinct ∧ t.Holds m loose := by
  induction h with
  | empty => exact ⟨.empty, LabelMap.distinct_empty, holds_empty⟩
  | @labelAt loose t offset _ ih =>
    obtain ⟨m, hdistinct, hholds⟩ := ih
    exact ⟨_, (m.labelAt_spec offset.toNat).1.distinct hdistinct, (hholds.labelAt offset).2⟩
  | @fresh loose t _ ih =>
    obtain ⟨m, hdistinct, hholds⟩ := ih
    exact ⟨m.fresh.2, hdistinct.fresh, mod_cast hholds.fresh⟩

theorem size_le (t : LabelTable) : t.byOffset.size ≤ 2 ^ 32 := by
  have hkeys : (t.byOffset.keys.map UInt32.toNat).Nodup :=
    Std.TreeMap.nodup_keys.map fun _ _ => UInt32.toNat_inj.mp
  have hlt : t.byOffset.keys.map UInt32.toNat ⊆ List.range (2 ^ 32) := by
    intro n hn
    obtain ⟨offset, -, rfl⟩ := List.mem_map.mp hn
    exact List.mem_range.mpr offset.toNat_lt
  have hlength := (hkeys.subperm hlt).length_le
  rwa [List.length_map, Std.TreeMap.length_keys, List.length_range] at hlength

/-- As long as the numbers did not start again, no two offsets share one. -/
theorem Holds.injective (h : t.Holds m loose) (hdistinct : m.Distinct)
    (hroom : t.byOffset.size + loose ≤ 2 ^ 32) {offset offset' label : UInt32}
    (hget : t.get? offset = some label) (hget' : t.get? offset' = some label) :
    offset = offset' := by
  rw [h.get?_eq, Option.map_eq_some_iff] at hget hget'
  obtain ⟨first, hfirst, hid⟩ := hget
  obtain ⟨second, hsecond, hid'⟩ := hget'
  have hlt := hdistinct.id_lt _ _ hfirst
  have hlt' := hdistinct.id_lt _ _ hsecond
  have hnext := h.next_add
  have hsame : first.id = second.id := by
    have heq := congrArg UInt32.toNat (hid.trans hid'.symm)
    rwa [toNat_toUInt32_of_lt (by omega), toNat_toUInt32_of_lt (by omega)] at heq
  obtain rfl : first = second := congrArg Label.mk hsame
  exact UInt32.toNat_inj.mp (hdistinct.injective _ _ _ hfirst hsecond)

end LabelTable

/-! ## Targets -/

namespace Operand

variable {τ υ : Type} (f : τ → υ)

theorem mapTargets_branch (target : τ) :
    (Operand.branch target).mapTargets f = .branch (f target) := rfl

theorem mapTargets_tableSwitch (fallback : τ) (low : Int32) (targets : List τ) :
    (Operand.tableSwitch fallback low targets).mapTargets f =
      .tableSwitch (f fallback) low (targets.map f) := by
  simp [mapTargets, mapTargetsM]

theorem mapTargets_lookupSwitch (fallback : τ) (pairs : List (Int32 × τ)) :
    (Operand.lookupSwitch fallback pairs).mapTargets f =
      .lookupSwitch (f fallback) (pairs.map fun pair => (pair.1, f pair.2)) := by
  simp [mapTargets, mapTargetsM]

theorem targets_mapTargets (operand : Operand τ) :
    (operand.mapTargets f).targets = operand.targets.map f := by
  cases operand with
  | tableSwitch fallback low targets => rw [mapTargets_tableSwitch]; rfl
  | lookupSwitch fallback pairs =>
    rw [mapTargets_lookupSwitch]
    simp [targets]
  | _ => rfl

/-- Replacing targets by themselves changes nothing. -/
theorem mapTargets_of_forall {g : τ → τ} {operand : Operand τ}
    (h : ∀ target ∈ operand.targets, g target = target) : operand.mapTargets g = operand := by
  cases operand with
  | branch target => rw [mapTargets_branch, h target List.mem_cons_self]
  | tableSwitch fallback low targets =>
    obtain ⟨hfallback, htargets⟩ := List.forall_mem_cons.mp h
    rw [mapTargets_tableSwitch, hfallback, List.map_congr_left htargets, List.map_id']
  | lookupSwitch fallback pairs =>
    obtain ⟨hfallback, htargets⟩ := List.forall_mem_cons.mp h
    have hpairs : ∀ pair ∈ pairs, (pair.1, g pair.2) = pair := fun pair hmem =>
      Prod.ext rfl (htargets pair.2 (List.mem_map_of_mem hmem))
    rw [mapTargets_lookupSwitch, hfallback, List.map_congr_left hpairs, List.map_id']
  | _ => rfl

end Operand

/-- The instruction with its targets cut to 32 bits. -/
def Located.cut (l : Located Nat) : Located Nat :=
  ⟨l.offset, l.instruction.mapTargets (· % 2 ^ 32)⟩

/-- The instruction with its offset and its labels cut to 32 bits. -/
def Located.decoded (l : Located Label) : Decoded :=
  ⟨l.offset.toUInt32, l.instruction.mapTargets (·.id.toUInt32)⟩

theorem Located.targets_cut (l : Located Nat) :
    l.cut.instruction.targets = l.instruction.targets.map (· % 2 ^ 32) :=
  Operand.targets_mapTargets _ l.instruction.operand

theorem Located.targets_decoded (l : Located Label) :
    l.decoded.instruction.targets = l.instruction.targets.map (·.id.toUInt32) :=
  Operand.targets_mapTargets _ l.instruction.operand

/-! ## One decoder follows the other -/

namespace Numbering

variable {α β γ δ ε : Type}

/-- From a table that holds the numbers of a map, the numbering gives what the labelling gives from
the map, and the new table holds the numbers of the new map. -/
def Follows (x : Numbering α) (y : Labelling β) (f : β → α) : Prop :=
  ∀ t m loose, LabelTable.Holds t m loose →
    (x t).1 = f (y m).1 ∧ LabelTable.Holds (x t).2 (y m).2 loose

theorem Follows.pure {f : β → α} {a : α} {b : β} (h : a = f b) :
    (Pure.pure a : Numbering α).Follows (Pure.pure b) f :=
  fun _ _ _ hholds => ⟨h, hholds⟩

theorem Follows.bind {x : Numbering α} {y : Labelling β} {f : β → α} {k : α → Numbering γ}
    {k' : β → Labelling δ} {g : δ → γ} (hx : x.Follows y f)
    (hk : ∀ b, (k (f b)).Follows (k' b) g) : (x >>= k).Follows (y >>= k') g := by
  intro t m loose h
  obtain ⟨hresult, hholds⟩ := hx t m loose h
  show (k (x t).1 (x t).2).1 = _ ∧ LabelTable.Holds (k (x t).1 (x t).2).2 _ loose
  rw [hresult]
  exact hk (y m).1 _ _ loose hholds

theorem follows_label (target : Nat) :
    (label target.toUInt32).Follows (Labelling.label (target % 2 ^ 32)) (·.id.toUInt32) := by
  intro t m loose h
  have hlabel := h.labelAt target.toUInt32
  rwa [toNat_toUInt32] at hlabel

theorem follows_mapM {x : ε → Numbering α} {y : δ → Labelling β} {c : ε → δ} {f : β → α}
    (h : ∀ a, (x a).Follows (y (c a)) f) (as : List ε) :
    (as.mapM x).Follows ((as.map c).mapM y) (List.map f) := by
  induction as with
  | nil => exact .pure rfl
  | cons a as ih =>
    rw [List.map_cons, List.mapM_cons, List.mapM_cons]
    exact (h a).bind fun b => ih.bind fun bs => .pure rfl

theorem follows_mapTargetsM (operand : Operand Nat) :
    (operand.mapTargetsM fun target => label target.toUInt32).Follows
      ((operand.mapTargets (· % 2 ^ 32)).mapTargetsM Labelling.label)
      (Operand.mapTargets (·.id.toUInt32)) := by
  cases operand with
  | branch target => exact (follows_label target).bind fun new => .pure rfl
  | tableSwitch fallback low targets =>
    rw [Operand.mapTargets_tableSwitch]
    exact (follows_label fallback).bind fun new => (follows_mapM follows_label targets).bind
      fun news => .pure (Operand.mapTargets_tableSwitch (·.id.toUInt32) new low news).symm
  | lookupSwitch fallback pairs =>
    have hpair (pair : Int32 × Nat) : (do return (pair.1, ← label pair.2.toUInt32) :
        Numbering (Int32 × UInt32)).Follows
          (do return (pair.1, ← Labelling.label (pair.2 % 2 ^ 32)))
          fun new : Int32 × Label => (new.1, new.2.id.toUInt32) :=
      (follows_label pair.2).bind fun new => .pure rfl
    have hpairs := follows_mapM (c := fun pair : Int32 × Nat => (pair.1, pair.2 % 2 ^ 32))
      (y := fun pair => do return (pair.1, ← Labelling.label pair.2)) hpair pairs
    rw [Operand.mapTargets_lookupSwitch]
    exact (follows_label fallback).bind fun new => hpairs.bind
      fun news => .pure (Operand.mapTargets_lookupSwitch (·.id.toUInt32) new news).symm
  | _ => exact .pure rfl

theorem follows_numbered (l : Located Nat) :
    l.numbered.Follows l.cut.labelled Located.decoded := by
  refine Follows.bind (f := Instruction.mapTargets (·.id.toUInt32)) ?_ fun i => .pure rfl
  exact (follows_mapTargetsM l.instruction.operand).bind fun operand => .pure rfl

end Numbering

/-- What the decoder in 32 bits gives is what the instructions with cut targets give, in 32 bits. -/
theorem decode32_of_disassemble {code : List UInt8} {read : List (Located Nat)} {t : LabelTable}
    {m : LabelMap} {loose : Int} (hread : disassemble code = .ok read) (h : t.Holds m loose) :
    ∃ t', decode32 code t =
        .ok ((((read.map Located.cut).mapM Located.labelled m).1.map Located.decoded), t') ∧
      t'.Holds ((read.map Located.cut).mapM Located.labelled m).2 loose := by
  obtain ⟨hresult, hholds⟩ := Numbering.follows_mapM Numbering.follows_numbered read t m loose h
  refine ⟨_, ?_, hholds⟩
  rw [decode32, hread, ← hresult]
  rfl

/-! ## Both decoders agree -/

theorem decode32_eq_error {code : List UInt8} {t : LabelTable} {m : LabelMap} {e : Error} :
    decode32 code t = .error e ↔ decode code m = .error e := by
  unfold decode32 decode
  cases disassemble code with
  | error e' => constructor <;> exact fun h => congrArg Except.error (Except.error.inj h)
  | ok read => constructor <;> exact nofun

/-- In code of at most 4 GiB the decoder in 32 bits gives what the other one gives, cut to 32 bits. -/
theorem decode32_of_decode {code : List UInt8} {t : LabelTable} {m m' : LabelMap} {loose : Int}
    {instructions : List (Located Label)} (hlength : code.length ≤ 2 ^ 32) (h : t.Holds m loose)
    (hdecode : decode code m = .ok (instructions, m')) :
    ∃ t', decode32 code t = .ok (instructions.map Located.decoded, t') ∧ t'.Holds m' loose := by
  obtain ⟨read, hread, hlabelled⟩ := Success.except_bind.mp hdecode
  have hresult := Success.except_pure.mp hlabelled
  have hcut : ∀ l ∈ read, l.cut = l := fun l hl =>
    congrArg (fun operand => (⟨l.offset, ⟨l.instruction.opcode, operand⟩⟩ : Located Nat))
      (Operand.mapTargets_of_forall fun target htarget => Nat.mod_eq_of_lt
        ((target_lt_of_sequence (disassemble_eq_ok.mp hread) l hl target htarget).trans_le hlength))
  have hboth := decode32_of_disassemble hread h
  rw [List.map_congr_left hcut, List.map_id', ← hresult] at hboth
  exact hboth

/-! ## What the decoder gives -/

section

variable {code : List UInt8} {t t' : LabelTable} {decoded : List Decoded}

/-- What is decoded is what was taken apart, with labels for its targets and for nothing else. -/
theorem exists_read_of_decode32 (h : decode32 code t = .ok (decoded, t')) :
    ∃ read, disassemble code = .ok read ∧
      List.Forall₂ (fun (l : Located Nat) (d : Decoded) => d.offset = l.offset.toUInt32 ∧
        List.Forall₂ (fun target label => t'.get? target.toUInt32 = some label)
          l.instruction.targets d.instruction.targets) read decoded ∧
      (∀ place label, t.get? place = some label → t'.get? place = some label) ∧
      ∀ place, (t'.get? place).isSome → (t.get? place).isSome ∨
        ∃ l ∈ read, ∃ target ∈ l.instruction.targets, target.toUInt32 = place := by
  obtain ⟨read, hread, -⟩ := Success.except_bind.mp h
  obtain ⟨_, hdecode, hholds⟩ := decode32_of_disassemble hread t.holds_toLabelMap
  rw [h] at hdecode
  cases hdecode
  have ht := t.holds_toLabelMap
  generalize t.toLabelMap = m at hholds ht ⊢
  obtain ⟨hgrows, hlabels⟩ := Labelling.gives_mapM gives_labelled (read.map Located.cut) m
  have hnew := List.forall₂_map_left_iff.mp (hlabels _ (.refl _))
  have honly := Labelling.only_mapM only_labelled (read.map Located.cut) m
  refine ⟨read, hread, ?_, fun place label hget => ?_, fun place hplace => ?_⟩
  · refine List.forall₂_map_right_iff.mpr (hnew.imp fun l new hl => ⟨?_, ?_⟩)
    · exact congrArg Nat.toUInt32 hl.1
    · have htargets := Instruction.mapTargetsM_targets hl.2
      rw [l.targets_cut, List.forall₂_map_left_iff] at htargets
      rw [new.targets_decoded, List.forall₂_map_right_iff]
      exact htargets.imp fun target label hget => by
        rw [hholds.get?_eq, toNat_toUInt32, hget, Option.map_some]
  · rw [ht.get?_eq, Option.map_eq_some_iff] at hget
    obtain ⟨old, hold, hid⟩ := hget
    rw [hholds.get?_eq, hgrows.get? _ _ hold, Option.map_some, hid]
  · rw [hholds.get?_eq, Option.isSome_map] at hplace
    rw [ht.get?_eq, Option.isSome_map]
    refine (honly place.toNat hplace).imp id fun hmem => ?_
    obtain ⟨_, hcutl, htarget⟩ := List.mem_flatMap.mp hmem
    obtain ⟨l, hl, rfl⟩ := List.mem_map.mp hcutl
    rw [l.targets_cut] at htarget
    obtain ⟨target, htarget, hcut⟩ := List.mem_map.mp htarget
    refine ⟨l, hl, target, htarget, UInt32.toNat_inj.mp ?_⟩
    rw [toNat_toUInt32, hcut]

/-- As long as the numbers did not start again, no label is handed out for two places. -/
theorem injective_of_decode32 {loose : Nat} (h : decode32 code t = .ok (decoded, t'))
    (hmade : t.Made loose) (hroom : loose = 0 ∨ t'.byOffset.size + loose ≤ 2 ^ 32)
    {place place' label : UInt32} (hget : t'.get? place = some label)
    (hget' : t'.get? place' = some label) : place = place' := by
  obtain ⟨read, hread, -⟩ := Success.except_bind.mp h
  obtain ⟨m, hdistinct, ht⟩ := hmade.exists_holds
  obtain ⟨_, hdecode, hholds⟩ := decode32_of_disassemble hread ht
  rw [h] at hdecode
  cases hdecode
  have hgrows := (Labelling.gives_mapM gives_labelled (read.map Located.cut) m).1
  have hsize := t'.size_le
  exact hholds.injective (hgrows.distinct hdistinct) (by omega) hget hget'

end

end ClassPatch.Code
