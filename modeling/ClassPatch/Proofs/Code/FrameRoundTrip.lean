import Mathlib
import ClassPatch.Proofs.Code.WrittenFrames

/-!
# Parsed frames written back

What parsing a stack map table gives, and what writing its frames at the offsets of their labels
gives back. The table that is written is the shortest one with the same frames, so it replaces the
one that was parsed, and it is that one if it was compact.
-/

namespace ClassPatch.Code

open Bytes Bytes.Reader

/-! ## Places that stay -/

@[simp] theorem VerificationType.map_id (type : VerificationType Nat) : type.map id = type := by
  cases type <;> rfl

@[simp] theorem FrameKind.map_id (kind : FrameKind Nat) : kind.map id = kind := by
  cases kind <;> simp [FrameKind.map]

@[simp] theorem Frame.map_id (frame : Frame Nat) : frame.map id = frame := by
  simp [Frame.map]

/-- Where no two offsets share a label, a label is placed at its offset. -/
theorem LabelMap.Distinct.getElem?_places {m : LabelMap} (hdistinct : m.Distinct) {offset : Nat}
    {label : Label} (h : m.get? offset = some label) : m.places[label]? = some offset := by
  refine Std.HashMap.getElem?_ofList_of_mem (beq_self_eq_true label) ?_
    (List.mem_map.mpr ⟨(offset, label), Std.TreeMap.mem_toList_iff_getElem?_eq_some.mpr h, rfl⟩)
  rw [List.pairwise_map]
  refine Std.TreeMap.distinct_keys_toList.imp_of_mem fun {a b} ha hb hkeys => ?_
  rw [beq_eq_false_iff_ne]
  intro hsame
  have hlabel : a.2 = b.2 := hsame
  have ha := Std.TreeMap.mem_toList_iff_getElem?_eq_some.mp ha
  have hb := Std.TreeMap.mem_toList_iff_getElem?_eq_some.mp hb
  exact hkeys (Std.compare_eq_iff_eq.mpr
    (hdistinct.injective a.1 b.1 b.2 (ha.trans (congrArg some hlabel)) hb))

theorem FrameKind.Stored.distance_lt {distance : Nat} {kind : FrameKind Nat} {data : List UInt8}
    (h : kind.Stored distance data) : distance < UInt16.size := by
  cases h with
  | same hnear => exact hnear.trans (by decide)
  | sameLocals hnear _ => exact hnear.trans (by decide)
  | far hdistance _ => exact hdistance

namespace FrameTable

/-! ## Offsets -/

/-- The offsets that reading a table computes, whether the table is read in the end or not: after
frames that were read, the offset of the one that follows them. -/
inductive Computes (codeLength : Nat) (data : List UInt8) : Nat → Prop
  | next {count : UInt16} {n distance : Nat} {frames : List (Frame Nat)} {kind : FrameKind Nat}
        {start mid stop : Cursor} :
      u16 (Cursor.ofBytes data) = .ok count start → n < count.toNat →
      readFrames codeLength [] n start = .ok frames mid → readKind mid = .ok (distance, kind) stop →
      Computes codeLength data (offsetAfter (frames.getLast?.map (·.place)) distance)

theorem offsetAfter_eq (previous : Option Nat) (distance : Nat) :
    offsetAfter previous distance = previous.elim 0 (· + 1) + distance := by
  cases previous with
  | none => exact (Nat.zero_add distance).symm
  | some before =>
    simp only [offsetAfter, Option.elim_some]
    omega

/-- Each frame takes at most as far as the distances of two bytes. -/
theorem StoredAfter.place_lt {codeLength : Nat} {previous : Option Nat} {frames : List (Frame Nat)}
    {data : List UInt8} (h : StoredAfter codeLength previous frames data) :
    ∀ frame ∈ frames, frame.place < previous.elim 0 (· + 1) + UInt16.size * frames.length := by
  induction h with
  | nil => exact List.forall_mem_nil _
  | @cons previous distance frame frames _ _ hplace _ hkind _ ih =>
    have hdistance := hkind.distance_lt
    rw [offsetAfter_eq] at hplace
    rw [List.length_cons, Nat.mul_succ]
    refine List.forall_mem_cons.mpr ⟨by omega, fun other hother => ?_⟩
    have hlt := ih other hother
    rw [Option.elim_some] at hlt
    omega

/-- The number of frames is stored in two bytes, and so is every distance: no offset comes close to
the end of 32 bits. -/
theorem Computes.lt_size {codeLength : Nat} {data : List UInt8} {offset : Nat}
    (h : Computes codeLength data offset) : offset < UInt32.size := by
  cases h with
  | @next count n distance frames kind start mid stop _ hn hframes hkind =>
    obtain ⟨body, ⟨new, hnew, hlength, hstored⟩, -, -⟩ := (parses_readFrames n [] _ _ _).mp hframes
    obtain ⟨form, hform, -, -⟩ := (parses_readKind _ _ _).mp hkind
    have hdistance : distance < 65536 := FrameKind.Stored.distance_lt hform
    have hcount : count.toNat < 65536 := count.toNat_lt
    obtain rfl : frames = new := hnew
    have hlast : (frames.getLast?.map (·.place)).elim 0 (· + 1) ≤ 65536 * n := by
      cases hframe : frames.getLast? with
      | none => exact Nat.zero_le _
      | some frame =>
        have hlt := hstored.place_lt frame (List.mem_of_getLast? hframe)
        rw [hlength] at hlt
        simpa using hlt
    rw [offsetAfter_eq]
    show _ < 4294967296
    omega

/-! ## Round trip -/

/-- Frames whose labels are placed at their offsets are written in their shortest form. -/
theorem write_of_placed {m : LabelMap} {places : Places}
    (hplaces : ∀ place label, m.get? place = some label → places[label]? = some place)
    {frames : List (Frame Nat)} {new : List (Frame Label)}
    (hlabels : List.Forall₂ (Frame.Labels m) frames new) (hstorable : StorableAfter none frames)
    (hfew : frames.length < UInt16.size) : write new places = .ok (shortestTable frames) := by
  refine write_eq_shortestTable (hlabels.flip.imp fun new frame hframe => ?_) hstorable hfew
  exact frame.map_id ▸ Frame.mapPlacesM_map hplaces hframe

/-- No offset that parsing computes leaves 32 bits, whatever the bytes are. Parsed frames have the
labels of offsets that ascend within the code. Where offsets fit in two bytes, the frames can be
written at the offsets of their labels: in no more bytes than they were parsed from, in exactly those
if these were compact, and in every case in bytes that are parsed as the same frames. -/
theorem write_of_parse {labels : LabelMap} (hdistinct : labels.Distinct) (data : List UInt8)
    (codeLength : Nat) :
    (∀ offset, Computes codeLength data offset → offset < UInt32.size) ∧
      ∀ frames labels', parse data codeLength labels = .ok (frames, labels') →
        ∃ read : List (Frame Nat), List.Forall₂ (Frame.Labels labels') read frames ∧
          (read.map (·.place)).Pairwise (· < ·) ∧ (∀ frame ∈ read, frame.place < codeLength) ∧
          (codeLength ≤ 65535 → ∃ written, write frames labels'.places = .ok written ∧
            written.length ≤ data.length ∧
            (∀ other, parse written codeLength other = parse data codeLength other) ∧
            (written = data ↔ Compact codeLength data)) := by
  refine ⟨fun offset h => h.lt_size, fun frames labels' hparse => ?_⟩
  obtain ⟨read, hread, -⟩ := Success.except_bind.mp hparse
  obtain ⟨frames', labels'', hparse', hgrows, hlabels⟩ := parse_of_readTable hread labels
  cases hparse.symm.trans hparse'
  obtain ⟨hfew, body, hbody, -⟩ := (parsesAll_readTable codeLength).runOn.mp hread
  obtain ⟨hascending, hfits⟩ := hbody.storable
  have hinside := place_lt_of_runOn hread
  refine ⟨read, hlabels, hascending, hinside, fun hshort => ?_⟩
  have hstorable : StorableAfter none read :=
    ⟨hascending, fun frame hframe => (hinside frame hframe).trans_le (hshort.trans (by decide)), hfits⟩
  have hwrite := write_of_placed (fun _ _ => (hgrows.distinct hdistinct).getElem?_places) hlabels
    hstorable hfew
  obtain ⟨hagain, hcompact⟩ := readTable_shortestTable hstorable hfew hinside
  obtain ⟨hlength, heq⟩ := shortestTable_of_readTable hread
  refine ⟨shortestTable read, hwrite, hlength, fun other => ?_, fun h => h ▸ hcompact, heq⟩
  rw [parse, parse, hagain, hread]

/-- A frame with the long form of a short distance, one with a long distance and one that takes
locals away, which has no short form. -/
def looseTable : List UInt8 := [0, 3, 251, 0, 9, 251, 0, 70, 250, 0, 0]

theorem write_of_parse_looseTable : ∃ frames labels,
    parse looseTable 100 .empty = .ok (frames, labels) ∧ ¬ Compact 100 looseTable ∧
      ∃ written, write frames labels.places = .ok written ∧ written ≠ looseTable ∧
        parse written 100 .empty = .ok (frames, labels) := by
  have hread : (readTable 100).runOn looseTable =
      .ok [⟨9, .same⟩, ⟨80, .same⟩, ⟨81, .chop 1⟩] := by decide
  obtain ⟨frames, labels, hparse, -, -⟩ := parse_of_readTable hread .empty
  have hloose : ¬ Compact 100 looseTable := fun h =>
    absurd ((shortestTable_of_readTable hread).2 h) (by decide)
  obtain ⟨-, hround⟩ := write_of_parse LabelMap.distinct_empty looseTable 100
  obtain ⟨-, -, -, -, hwrite⟩ := hround frames labels hparse
  obtain ⟨written, hwritten, -, hagain, heq⟩ := hwrite (by decide)
  exact ⟨frames, labels, hparse, hloose, written, hwritten, fun h => hloose (heq.mp h),
    (hagain .empty).trans hparse⟩

end FrameTable

end ClassPatch.Code
