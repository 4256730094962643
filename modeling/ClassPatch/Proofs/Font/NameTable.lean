import Mathlib
import ClassPatch.Font.NameTable
import ClassPatch.Proofs.Bytes.Reader

/-!
# Name tables by their places in a font

The format of a font says where each number stands: the directory at the start, a table where the
first directory entry for names puts it, the records behind its header and their texts behind the
offset that the header gives. `recordsAt` and `NameEntry.First` read that off a font by positions
alone, and the readers, which go through the font once with every step checked against its end, find
exactly these records.
-/

namespace ClassPatch.Font

open Bytes Bytes.Reader

/-! ## Numbers at positions -/

/-- The number in the bytes at a position, as far as there are bytes. -/
def numberAt (font : List UInt8) (width pos : Nat) : Nat :=
  BigEndian.value ((font.drop pos).take width)

/-- The 16-bit word at a position. -/
def wordAt (font : List UInt8) (pos : Nat) : UInt16 := UInt16.ofNat (numberAt font 2 pos)

theorem numberAt_lt (font : List UInt8) (width pos : Nat) : numberAt font width pos < 256 ^ width :=
  (BigEndian.value_lt _).trans_le (Nat.pow_le_pow_right (by decide) (List.length_take_le ..))

section Cursor

variable {c : Cursor}

/-- Enough bytes are left before the end. -/
theorem le_length_rest {n : Nat} (h : c.pos + n ≤ c.data.length) : n ≤ c.rest.length := by
  rw [Cursor.length_rest]
  omega

theorem number_eq_ok {width : Nat} (h : c.pos + width ≤ c.data.length) :
    number width c = .ok (numberAt c.data width c.pos) (c.skip width) := by
  have hlength : (c.rest.take width).length = width := by
    rw [List.length_take, Nat.min_eq_left (le_length_rest h)]
  have hrun := (Parses.number width).run (c := c) ⟨hlength, rfl⟩ (List.take_append_drop ..).symm
  rwa [hlength, c.rest_eq] at hrun

theorem u16_eq_ok (h : c.pos + 2 ≤ c.data.length) :
    u16 c = .ok (wordAt c.data c.pos) (c.skip 2) :=
  Success.state_bind_ok (number_eq_ok h)

theorem u32_eq_ok (h : c.pos + 4 ≤ c.data.length) :
    u32 c = .ok (UInt32.ofNat (numberAt c.data 4 c.pos)) (c.skip 4) :=
  Success.state_bind_ok (number_eq_ok h)

theorem ensure_eq_ok_self {n : Nat} (h : n ≤ c.rest.length) : ensure n c = .ok () c :=
  ensure_eq_ok.mpr ⟨h, rfl⟩

theorem advance_eq_ok {n : Nat} (h : c.pos + n ≤ c.data.length) : advance n c = .ok () (c.skip n) := by
  rw [advance, Success.state_bind_ok (ensure_eq_ok_self (le_length_rest h))]
  rfl

theorem ensure_eq_error {n : Nat} (h : c.rest.length < n) : ensure n c = .error .outOfBounds c := by
  rw [ensure, if_pos]
  rw [List.length_take]
  omega

end Cursor

/-! ## The directory -/

/-- The directory entry at a position lies inside the font and is for a name table. -/
structure NameEntry (font : List UInt8) (pos : Nat) : Prop where
  inside : pos + 16 ≤ font.length
  tagged : numberAt font 4 pos = NameTable.tag.toNat

instance (font : List UInt8) (pos : Nat) : Decidable (NameEntry font pos) :=
  decidable_of_iff (_ ∧ _) ⟨fun h => ⟨h.1, h.2⟩, fun h => ⟨h.inside, h.tagged⟩⟩

/-- The extent that the directory entry at a position gives. -/
def extentAt (font : List UInt8) (pos : Nat) : NameTable.Extent :=
  ⟨numberAt font 4 (pos + 8), numberAt font 4 (pos + 12)⟩

/-- The `i`th of `n` entries from a position on is the first one for a name table. -/
structure NameEntry.First (font : List UInt8) (start n i : Nat) : Prop where
  declared : i < n
  entry : NameEntry font (start + 16 * i)
  before : ∀ j < i, ¬NameEntry font (start + 16 * j)

theorem NameEntry.First.zero {font : List UInt8} {start n : Nat} (h : NameEntry font start) :
    First font start (n + 1) 0 :=
  ⟨Nat.succ_pos n, h, fun _ hj => absurd hj (Nat.not_lt_zero _)⟩

/-- Only the first entry is before all others. -/
theorem NameEntry.First.eq_zero {font : List UInt8} {start n i : Nat} (hentry : NameEntry font start)
    (h : First font start n i) : i = 0 := by
  by_contra hi
  exact h.before 0 (Nat.pos_of_ne_zero hi) hentry

/-- Behind an entry for something else the entries are counted anew. -/
theorem NameEntry.First.succ_iff {font : List UInt8} {start n i : Nat}
    (hother : ¬NameEntry font start) :
    First font start (n + 1) (i + 1) ↔ First font (start + 16) n i := by
  have hnext (j : Nat) : start + 16 + 16 * j = start + 16 * (j + 1) := by omega
  constructor
  · intro h
    refine ⟨Nat.lt_of_succ_lt_succ h.declared, hnext i ▸ h.entry, fun j hj => ?_⟩
    rw [hnext]
    exact h.before (j + 1) (Nat.succ_lt_succ hj)
  · intro h
    refine ⟨Nat.succ_lt_succ h.declared, hnext i ▸ h.entry, fun j hj => ?_⟩
    cases j with
    | zero => exact hother
    | succ j => exact hnext j ▸ h.before j (Nat.lt_of_succ_lt_succ hj)

namespace NameTable

/-- One entry of the directory is read. -/
theorem findExtent?_succ {c : Cursor} (n : Nat) (h : c.pos + 16 ≤ c.data.length) :
    findExtent? (n + 1) c = if NameEntry c.data c.pos then .ok (some (extentAt c.data c.pos)) (c.skip 16)
      else findExtent? n (c.skip 16) := by
  have hlt (pos : Nat) : (UInt32.ofNat (numberAt c.data 4 pos)).toNat = numberAt c.data 4 pos :=
    UInt32.toNat_ofNat_of_lt' (numberAt_lt c.data 4 pos)
  have hentry : UInt32.ofNat (numberAt c.data 4 c.pos) = tag ↔ NameEntry c.data c.pos := by
    rw [← UInt32.toNat_inj, hlt]
    exact ⟨fun htag => ⟨h, htag⟩, fun hentry => hentry.tagged⟩
  rw [findExtent?, Success.state_bind_ok (ensure_eq_ok_self (le_length_rest h)),
    Success.state_bind_ok (u32_eq_ok (by omega)),
    Success.state_bind_ok (u32_eq_ok (by simpa using (by omega : c.pos + 8 ≤ c.data.length))),
    Success.state_bind_ok (u32_eq_ok (by simpa using (by omega : c.pos + 12 ≤ c.data.length))),
    Success.state_bind_ok (u32_eq_ok (by simpa using h))]
  simp only [hentry, Cursor.skip_skip, Cursor.pos_skip, Cursor.data_skip, hlt, Nat.reduceAdd]
  split <;> rfl

/-- The extent that is found is that of the first entry for a name table. -/
theorem findExtent?_eq_ok {extent : Extent} (n : Nat) (c : Cursor) :
    (∃ c', findExtent? n c = .ok (some extent) c') ↔
      ∃ i, NameEntry.First c.data c.pos n i ∧ extentAt c.data (c.pos + 16 * i) = extent := by
  induction n generalizing c with
  | zero =>
    constructor
    · rintro ⟨c', h⟩
      cases h
    · rintro ⟨i, hi, -⟩
      exact absurd hi.declared (Nat.not_lt_zero i)
  | succ n ih =>
    by_cases hinside : c.pos + 16 ≤ c.data.length
    · rw [findExtent?_succ n hinside]
      by_cases hentry : NameEntry c.data c.pos
      · rw [if_pos hentry]
        constructor
        · rintro ⟨c', h⟩
          cases h
          exact ⟨0, .zero hentry, rfl⟩
        · rintro ⟨i, hi, rfl⟩
          obtain rfl := hi.eq_zero hentry
          exact ⟨_, rfl⟩
      · rw [if_neg hentry, ih]
        constructor
        · rintro ⟨i, hi, rfl⟩
          refine ⟨i + 1, (NameEntry.First.succ_iff hentry).mpr hi, ?_⟩
          rw [Cursor.pos_skip, Cursor.data_skip, Nat.mul_succ, Nat.add_assoc, Nat.add_comm 16]
        · rintro ⟨i, hi, rfl⟩
          cases i with
          | zero => exact absurd hi.entry hentry
          | succ i =>
            refine ⟨i, (NameEntry.First.succ_iff hentry).mp hi, ?_⟩
            rw [Cursor.pos_skip, Cursor.data_skip, Nat.mul_succ, Nat.add_assoc, Nat.add_comm 16]
    -- an entry that is cut off ends the search, and no later one can lie inside
    · have hshort : c.rest.length < 16 := by
        rw [Cursor.length_rest]
        omega
      rw [findExtent?, Success.state_bind_error (ensure_eq_error hshort)]
      constructor
      · rintro ⟨c', h⟩
        cases h
      · rintro ⟨i, hi, -⟩
        have := hi.entry.inside
        omega

/-- The first entry for a name table in the directory of a font. -/
def FirstEntry (font : List UInt8) (i : Nat) : Prop :=
  NameEntry.First font 12 (wordAt font 4).toNat i

theorem directory_eq_ok {font : List UInt8} {extent : Extent} :
    directory.runOn font = .ok (some extent) ↔
      ∃ i, FirstEntry font i ∧ extentAt font (12 + 16 * i) = extent := by
  rw [runOn_eq_ok]
  by_cases hheader : 12 ≤ font.length
  · have hinside {n : Nat} (hn : n ≤ 12) : 0 + n ≤ font.length := by omega
    rw [directory, Success.state_bind_ok (ensure_eq_ok_self (le_length_rest (hinside le_rfl))),
      Success.state_bind_ok (u32_eq_ok (hinside (n := 4) (by decide))),
      Success.state_bind_ok (u16_eq_ok (hinside (n := 6) (by decide))),
      Success.state_bind_ok (advance_eq_ok (hinside (n := 12) (by decide)))]
    exact findExtent?_eq_ok _ _
  · have hshort : (Cursor.ofBytes font).rest.length < 12 := Nat.not_le.mp hheader
    rw [directory, Success.state_bind_error (ensure_eq_error hshort)]
    constructor
    · rintro ⟨c', h⟩
      cases h
    · rintro ⟨i, hi, -⟩
      have := hi.entry.inside
      omega

/-! ## Records -/

/-- Where the `i`th record of the table at `base` is stored. -/
def recordPos (base i : Nat) : Nat := base + 6 + 12 * i

/-- The length of the text of the `i`th record. -/
def textLength (font : List UInt8) (base i : Nat) : Nat := (wordAt font (recordPos base i + 8)).toNat

/-- Where the text of the `i`th record starts: the offset of the record counts from the one in the
header, and that one from the start of the table. -/
def textPos (font : List UInt8) (base i : Nat) : Nat :=
  base + (wordAt font (base + 4)).toNat + (wordAt font (recordPos base i + 10)).toNat

/-- The `i`th record with its text. -/
def recordAt (font : List UInt8) (base i : Nat) : NameRecord where
  query := {
    platform := wordAt font (recordPos base i)
    encoding := wordAt font (recordPos base i + 2)
    language := wordAt font (recordPos base i + 4)
    name := wordAt font (recordPos base i + 6) }
  data := (font.drop (textPos font base i)).take (textLength font base i)

/-- The `i`th record ends before the font does, and has a text inside the font. -/
structure Complete (font : List UInt8) (base i : Nat) : Prop where
  inside : recordPos base i + 12 ≤ font.length
  nonempty : 0 < textLength font base i
  text_inside : textPos font base i + textLength font base i ≤ font.length

instance (font : List UInt8) (base i : Nat) : Decidable (Complete font base i) :=
  decidable_of_iff (_ ∧ _ ∧ _) ⟨fun h => ⟨h.1, h.2.1, h.2.2⟩, fun h => ⟨h.1, h.2, h.3⟩⟩

/-- The declared records of the table at `base` that are complete, in their order. -/
def recordsAt (font : List UInt8) (base : Nat) : List NameRecord :=
  ((List.range (wordAt font (base + 2)).toNat).filter (Complete font base ·)).map (recordAt font base)

/-- The record that is stored at a position. -/
def storedAt (font : List UInt8) (pos : Nat) : StoredRecord where
  query := ⟨wordAt font pos, wordAt font (pos + 2), wordAt font (pos + 4), wordAt font (pos + 6)⟩
  length := (wordAt font (pos + 8)).toNat
  offset := (wordAt font (pos + 10)).toNat

theorem readRecord_eq_ok {c : Cursor} (h : c.pos + 12 ≤ c.data.length) :
    readRecord c = .ok (storedAt c.data c.pos) (c.skip 12) := by
  have hword {n : Nat} (hn : n + 2 ≤ 12) : u16 (c.skip n) =
      .ok (wordAt c.data (c.pos + n)) (c.skip (n + 2)) := by
    rw [u16_eq_ok (by simpa using (by omega : c.pos + n + 2 ≤ c.data.length)), Cursor.skip_skip]
    rfl
  rw [readRecord, Success.state_bind_ok (u16_eq_ok (by omega)),
    Success.state_bind_ok (hword (by decide)), Success.state_bind_ok (hword (by decide)),
    Success.state_bind_ok (hword (by decide)), Success.state_bind_ok (hword (by decide)),
    Success.state_bind_ok (hword (by decide))]
  rfl

/-- All records are read that end before the input does. -/
theorem readRecords_eq_ok (acc : List StoredRecord) (n : Nat) (c : Cursor) :
    ∃ c', readRecords acc n c = .ok (acc.reverse ++
      ((List.range n).filter fun i => c.pos + 12 * i + 12 ≤ c.data.length).map fun i =>
        storedAt c.data (c.pos + 12 * i)) c' := by
  induction n generalizing acc c with
  | zero => exact ⟨c, by simp [readRecords, pure, EStateM.pure]⟩
  | succ n ih =>
    have hget : (get : Reader Cursor) c = .ok c c := rfl
    have hshort : (c.rest.take 12).length < 12 ↔ c.data.length < c.pos + 12 := by
      rw [List.length_take, Cursor.length_rest]
      omega
    rw [readRecords, Success.state_bind_ok hget]
    by_cases hinside : c.pos + 12 ≤ c.data.length
    · obtain ⟨c', hrest⟩ := ih (storedAt c.data c.pos :: acc) (c.skip 12)
      refine ⟨c', ?_⟩
      have hnext (i : Nat) : c.pos + 12 + 12 * i = c.pos + 12 * (i + 1) := by omega
      rw [if_neg (mt hshort.mp (Nat.not_lt.mpr hinside)), Success.state_bind_ok (readRecord_eq_ok hinside), hrest,
        List.range_succ_eq_map, List.filter_cons_of_pos (by simpa using hinside), List.filter_map,
        List.map_cons, List.map_map]
      simp only [Cursor.pos_skip, Cursor.data_skip, hnext, List.reverse_cons, List.append_assoc,
        List.singleton_append]
      rfl
    -- behind a record that is cut off there is no other
    · have hnone : (List.range (n + 1)).filter (fun i => c.pos + 12 * i + 12 ≤ c.data.length) = [] := by
        rw [List.filter_eq_nil_iff]
        intro i _ hi
        have := of_decide_eq_true hi
        omega
      rw [if_pos (hshort.mpr (Nat.not_le.mp hinside)), hnone, List.map_nil, List.append_nil]
      exact ⟨c, rfl⟩

/-- The text of a record is found where the format puts it. -/
theorem resolve?_storedAt (font : List UInt8) (base i : Nat) :
    (storedAt font (recordPos base i)).resolve? font.toArray
        (base + (wordAt font (base + 4)).toNat) =
      if 0 < textLength font base i ∧
          textPos font base i + textLength font base i ≤ font.length then
        some (recordAt font base i)
      else none := by
  rw [StoredRecord.resolve?]
  show (if textLength font base i = 0 ∨
      font.toArray.size < textPos font base i + textLength font base i then none
    else some (NameRecord.mk (storedAt font (recordPos base i)).query
      (font.toArray.extract (textPos font base i)
        (textPos font base i + textLength font base i)).toList)) = _
  rw [List.size_toArray]
  split
  · rename_i hno
    rw [if_neg (by omega)]
  · rename_i hyes
    rw [if_pos (by omega), Array.toList_extract, List.extract_eq_take_drop, Nat.add_sub_cancel_left]
    rfl

/-- Of the stored records those are kept that have a text. -/
theorem filterMap_resolve? (font : List UInt8) (base n : Nat) :
    (((List.range n).filter fun i => recordPos base i + 12 ≤ font.length).map fun i =>
        storedAt font (recordPos base i)).filterMap
          (·.resolve? font.toArray (base + (wordAt font (base + 4)).toNat)) =
      ((List.range n).filter (Complete font base ·)).map (recordAt font base) := by
  rw [List.filterMap_map, List.filterMap_filter, ← List.filterMap_eq_map, List.filterMap_filter]
  refine List.filterMap_congr fun i _ => ?_
  rw [Function.comp_apply, resolve?_storedAt]
  by_cases hinside : recordPos base i + 12 ≤ font.length
  · have hcomplete : Complete font base i ↔ 0 < textLength font base i ∧
        textPos font base i + textLength font base i ≤ font.length :=
      ⟨fun h => ⟨h.nonempty, h.text_inside⟩, fun h => ⟨hinside, h.1, h.2⟩⟩
    simp only [hinside, hcomplete, decide_true, if_true, decide_eq_true_eq, Function.comp_apply]
  · have hcomplete : ¬Complete font base i := fun h => hinside h.inside
    simp only [hinside, hcomplete, decide_false, Bool.false_eq_true, if_false]

theorem runOn_readTable (font : List UInt8) (base : Nat) :
    (readTable font.toArray base).runOn font =
      if base + 6 ≤ font.length then .ok ⟨recordsAt font base⟩ else .error .outOfBounds := by
  have hempty : (font.drop base).isEmpty ↔ font.length ≤ base := by
    rw [List.isEmpty_iff, List.drop_eq_nil_iff]
  by_cases hheader : base + 6 ≤ font.length
  · have hseek : seek base (Cursor.ofBytes font) = .ok () ((Cursor.ofBytes font).moveTo base) :=
      if_neg (mt hempty.mp (by omega))
    have hinside {n : Nat} (hn : n ≤ 6) : base + n ≤ font.length := by omega
    obtain ⟨c', hrecords⟩ := readRecords_eq_ok [] (wordAt font (base + 2)).toNat
      (((Cursor.ofBytes font).moveTo base).skip 6)
    have hread : readTable font.toArray base (Cursor.ofBytes font) =
        .ok ⟨recordsAt font base⟩ c' := by
      rw [readTable, Success.state_bind_ok hseek,
        Success.state_bind_ok (ensure_eq_ok_self (le_length_rest (hinside le_rfl))),
        Success.state_bind_ok (u16_eq_ok (hinside (n := 2) (by decide))),
        Success.state_bind_ok (u16_eq_ok (hinside (n := 4) (by decide))),
        Success.state_bind_ok (u16_eq_ok (hinside (n := 6) (by decide)))]
      simp only [Cursor.skip_skip, Nat.reduceAdd]
      refine (Success.state_bind_ok hrecords).trans ?_
      rw [recordsAt, ← filterMap_resolve?]
      rfl
    rw [if_pos hheader, runOn, hread]
  · rw [if_neg hheader, runOn, readTable]
    by_cases hbase : font.length ≤ base
    · have hseek : seek base (Cursor.ofBytes font) = .error .outOfBounds (Cursor.ofBytes font) :=
        if_pos (hempty.mpr hbase)
      rw [Success.state_bind_error hseek]
    · have hseek : seek base (Cursor.ofBytes font) = .ok () ((Cursor.ofBytes font).moveTo base) :=
        if_neg (mt hempty.mp hbase)
      have hshort : ((Cursor.ofBytes font).moveTo base).rest.length < 6 := by
        rw [Cursor.length_rest]
        show font.length - base < 6
        omega
      rw [Success.state_bind_ok hseek, Success.state_bind_error (ensure_eq_error hshort)]

theorem records_parseExtent (font : List UInt8) (extent : Extent) :
    (parseExtent font extent).records =
      if extent.offset + extent.length ≤ font.length ∧ extent.offset + 6 ≤ font.length then
        recordsAt font extent.offset
      else [] := by
  rw [parseExtent, runOn_readTable]
  by_cases hextent : extent.offset + extent.length ≤ font.length
  · rw [if_neg (Nat.not_lt.mpr hextent)]
    by_cases hheader : extent.offset + 6 ≤ font.length
    · rw [if_pos hheader, if_pos ⟨hextent, hheader⟩]
    · rw [if_neg hheader, if_neg fun h => hheader h.2]
      rfl
  · rw [if_pos (Nat.not_le.mp hextent), if_neg fun h => hextent h.1]
    rfl

/-- Reading goes on behind the font nowhere: the sums of an offset that is stored in a table with
the place of the table stay within three words of the end of the font. -/
theorem textPos_add_textLength_lt (font : List UInt8) (base i : Nat) :
    textPos font base i + textLength font base i < base + 3 * UInt16.size := by
  have hstorage := (wordAt font (base + 4)).toNat_lt
  have hoffset := (wordAt font (recordPos base i + 10)).toNat_lt
  have hlength := (wordAt font (recordPos base i + 8)).toNat_lt
  rw [textPos, textLength]
  show _ < base + 3 * 65536
  omega

/-- The names of a font are the complete records of the table for which the directory has its first
entry, if the extent of the table and its header lie inside the font, and there are none otherwise.
So it is with the table at any extent. No sum of stored numbers leaves the machine's integers, as a
font takes less than half of them. -/
theorem records_parse (font : List UInt8) :
    (∀ extent : Extent, (parseExtent font extent).records =
      if extent.offset + extent.length ≤ font.length ∧ extent.offset + 6 ≤ font.length then
        recordsAt font extent.offset
      else []) ∧
    (∀ i, FirstEntry font i → parse font = parseExtent font (extentAt font (12 + 16 * i))) ∧
    ((∀ i, ¬FirstEntry font i) → (parse font).records = []) ∧
    (∀ extent : Extent, font.length < 2 ^ 63 → extent.offset + extent.length ≤ font.length → ∀ i,
      textPos font extent.offset i + textLength font extent.offset i < 2 ^ 64) := by
  refine ⟨records_parseExtent font, fun i hi => ?first, fun hnone => ?none,
    fun extent hfont hextent i => ?sums⟩
  case first =>
    rw [parse, directory_eq_ok.mpr ⟨i, hi, rfl⟩]
  case none =>
    cases hread : directory.runOn font with
    | error e => rw [parse, hread]; rfl
    | ok extent? =>
      cases extent? with
      | none => rw [parse, hread]; rfl
      | some extent =>
        obtain ⟨i, hi, -⟩ := directory_eq_ok.mp hread
        exact absurd hi (hnone i)
  case sums =>
    have hlt := textPos_add_textLength_lt font extent.offset i
    have hsize : 3 * UInt16.size ≤ 2 ^ 63 := by decide
    omega

/-- A font whose second entry is for names. Its table, whose extent takes in the header only,
declares three records: the text of the second one lies outside, and the third one is cut off. -/
def crowdedFont : List UInt8 :=
  [0, 1, 0, 0, 0, 2, 0, 0, 0, 0, 0, 0,
    0x63, 0x6D, 0x61, 0x70, 0, 0, 0, 0, 0, 0, 0, 0, 0, 0, 0, 44,
    0x6E, 0x61, 0x6D, 0x65, 0, 0, 0, 0, 0, 0, 0, 44, 0, 0, 0, 6,
    0, 0, 0, 3, 0, 30,
    0, 3, 0, 1, 4, 9, 0, 1, 0, 2, 0, 0,
    0, 3, 0, 1, 4, 9, 0, 2, 0, 1, 255, 255,
    0x41, 0x42, 0, 3, 0, 1]

theorem records_parse_crowdedFont : FirstEntry crowdedFont 1 ∧
    (parse crowdedFont).records = [⟨⟨3, 1, 1033, 1⟩, [0x41, 0x42]⟩] ∧
    textPos crowdedFont 44 1 + textLength crowdedFont 44 1 < 2 ^ 64 := by
  obtain ⟨hextent, hfirst, -, hsums⟩ := records_parse crowdedFont
  have hentry : FirstEntry crowdedFont 1 := ⟨by decide, by decide, by decide⟩
  refine ⟨hentry, ?_, hsums ⟨44, 6⟩ (by decide) (by decide) 1⟩
  rw [hfirst 1 hentry, hextent, if_pos (by decide)]
  decide

end NameTable

end ClassPatch.Font
