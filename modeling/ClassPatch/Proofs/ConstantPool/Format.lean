import Mathlib
import ClassPatch.ConstantPool.Format
import ClassPatch.Proofs.Bytes.Reader
import ClassPatch.Proofs.Text.ModifiedUtf8

/-!
# Stored constant pools — both directions

The reader of one constant reads exactly the stored forms of the usable constants.
For a pool the two sides differ in one point: the writer leaves unusable slots out
wherever they stand, while the reader puts them after the 8-byte constants. The pools
that come out of the reader are therefore described by the constants in them.
-/

namespace ClassPatch

open Bytes Text

namespace Constant

theorem parses_readPair (make : UInt16 → UInt16 → Constant) :
    (readPair make).Parses fun _ c data => ∃ first second,
      c = make first second ∧ data = BigEndian.u16 first ++ BigEndian.u16 second := by
  refine (Reader.Parses.u16.bind fun first => Reader.Parses.u16.map (make first)).congr
    fun pos c data => ?_
  constructor
  · rintro ⟨first, front, back, rfl, ⟨second, rfl, rfl⟩, rfl⟩
    exact ⟨first, second, rfl, rfl⟩
  · rintro ⟨first, second, rfl, rfl⟩
    exact ⟨first, _, _, rfl, ⟨second, rfl, rfl⟩, rfl⟩

/-- A text takes the two bytes of its length and its encoding. -/
theorem textBytes_eq_ok {text : String} {data : List UInt8} :
    textBytes text = .ok data ↔ (ModifiedUtf8.encode text).length < UInt16.size ∧
      data = 1 :: (BigEndian.bytes 2 (ModifiedUtf8.encode text).length ++
        ModifiedUtf8.encode text) := by
  simp only [textBytes, refuse]
  split
  · rename_i h
    simp [Nat.not_lt.mpr h]
  · rename_i h
    simp [Nat.not_le.mp h, eq_comm]

theorem parses_readText : readText.Parses fun _ c data =>
    ∃ text, c = utf8 text ∧ textBytes text = .ok (1 :: data) := by
  refine (Reader.Parses.u16.bind (G := fun length _ c data =>
    data.length = length.toNat ∧ ∃ text, c = utf8 text ∧ data = ModifiedUtf8.encode text)
      fun length => ?_).congr fun pos c data => ?_
  · refine ((Reader.Parses.bytes length.toNat).bind
      (G := fun read _ c data => data = [] ∧ ∃ text, c = utf8 text ∧
        ModifiedUtf8.decode read = .ok text) fun read => ?_).congr fun pos c data => ?_
    · cases ModifiedUtf8.decode read with
      | ok text =>
        refine (Reader.Parses.pure (utf8 text)).congr fun pos c data => ?_
        constructor
        · rintro ⟨rfl, rfl⟩
          exact ⟨rfl, text, rfl, rfl⟩
        · rintro ⟨rfl, text', rfl, htext⟩
          cases htext
          exact ⟨rfl, rfl⟩
      | error e =>
        intro c a c'
        simp [Success.state_throw]
    · constructor
      · rintro ⟨read, front, back, ⟨hlen, rfl⟩, ⟨rfl, text, rfl, htext⟩, rfl⟩
        rw [List.append_nil]
        exact ⟨hlen, text, rfl, ModifiedUtf8.decode_eq_ok.mp htext⟩
      · rintro ⟨hlen, text, rfl, rfl⟩
        exact ⟨_, _, [], ⟨hlen, rfl⟩, ⟨rfl, text, rfl, ModifiedUtf8.decode_eq_ok.mpr rfl⟩,
          by simp⟩
  · constructor
    · rintro ⟨length, front, back, rfl, ⟨hlen, text, rfl, rfl⟩, rfl⟩
      exact ⟨text, rfl, textBytes_eq_ok.mpr ⟨hlen ▸ length.toNat_lt, by rw [hlen]; rfl⟩⟩
    · rintro ⟨text, rfl, htext⟩
      obtain ⟨hlt, hdata⟩ := textBytes_eq_ok.mp htext
      obtain rfl := List.tail_eq_of_cons_eq hdata
      have hlength : (UInt16.ofNat (ModifiedUtf8.encode text).length).toNat
          = (ModifiedUtf8.encode text).length := UInt16.toNat_ofNat_of_lt' hlt
      refine ⟨UInt16.ofNat (ModifiedUtf8.encode text).length, _, _, rfl,
        ⟨hlength.symm, text, rfl, rfl⟩, ?_⟩
      rw [BigEndian.u16, hlength]

/-- The tag of a constant; unusable slots are not stored. -/
def tag : Constant → UInt8
  | unusable => 0
  | utf8 _ => 1
  | integer _ => 3
  | float _ => 4
  | long _ => 5
  | double _ => 6
  | classRef _ => 7
  | string _ => 8
  | member kind _ _ => kind.tag
  | nameAndType _ _ => 12
  | methodHandle _ _ => 15
  | methodType _ => 16
  | dynamic _ _ => 17
  | invokeDynamic _ _ => 18
  | module _ => 19
  | package _ => 20

theorem tag_of_bytes {c : Constant} {t : UInt8} {data : List UInt8}
    (h : c.bytes = .ok (t :: data)) : c.tag = t := by
  cases c with
  | utf8 text => exact (List.cons_eq_cons.mp (textBytes_eq_ok.mp h).2).1.symm
  | unusable => simp [bytes] at h
  | _ => exact (List.cons_eq_cons.mp (Except.ok.inj h)).1

@[simp] theorem tag_member_ne {kind : MemberKind} {t : UInt8} (hfield : t ≠ 9)
    (hmethod : t ≠ 10) (hinterface : t ≠ 11) : kind.tag = t ↔ False := by
  cases kind <;> simp [MemberKind.tag, hfield.symm, hmethod.symm, hinterface.symm]

/-- The stored form of a usable constant starts with its tag. -/
theorem bytes_eq_cons {c : Constant} {data : List UInt8} (hc : c ≠ unusable)
    (h : c.bytes = .ok data) : ∃ payload, data = c.tag :: payload := by
  cases c with
  | unusable => exact absurd rfl hc
  | utf8 text => exact ⟨_, (textBytes_eq_ok.mp h).2⟩
  | _ => exact ⟨_, (Except.ok.inj h).symm⟩

/-- Constants that hold one word. -/
theorem parses_word {α : Type} {t tag : UInt8} {r : Reader α} {store : α → List UInt8}
    (make : α → Constant) (hr : r.Parses fun _ a data => data = store a)
    (hmake : ∀ a, (make a).bytes = .ok (t :: store a))
    (honly : ∀ c : Constant, c.tag = t → ∃ a, c = make a) (htag : tag = t) :
    (do return make (← r) : Reader Constant).Parses fun _ c data =>
      c.bytes = .ok (tag :: data) := by
  subst htag
  refine (hr.map make).congr fun pos c data => ?_
  constructor
  · rintro ⟨a, rfl, rfl⟩
    exact hmake a
  · intro h
    obtain ⟨a, rfl⟩ := honly c (tag_of_bytes h)
    rw [hmake] at h
    cases h
    exact ⟨a, rfl, rfl⟩

/-- Constants that hold two indices. -/
theorem parses_pair {t tag : UInt8} (make : UInt16 → UInt16 → Constant)
    (hmake : ∀ first second, (make first second).bytes =
      .ok (t :: (BigEndian.u16 first ++ BigEndian.u16 second)))
    (honly : ∀ c : Constant, c.tag = t → ∃ first second, c = make first second)
    (htag : tag = t) :
    (readPair make).Parses fun _ c data => c.bytes = .ok (tag :: data) := by
  subst htag
  refine (parses_readPair make).congr fun pos c data => ?_
  constructor
  · rintro ⟨first, second, rfl, rfl⟩
    exact hmake first second
  · intro h
    obtain ⟨first, second, rfl⟩ := honly c (tag_of_bytes h)
    rw [hmake] at h
    cases h
    exact ⟨first, second, rfl, rfl⟩

theorem member_of_tag {c : Constant} {kind : MemberKind} (h : c.tag = kind.tag) :
    ∃ owner nameType, c = member kind owner nameType := by
  cases c with
  | member kind' owner nameType =>
    cases kind <;> cases kind' <;> first | exact ⟨_, _, rfl⟩ | simp [tag, MemberKind.tag] at h
  | _ => cases kind <;> simp [tag, MemberKind.tag] at h

/-- Member references, whose tag says what they refer to. -/
theorem parses_member {t : UInt8} (kind : MemberKind) (htag : t = kind.tag) :
    (readPair (member kind)).Parses fun _ c data => c.bytes = .ok (t :: data) :=
  parses_pair (member kind) (fun _ _ => rfl) (fun _ => member_of_tag) htag

theorem parses_methodHandle {t : UInt8} (htag : t = 15) : (do
    let kind ← Reader.u8
    return methodHandle kind (← Reader.u16) : Reader Constant).Parses fun _ c data =>
      c.bytes = .ok (t :: data) := by
  subst htag
  refine (Reader.Parses.u8.bind fun kind => Reader.Parses.u16.map (methodHandle kind)).congr
    fun pos c data => ?_
  constructor
  · rintro ⟨kind, front, back, rfl, ⟨reference, rfl, rfl⟩, rfl⟩
    rfl
  · intro h
    have htag := tag_of_bytes h
    cases c with
    | methodHandle kind reference =>
      cases h
      exact ⟨kind, _, _, rfl, ⟨reference, rfl, rfl⟩, rfl⟩
    | _ => simp [tag] at htag

theorem parses_text {t : UInt8} (htag : t = 1) :
    readText.Parses fun _ c data => c.bytes = .ok (t :: data) := by
  subst htag
  refine parses_readText.congr fun pos c data => ?_
  constructor
  · rintro ⟨text, rfl, htext⟩
    exact htext
  · intro h
    have htag := tag_of_bytes h
    cases c with
    | utf8 text => exact ⟨text, rfl, h⟩
    | _ => simp [tag] at htag

/-- Reading one constant accepts its stored form and nothing else. -/
theorem parses_read : read.Parses fun _ c data => c ≠ unusable ∧ c.bytes = .ok data := by
  refine (Reader.Parses.position.bind (G := fun _ _ c data => c ≠ unusable ∧ c.bytes = .ok data)
    fun offset => (Reader.Parses.u8.bind (G := fun tag _ c data => c.bytes = .ok (tag :: data))
      fun tag => ?_).congr fun pos c data => ?_).congr fun pos c data => ?_
  · refine .cases parses_text fun h1 => ?_
    refine .cases (parses_word integer .i32 (fun _ => rfl)
      (by rintro ⟨⟩ <;> simp [Constant.tag])) fun h3 => ?_
    refine .cases (parses_word float .u32 (fun _ => rfl)
      (by rintro ⟨⟩ <;> simp [Constant.tag])) fun h4 => ?_
    refine .cases (parses_word long .i64 (fun _ => rfl)
      (by rintro ⟨⟩ <;> simp [Constant.tag])) fun h5 => ?_
    refine .cases (parses_word double .u64 (fun _ => rfl)
      (by rintro ⟨⟩ <;> simp [Constant.tag])) fun h6 => ?_
    refine .cases (parses_word classRef .u16 (fun _ => rfl)
      (by rintro ⟨⟩ <;> simp [Constant.tag])) fun h7 => ?_
    refine .cases (parses_word string .u16 (fun _ => rfl)
      (by rintro ⟨⟩ <;> simp [Constant.tag])) fun h8 => ?_
    refine .cases (parses_member .field) fun h9 => ?_
    refine .cases (parses_member .method) fun h10 => ?_
    refine .cases (parses_member .interfaceMethod) fun h11 => ?_
    refine .cases (parses_pair nameAndType (fun _ _ => rfl)
      (by rintro ⟨⟩ <;> simp [Constant.tag])) fun h12 => ?_
    refine .cases parses_methodHandle fun h15 => ?_
    refine .cases (parses_word methodType .u16 (fun _ => rfl)
      (by rintro ⟨⟩ <;> simp [Constant.tag])) fun h16 => ?_
    refine .cases (parses_pair dynamic (fun _ _ => rfl)
      (by rintro ⟨⟩ <;> simp [Constant.tag])) fun h17 => ?_
    refine .cases (parses_pair invokeDynamic (fun _ _ => rfl)
      (by rintro ⟨⟩ <;> simp [Constant.tag])) fun h18 => ?_
    refine .cases (parses_word module .u16 (fun _ => rfl)
      (by rintro ⟨⟩ <;> simp [Constant.tag])) fun h19 => ?_
    refine .cases (parses_word package .u16 (fun _ => rfl)
      (by rintro ⟨⟩ <;> simp [Constant.tag])) fun h20 => ?_
    -- no constant has any other tag
    refine (Reader.Parses.malformed _).congr fun pos c data => ?_
    refine iff_of_false id fun h => ?_
    have htag := tag_of_bytes h
    subst htag
    cases c with
    | unusable => simp [bytes] at h
    | member kind owner nameType => cases kind <;> contradiction
    | _ => contradiction
  · constructor
    · rintro ⟨tag, front, back, rfl, h, rfl⟩
      exact ⟨by rintro rfl; simp [bytes] at h, h⟩
    · rintro ⟨hc, h⟩
      obtain ⟨payload, rfl⟩ := bytes_eq_cons hc h
      exact ⟨c.tag, [c.tag], payload, rfl, h, rfl⟩
  · constructor
    · rintro ⟨offset, front, back, ⟨rfl, rfl⟩, h, rfl⟩
      exact h
    · intro h
      exact ⟨pos, [], data, ⟨rfl, rfl⟩, h, rfl⟩

theorem length_slots_pos (c : Constant) : 0 < c.slots.length := by
  unfold slots
  split <;> simp

/-- The stored forms of usable constants. -/
def Stored : Format Constant := fun _ c data => c ≠ unusable ∧ c.bytes = .ok data

end Constant

namespace ConstantPool

open Constant (Stored)

/-- The pools that can come out of the reader: slot 0 and the slots after 8-byte
constants are unusable, and no others. -/
def Regular (pool : ConstantPool) : Prop :=
  ∃ constants : List Constant, (∀ c ∈ constants, c ≠ .unusable) ∧
    pool.entries.toList = .unusable :: constants.flatMap Constant.slots

/-! ## Reading slots -/

/-- What one constant adds to the slots that are read. -/
theorem readEntries_succ (acc : Array Constant) (n : Nat) :
    readEntries acc (n + 1) = (do
      let c ← Constant.read
      if c.slots.length ≤ n + 1 then readEntries (acc ++ c.slots) (n + 1 - c.slots.length)
      else Reader.malformed .wideConstantInLastSlot) := by
  rw [readEntries]
  congr 1
  funext c
  cases hwide : c.isWide with
  | false => simp [Constant.slots, hwide]
  | true => cases n <;> simp [Constant.slots, hwide]

theorem parses_readEntries (n : Nat) (acc : Array Constant) :
    (readEntries acc n).Parses fun pos entries data => ∃ constants : List Constant,
      entries.toList = acc.toList ++ constants.flatMap Constant.slots ∧
      (constants.flatMap Constant.slots).length = n ∧
      Format.Sequence Stored pos constants data := by
  induction n using Nat.strongRecOn generalizing acc with
  | ind n ih =>
    cases n with
    | zero =>
      refine (Reader.Parses.pure acc).congr fun pos entries data => ?_
      constructor
      · rintro ⟨rfl, rfl⟩
        exact ⟨[], by simp, rfl, .nil⟩
      · rintro ⟨constants, hentries, hlen, hseq⟩
        cases hseq with
        | nil => exact ⟨by simpa using hentries, rfl⟩
        | @cons _ c _ _ _ hc hseq =>
          have hpos := c.length_slots_pos
          rw [List.flatMap_cons, List.length_append] at hlen
          omega
    | succ n =>
      rw [readEntries_succ]
      refine (Constant.parses_read.bind (G := fun c pos entries data =>
        ∃ rest : List Constant,
          entries.toList = acc.toList ++ (c :: rest).flatMap Constant.slots ∧
          ((c :: rest).flatMap Constant.slots).length = n + 1 ∧
          Format.Sequence Stored pos rest data) fun c => ?_).congr fun pos entries data => ?_
      · have hpos := c.length_slots_pos
        refine .cases (fun hfit => ?_) fun hfit => ?_
        · refine (ih _ (by omega) _).congr fun pos entries data => exists_congr fun rest => ?_
          rw [List.flatMap_cons, List.length_append, Array.toList_appendList,
            List.append_assoc]
          refine and_congr_right fun _ => and_congr_left fun _ => ?_
          omega
        · refine (Reader.Parses.malformed _).congr fun pos entries data => ?_
          refine iff_of_false id ?_
          rintro ⟨rest, -, hlen, -⟩
          rw [List.flatMap_cons, List.length_append] at hlen
          omega
      · constructor
        · rintro ⟨c, front, back, hc, ⟨rest, hentries, hlen, hseq⟩, rfl⟩
          exact ⟨c :: rest, hentries, hlen, .cons hc hseq⟩
        · rintro ⟨constants, hentries, hlen, hseq⟩
          cases hseq with
          | nil => simp at hlen
          | cons hc hseq => exact ⟨_, _, _, hc, ⟨_, hentries, hlen, hseq⟩, rfl⟩

/-! ## Whole pools -/

/-- The slots of constants are stored by the stored forms of the constants. -/
theorem mapM_bytes_slots {constants : List Constant} {pos : Nat} {data : List UInt8} :
    Format.Sequence Stored pos constants data ↔ (∀ c ∈ constants, c ≠ .unusable) ∧
      ∃ parts, (constants.flatMap Constant.slots).mapM Constant.bytes = .ok parts ∧
        data = parts.flatten := by
  simp only [Success.except_mapM]
  induction constants generalizing pos data with
  | nil =>
    constructor
    · rintro ⟨⟩
      exact ⟨by simp, [], .nil, rfl⟩
    · rintro ⟨-, parts, ⟨⟩, rfl⟩
      exact .nil
  | cons c rest ih =>
    have hslots (parts : List (List UInt8)) :
        List.Forall₂ (fun c d => c.bytes = .ok d) ((c :: rest).flatMap Constant.slots) parts ↔
          ∃ front back, c.bytes = .ok front ∧
            List.Forall₂ (fun c d => c.bytes = .ok d) (rest.flatMap Constant.slots) back ∧
            parts = if c.isWide then front :: [] :: back else front :: back := by
      rw [List.flatMap_cons, Constant.slots]
      cases c.isWide with
      | false => simp [List.forall₂_cons_left_iff]
      | true =>
        simp only [if_true, List.cons_append, List.nil_append, List.forall₂_cons_left_iff,
          Constant.bytes, Except.ok.injEq]
        constructor
        · rintro ⟨front, _, hfront, ⟨_, back, rfl, hback, rfl⟩, rfl⟩
          exact ⟨front, back, hfront, hback, rfl⟩
        · rintro ⟨front, back, hfront, hback, rfl⟩
          exact ⟨front, _, hfront, ⟨[], back, rfl, hback, rfl⟩, rfl⟩
    constructor
    · intro h
      cases h with
      | cons hc hseq =>
        obtain ⟨hrest, back, hback, rfl⟩ := ih.mp hseq
        refine ⟨List.forall_mem_cons.mpr ⟨hc.1, hrest⟩, _, (hslots _).mpr ⟨_, back, hc.2, hback, rfl⟩, ?_⟩
        split <;> simp
    · rintro ⟨hne, parts, hparts, rfl⟩
      obtain ⟨front, back, hfront, hback, rfl⟩ := (hslots parts).mp hparts
      obtain ⟨hc, hrest⟩ := List.forall_mem_cons.mp hne
      have hflat : (if c.isWide then front :: [] :: back else front :: back).flatten
          = front ++ back.flatten := by
        split <;> simp
      rw [hflat]
      exact .cons ⟨hc, hfront⟩ (ih.mpr ⟨hrest, back, hback, rfl⟩)

theorem bytes_eq_ok {pool : ConstantPool} {data : List UInt8} :
    pool.bytes = .ok data ↔ pool.size ≤ maxSize ∧
      ∃ parts, pool.entries.toList.mapM Constant.bytes = .ok parts ∧
        data = BigEndian.u16 (UInt16.ofNat pool.size) ++ parts.flatten := by
  simp only [bytes, count, refuse, Success.except_bind, Success.except_pure]
  by_cases hsize : maxSize < pool.size
  · simp [hsize, Nat.not_le.mpr hsize]
  · simp only [if_neg hsize, Except.ok.injEq, exists_eq_left', Nat.not_lt.mp hsize, true_and]

/-- Reading a pool accepts what a regular pool is stored as and nothing else. -/
theorem parses_read : read.Parses fun _ pool data => pool.Regular ∧ pool.bytes = .ok data := by
  refine (Reader.Parses.u16.bind (G := fun count pos pool data => ∃ constants : List Constant,
    pool.entries.toList = .unusable :: constants.flatMap Constant.slots ∧
      pool.size = count.toNat ∧ Format.Sequence Stored pos constants data)
    fun count => ?_).congr fun pos pool data => ?_
  · refine .cases (fun hzero => ?_) fun hpos => ?_
    · refine (Reader.Parses.malformed _).congr fun pos pool data => iff_of_false id ?_
      rintro ⟨constants, hentries, hsize, -⟩
      rw [size, ← Array.length_toList, hentries, hzero] at hsize
      simp at hsize
    · refine ((parses_readEntries _ _).map ConstantPool.mk).congr fun pos pool data => ?_
      have hcount : 0 < count.toNat := by
        rcases Nat.eq_zero_or_pos count.toNat with h | h
        · exact absurd (UInt16.toNat_inj.mp h) hpos
        · exact h
      constructor
      · rintro ⟨entries, ⟨constants, hentries, hlen, hseq⟩, rfl⟩
        refine ⟨constants, hentries, ?_, hseq⟩
        rw [size, ← Array.length_toList, hentries, List.length_append, hlen]
        simp only [List.length_singleton]
        omega
      · rintro ⟨constants, hentries, hsize, hseq⟩
        refine ⟨pool.entries, ⟨constants, hentries, ?_, hseq⟩, rfl⟩
        rw [size, ← Array.length_toList, hentries, List.length_cons] at hsize
        omega
  · constructor
    · rintro ⟨count, front, back, rfl, ⟨constants, hentries, hsize, hseq⟩, rfl⟩
      obtain ⟨hne, parts, hparts, rfl⟩ := mapM_bytes_slots.mp hseq
      refine ⟨⟨constants, hne, hentries⟩, bytes_eq_ok.mpr ⟨?_, [] :: parts, ?_, ?_⟩⟩
      · have := count.toNat_lt
        rw [hsize, maxSize]
        omega
      · rw [Success.except_mapM] at hparts ⊢
        rw [hentries]
        exact .cons rfl hparts
      · rw [hsize, UInt16.ofNat_toNat, List.flatten_cons, List.nil_append]
    · rintro ⟨⟨constants, hne, hentries⟩, hbytes⟩
      obtain ⟨hsize, parts, hparts, rfl⟩ := bytes_eq_ok.mp hbytes
      rw [hentries, Success.except_mapM, List.forall₂_cons_left_iff] at hparts
      obtain ⟨front, back, hfront, hback, rfl⟩ := hparts
      cases hfront
      refine ⟨UInt16.ofNat pool.size, _, _, rfl, ⟨constants, hentries, ?_, ?_⟩, rfl⟩
      · exact (UInt16.toNat_ofNat_of_lt' (Nat.lt_succ_of_le hsize)).symm
      · rw [List.flatten_cons, List.nil_append]
        exact mapM_bytes_slots.mpr ⟨hne, back, Success.except_mapM.mpr hback, rfl⟩

end ConstantPool

end ClassPatch
