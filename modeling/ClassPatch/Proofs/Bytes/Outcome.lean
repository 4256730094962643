import Mathlib
import ClassPatch.Proofs.Bytes.Bounds
import ClassPatch.Proofs.Text.Utf8

/-!
# Outcomes of single readers

Each reader that moves a cursor or reads at it has an equivalence that says by positions in the
input when it succeeds and what it gives then, and a statement about its failures. They leave the
cursor where it was, which is `FailsWithin Eq`, with one exception: the bytes up to a stop are
passed before they are refused for being the encoding of no text.
-/

namespace ClassPatch.Bytes

namespace Cursor

variable {c c' : Cursor} {stops name : List UInt8}

/-- The bytes stand at the cursor, and the other cursor is behind them. -/
def Passes (c : Cursor) (data : List UInt8) (c' : Cursor) : Prop :=
  data <+: c.data.drop c.pos ∧ c' = c.skip data.length

theorem passes_iff {data : List UInt8} :
    c.Passes data c' ↔ c.rest = data ++ c'.rest ∧ c' = c.skip data.length := by
  unfold Passes
  rw [← c.rest_eq]
  constructor
  · intro h
    obtain ⟨⟨tail, htail⟩, rfl⟩ := h
    exact ⟨by rw [rest_skip, ← htail, List.drop_left], rfl⟩
  · intro h
    exact ⟨⟨c'.rest, h.1.symm⟩, h.2⟩

/-- Some bytes of a number can be passed if there are that many. -/
theorem exists_passes_iff {n : Nat} (hc : c.Inside) :
    (∃ data, data.length = n ∧ c.Passes data c') ↔
      c.pos + n ≤ c.data.length ∧ c' = c.skip n := by
  rw [← le_length_rest_iff hc, c.rest_eq]
  constructor
  · intro h
    obtain ⟨data, rfl, hdata, rfl⟩ := h
    exact ⟨hdata.length_le, rfl⟩
  · intro h
    obtain ⟨hn, rfl⟩ := h
    have hlength : ((c.data.drop c.pos).take n).length = n := by
      rw [List.length_take, Nat.min_eq_left hn]
    exact ⟨_, hlength, List.take_prefix _ _, by rw [hlength]⟩

/-- A name stands at the cursor: one byte or more, none of them a stop, and a stop behind them. -/
structure HoldsName (c : Cursor) (stops name : List UInt8) : Prop where
  ne_nil : name ≠ []
  unstopped : ∀ b ∈ name, b ∉ stops
  stopped : ∃ stop ∈ stops, name ++ [stop] <+: c.data.drop c.pos

theorem HoldsName.length_le (h : c.HoldsName stops name) : name.length ≤ c.rest.length := by
  obtain ⟨stop, -, hstop⟩ := h.stopped
  rw [c.rest_eq]
  exact ((List.prefix_append name [stop]).trans hstop).length_le

/-- There is no other name than what stands before the first stop. -/
theorem holdsName_iff : c.HoldsName stops name ↔ name = c.rest.takeWhile (!stops.contains ·) ∧
    name ≠ [] ∧ c.rest.drop name.length ≠ [] := by
  constructor
  · intro h
    obtain ⟨stop, hstop, tail, htail⟩ := h.stopped
    rw [← c.rest_eq, List.append_assoc, List.singleton_append] at htail
    refine ⟨?_, h.ne_nil, ?_⟩
    · rw [← htail, List.takeWhile_append_of_pos fun b hb => by simpa using h.unstopped b hb,
        List.takeWhile_cons_of_neg (by simpa using hstop), List.append_nil]
    · rw [← htail, List.drop_left]
      exact List.cons_ne_nil _ _
  · intro h
    obtain ⟨hname, hne, hmore⟩ := h
    have hrest : name ++ c.rest.dropWhile (!stops.contains ·) = c.rest := by
      rw [hname, List.takeWhile_append_dropWhile]
    have hdrop : c.rest.drop name.length = c.rest.dropWhile (!stops.contains ·) := by
      conv => lhs; rw [← hrest]
      exact List.drop_left
    have hhead := List.head?_dropWhile_not (!stops.contains ·) c.rest
    refine ⟨hne, fun b hb => ?_, ?_⟩
    · rw [hname] at hb
      simpa using List.mem_takeWhile_imp hb
    · rw [hdrop] at hmore
      cases hback : c.rest.dropWhile (!stops.contains ·) with
      | nil => exact absurd hback hmore
      | cons stop tail =>
        rw [hback] at hhead hrest
        refine ⟨stop, by simpa using hhead, tail, ?_⟩
        rw [← c.rest_eq, List.append_assoc, List.singleton_append, hrest]

end Cursor

/-! ## Words -/

/-- The words that can be read. A floating-point number is read as the word of its bits. -/
inductive Word where
  | u8
  | i8
  | u16
  | i16
  | u32
  | i32
  | u64
  | i64

namespace Word

/-- The values of a word. -/
def Value : Word → Type
  | u8 => UInt8
  | i8 => Int8
  | u16 => UInt16
  | i16 => Int16
  | u32 => UInt32
  | i32 => Int32
  | u64 => UInt64
  | i64 => Int64

/-- The next word. -/
def read : (word : Word) → Reader word.Value
  | u8 => Reader.u8
  | i8 => Reader.i8
  | u16 => Reader.u16
  | i16 => Reader.i16
  | u32 => Reader.u32
  | i32 => Reader.i32
  | u64 => Reader.u64
  | i64 => Reader.i64

/-- The bytes of a word, most significant one first. -/
def bytes : (word : Word) → word.Value → List UInt8
  | u8, value => [value]
  | i8, value => [value.toUInt8]
  | u16, value => BigEndian.u16 value
  | i16, value => BigEndian.i16 value
  | u32, value => BigEndian.u32 value
  | i32, value => BigEndian.i32 value
  | u64, value => BigEndian.u64 value
  | i64, value => BigEndian.i64 value

theorem parses_read (word : Word) : word.read.Parses fun _ value data => data = word.bytes value :=
  match word with
  | u8 => Reader.Parses.u8
  | i8 => Reader.Parses.i8
  | u16 => Reader.Parses.u16
  | i16 => Reader.Parses.i16
  | u32 => Reader.Parses.u32
  | i32 => Reader.Parses.i32
  | u64 => Reader.Parses.u64
  | i64 => Reader.Parses.i64

theorem keeps_read (word : Word) : Keeps Cursor.Reaches word.read :=
  match word with
  | u8 => Reader.keeps_u8
  | i8 => Reader.keeps_i8
  | u16 => Reader.keeps_u16
  | i16 => Reader.keeps_i16
  | u32 => Reader.keeps_u32
  | i32 => Reader.keeps_i32
  | u64 => Reader.keeps_u64
  | i64 => Reader.keeps_i64

end Word

namespace Reader

variable {α β : Type} {c c' : Cursor}

/-! ## Success -/

theorem Parses.eq_ok_iff {r : Reader α} {F : Format α} (h : r.Parses F) {a : α} :
    r c = .ok a c' ↔ ∃ data, F c.pos a data ∧ c.Passes data c' := by
  rw [h]
  exact exists_congr fun data => and_congr_right' Cursor.passes_iff.symm

theorem seek_eq_ok_iff {pos : Nat} {u : Unit} :
    seek pos c = .ok u c' ↔ pos < c.data.length ∧ c' = c.moveTo pos := by
  have hempty : (c.data.drop pos).isEmpty ↔ c.data.length ≤ pos := by
    rw [List.isEmpty_iff, List.drop_eq_nil_iff]
  unfold seek
  split
  · rename_i h
    simp [Nat.not_lt.mpr (hempty.mp h)]
  · rename_i h
    simp [Nat.not_le.mp (mt hempty.mpr h), eq_comm]

theorem ensure_eq_ok_iff {n : Nat} {u : Unit} (hc : c.Inside) :
    ensure n c = .ok u c' ↔ c.pos + n ≤ c.data.length ∧ c' = c := by
  rw [ensure_eq_ok, Cursor.le_length_rest_iff hc]

theorem endPosition_eq_ok_iff {n pos : Nat} (hc : c.Inside) :
    endPosition n c = .ok pos c' ↔ pos = c.pos + n ∧ pos ≤ c.data.length ∧ c' = c := by
  unfold endPosition
  rw [Success.state_bind]
  constructor
  · intro h
    obtain ⟨u, middle, hensure, hend⟩ := h
    obtain ⟨hn, rfl⟩ := (ensure_eq_ok_iff hc).mp hensure
    cases hend
    exact ⟨rfl, hn, rfl⟩
  · intro h
    obtain ⟨rfl, hn, rfl⟩ := h
    exact ⟨(), c', (ensure_eq_ok_iff hc).mpr ⟨hn, rfl⟩, rfl⟩

theorem advance_eq_ok_iff {n : Nat} {u : Unit} (hc : c.Inside) :
    advance n c = .ok u c' ↔ c.pos + n ≤ c.data.length ∧ c' = c.skip n :=
  (Parses.advance n).eq_ok_iff.trans (Cursor.exists_passes_iff hc)

/-- The padding is the one number below the unit that leads to a multiple of it. -/
theorem padding_eq_iff {unit pos n : Nat} (hunit : 0 < unit) :
    n = (unit - pos % unit) % unit ↔ n < unit ∧ unit ∣ pos + n := by
  have hdvd : unit ∣ pos + n ↔ unit ∣ pos % unit + n := by
    rw [Nat.dvd_iff_mod_eq_zero, Nat.dvd_iff_mod_eq_zero, Nat.mod_add_mod]
  have hlt := Nat.mod_lt pos hunit
  rw [hdvd]
  generalize pos % unit = r at hlt
  obtain rfl | hr := Nat.eq_zero_or_pos r
  · rw [Nat.sub_zero, Nat.mod_self, Nat.zero_add]
    constructor
    · rintro rfl
      exact ⟨hunit, Nat.dvd_zero _⟩
    · exact fun h => Nat.eq_zero_of_dvd_of_lt h.2 h.1
  · rw [Nat.mod_eq_of_lt (Nat.sub_lt hunit hr)]
    constructor
    · rintro rfl
      exact ⟨Nat.sub_lt hunit hr, by rw [Nat.add_sub_of_le hlt.le]⟩
    · intro h
      obtain ⟨hn, k, hk⟩ := h
      -- two numbers below the unit make less than twice the unit
      have hpos : k ≠ 0 := by
        rintro rfl
        omega
      have htwo : k < 2 := Nat.lt_of_mul_lt_mul_left (a := unit) (by omega)
      obtain rfl : k = 1 := by omega
      omega

theorem align_eq_ok_iff {unit : Nat} {u : Unit} (hunit : 0 < unit) (hc : c.Inside) :
    align unit c = .ok u c' ↔
      ∃ n < unit, unit ∣ c.pos + n ∧ c.pos + n ≤ c.data.length ∧ c' = c.skip n := by
  rw [(Parses.align unit).eq_ok_iff, Cursor.exists_passes_iff hc]
  constructor
  · intro h
    obtain ⟨hlt, hdvd⟩ := (padding_eq_iff hunit).mp (rfl : (unit - c.pos % unit) % unit = _)
    exact ⟨_, hlt, hdvd, h⟩
  · intro h
    obtain ⟨n, hlt, hdvd, hpass⟩ := h
    rwa [← (padding_eq_iff hunit).mpr ⟨hlt, hdvd⟩]

theorem peek_eq_ok_iff {b : UInt8} : peek c = .ok b c' ↔ c.data[c.pos]? = some b ∧ c' = c := by
  rw [← List.head?_drop, ← c.rest_eq]
  unfold peek
  cases c.rest <;> simp [eq_comm]

theorem bytes_eq_ok_iff {n : Nat} {data : List UInt8} :
    bytes n c = .ok data c' ↔ data.length = n ∧ c.Passes data c' := by
  rw [(Parses.bytes n).eq_ok_iff]
  constructor
  · intro h
    obtain ⟨_, ⟨hlength, rfl⟩, hpass⟩ := h
    exact ⟨hlength, hpass⟩
  · exact fun h => ⟨data, ⟨h.1, rfl⟩, h.2⟩

theorem attempt_eq_ok_iff {r : Reader α} {a : α} : attempt r c = .ok a c' ↔ r c = .ok a c' := by
  unfold attempt
  cases r c <;> simp

/-! ## Names -/

variable {stops name : List UInt8}

/-- A name that is a text is given and passed. -/
theorem identifier_of_text (h : c.HoldsName stops name) {text : String}
    (htext : Text.Utf8.decode name = .ok text) :
    identifier stops c = .ok text (c.skip name.length) := by
  obtain ⟨rfl, hne, hmore⟩ := Cursor.holdsName_iff.mp h
  simp only [identifier, List.isEmpty_iff, hne, hmore, if_false, htext]

/-- A name that is no text is passed all the same. -/
theorem identifier_of_fault (h : c.HoldsName stops name) {fault : Text.Utf8.Fault}
    (hfault : Text.Utf8.decode name = .error fault) :
    identifier stops c =
      .error (.malformed (.identifierText c.pos fault)) (c.skip name.length) := by
  obtain ⟨rfl, hne, hmore⟩ := Cursor.holdsName_iff.mp h
  simp only [identifier, List.isEmpty_iff, hne, hmore, if_false, hfault]

/-- Where there is no name, the cursor stays. -/
theorem exists_identifier_eq_error (h : ∀ name, ¬c.HoldsName stops name) :
    ∃ e, identifier stops c = .error e c := by
  have hname := h (c.rest.takeWhile (!stops.contains ·))
  rw [Cursor.holdsName_iff] at hname
  simp only [identifier, List.isEmpty_iff]
  split_ifs with hmore hne
  · exact ⟨_, rfl⟩
  · exact ⟨_, rfl⟩
  · exact absurd ⟨rfl, hne, hmore⟩ hname

theorem identifier_eq_ok_iff {text : String} :
    identifier stops c = .ok text c' ↔
      c.HoldsName stops (Text.Utf8.encode text) ∧ c' = c.skip (Text.Utf8.encode text).length := by
  constructor
  · intro h
    by_cases hname : ∃ name, c.HoldsName stops name
    · obtain ⟨name, hname⟩ := hname
      cases hdecode : Text.Utf8.decode name with
      | error fault =>
        rw [identifier_of_fault hname hdecode] at h
        cases h
      | ok text =>
        rw [identifier_of_text hname hdecode] at h
        cases h
        rw [Text.Utf8.decode_eq_ok_iff.mp hdecode]
        exact ⟨hname, rfl⟩
    · obtain ⟨e, herror⟩ := exists_identifier_eq_error (not_exists.mp hname)
      rw [herror] at h
      cases h
  · intro h
    obtain ⟨hname, rfl⟩ := h
    exact identifier_of_text hname (Text.Utf8.decode_encode text)

/-- A name that is the encoding of no text is refused, and the cursor is behind it then. -/
theorem exists_identifier_of_not_text (h : c.HoldsName stops name)
    (htext : ∀ text, Text.Utf8.encode text ≠ name) :
    ∃ e, identifier stops c = .error e (c.skip name.length) := by
  cases hdecode : Text.Utf8.decode name with
  | ok text => exact absurd (Text.Utf8.decode_eq_ok_iff.mp hdecode) (htext text)
  | error fault => exact ⟨_, identifier_of_fault h hdecode⟩

/-- Where every name is a text, a failure leaves the cursor. -/
theorem eq_of_identifier_eq_error {e : Error} (h : identifier stops c = .error e c')
    (htext : ∀ name, c.HoldsName stops name → ∃ text, Text.Utf8.encode text = name) : c' = c := by
  by_cases hname : ∃ name, c.HoldsName stops name
  · obtain ⟨name, hname⟩ := hname
    obtain ⟨text, rfl⟩ := htext name hname
    rw [identifier_eq_ok_iff.mpr ⟨hname, rfl⟩] at h
    cases h
  · obtain ⟨e', herror⟩ := exists_identifier_eq_error (not_exists.mp hname)
    rw [herror] at h
    cases h
    rfl

theorem keeps_identifier (stops : List UInt8) : Keeps Cursor.Reaches (identifier stops) := by
  intro c
  by_cases h : ∃ name, c.HoldsName stops name
  · obtain ⟨name, hname⟩ := h
    have hpassed := Cursor.reaches_skip hname.length_le
    cases hdecode : Text.Utf8.decode name with
    | ok text => rwa [identifier_of_text hname hdecode]
    | error fault => rwa [identifier_of_fault hname hdecode]
  · obtain ⟨e, herror⟩ := exists_identifier_eq_error (not_exists.mp h)
    rw [herror]
    exact .refl c

/-! ## Failure -/

theorem failsWithin_map {x : Reader α} (hx : FailsWithin Eq x) (f : α → β) :
    FailsWithin Eq (do return f (← x) : Reader β) :=
  .before hx fun a => NeverFails.pure (f a)

theorem failsWithin_seek (pos : Nat) : FailsWithin Eq (seek pos) := by
  intro c e c' h
  unfold seek at h
  split at h <;> cases h
  rfl

theorem failsWithin_ensure (n : Nat) : FailsWithin Eq (ensure n) := by
  intro c e c' h
  unfold ensure at h
  split at h <;> cases h
  rfl

theorem neverFails_position : NeverFails position :=
  fun c e c' h => by cases h

theorem failsWithin_endPosition (n : Nat) : FailsWithin Eq (endPosition n) :=
  .before (failsWithin_ensure n) fun _ => neverFails_position.bind fun _ => NeverFails.pure _

theorem failsWithin_advance (n : Nat) : FailsWithin Eq (advance n) :=
  .before (failsWithin_ensure n) fun _ => NeverFails.modify _

theorem failsWithin_align (unit : Nat) : FailsWithin Eq (align unit) :=
  fun c => failsWithin_advance ((unit - c.pos % unit) % unit) c

theorem failsWithin_peek : FailsWithin Eq peek := by
  intro c e c' h
  unfold peek at h
  split at h <;> cases h
  rfl

theorem failsWithin_bytes (n : Nat) : FailsWithin Eq (bytes n) := by
  intro c e c' h
  unfold bytes at h
  simp only [] at h
  split at h <;> cases h
  rfl

theorem failsWithin_u8 : FailsWithin Eq u8 := by
  intro c e c' h
  unfold u8 at h
  split at h <;> cases h
  rfl

theorem failsWithin_u16 : FailsWithin Eq u16 :=
  failsWithin_map (failsWithin_map (failsWithin_bytes 2) _) _

theorem failsWithin_u32 : FailsWithin Eq u32 :=
  failsWithin_map (failsWithin_map (failsWithin_bytes 4) _) _

theorem failsWithin_u64 : FailsWithin Eq u64 :=
  failsWithin_map (failsWithin_map (failsWithin_bytes 8) _) _

theorem failsWithin_attempt (r : Reader α) : FailsWithin Eq (attempt r) := by
  intro c e c' h
  unfold attempt at h
  split at h <;> cases h
  rfl

end Reader

theorem Word.failsWithin_read (word : Word) : FailsWithin Eq word.read :=
  match word with
  | u8 => Reader.failsWithin_u8
  | i8 => Reader.failsWithin_map Reader.failsWithin_u8 _
  | u16 => Reader.failsWithin_u16
  | i16 => Reader.failsWithin_map Reader.failsWithin_u16 _
  | u32 => Reader.failsWithin_u32
  | i32 => Reader.failsWithin_map Reader.failsWithin_u32 _
  | u64 => Reader.failsWithin_u64
  | i64 => Reader.failsWithin_map Reader.failsWithin_u64 _

end ClassPatch.Bytes
