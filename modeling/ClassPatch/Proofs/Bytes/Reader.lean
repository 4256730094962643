import Mathlib
import ClassPatch.Bytes.Cursor
import ClassPatch.Proofs.Bytes.BigEndian
import ClassPatch.Proofs.Success

/-!
# Readers and formats

A `Format` says which bytes store a value at a position. `Parses r F` is the two-way
contract between a reader and a format: the reader succeeds exactly on inputs that
start with a stored form, gives the value of that form and consumes nothing else.
Read left to right it says that no byte is lost or accepted twice over, read right
to left that whatever a writer stores is read back.

The contract composes along `bind`, so the formats of the larger readers are found
by following their `do` blocks. `ParsesAll` is the same contract for readers that
insist on the end of the input.
-/

namespace ClassPatch.Bytes

/-- The bytes that store a value at a position. -/
abbrev Format (α : Type) := Nat → α → List UInt8 → Prop

namespace Format

variable {α β : Type}

/-- A stored value followed by a stored value whose format depends on it. -/
def andThen (F : Format α) (G : α → Format β) : Format β := fun pos b data =>
  ∃ a front back, F pos a front ∧ G a (pos + front.length) b back ∧ data = front ++ back

/-- Values stored one after the other. -/
inductive Sequence (F : Format α) : Nat → List α → List UInt8 → Prop
  | nil {pos : Nat} : Sequence F pos [] []
  | cons {pos : Nat} {a : α} {as : List α} {front back : List UInt8} :
      F pos a front → Sequence F (pos + front.length) as back →
      Sequence F pos (a :: as) (front ++ back)

/-- Values stored after their number. -/
def Counted (F : Format α) : Format (List α) := fun pos as data =>
  as.length < UInt16.size ∧ ∃ body, Sequence F (pos + 2) as body ∧
    data = BigEndian.bytes 2 as.length ++ body

@[simp] theorem sequence_nil {F : Format α} {pos : Nat} {data : List UInt8} :
    Sequence F pos [] data ↔ data = [] := by
  constructor
  · rintro ⟨⟩
    rfl
  · rintro rfl
    exact .nil

theorem sequence_cons {F : Format α} {pos : Nat} {a : α} {as : List α} {data : List UInt8} :
    Sequence F pos (a :: as) data ↔ ∃ front back, F pos a front ∧
      Sequence F (pos + front.length) as back ∧ data = front ++ back := by
  constructor
  · intro h
    cases h with
    | cons hF hseq => exact ⟨_, _, hF, hseq, rfl⟩
  · rintro ⟨front, back, hF, hseq, rfl⟩
    exact .cons hF hseq

theorem sequence_singleton {F : Format α} {pos : Nat} {a : α} {data : List UInt8} :
    Sequence F pos [a] data ↔ F pos a data := by
  simp [sequence_cons]

theorem sequence_append {F : Format α} {pos : Nat} {as bs : List α} {data : List UInt8} :
    Sequence F pos (as ++ bs) data ↔ ∃ front back, Sequence F pos as front ∧
      Sequence F (pos + front.length) bs back ∧ data = front ++ back := by
  induction as generalizing pos data with
  | nil => simp
  | cons a as ih =>
    simp only [List.cons_append, sequence_cons, ih]
    constructor
    · rintro ⟨front, _, hF, ⟨middle, back, hseq, hback, rfl⟩, rfl⟩
      refine ⟨front ++ middle, back, ⟨front, middle, hF, hseq, rfl⟩, ?_, ?_⟩
      · rwa [List.length_append, ← Nat.add_assoc]
      · rw [List.append_assoc]
    · rintro ⟨_, back, ⟨front, middle, hF, hseq, rfl⟩, hback, rfl⟩
      rw [List.length_append, ← Nat.add_assoc] at hback
      exact ⟨front, _, hF, ⟨middle, back, hseq, hback, rfl⟩, List.append_assoc ..⟩

/-- Without bytes there are no values, if every value takes some. -/
theorem sequence_nil_iff {F : Format α} {pos : Nat} {as : List α}
    (hF : ∀ pos a data, F pos a data → 0 < data.length) : Sequence F pos as [] ↔ as = [] := by
  constructor
  · intro h
    cases as with
    | nil => rfl
    | cons a as =>
      obtain ⟨front, back, hfront, -, happend⟩ := sequence_cons.mp h
      have hlen := hF _ _ _ hfront
      rw [(List.append_eq_nil_iff.mp happend.symm).1] at hlen
      exact absurd hlen (Nat.lt_irrefl 0)
  · rintro rfl
    exact .nil

/-- Values of a kind stored by a function, one after the other. -/
theorem sequence_iff_flatMap {P : α → Prop} {f : α → List UInt8} {pos : Nat} {as : List α}
    {data : List UInt8} :
    Sequence (fun _ a d => P a ∧ d = f a) pos as data ↔
      (∀ a ∈ as, P a) ∧ data = as.flatMap f := by
  induction as generalizing pos data with
  | nil =>
    constructor
    · rintro ⟨⟩
      simp
    · rintro ⟨-, rfl⟩
      exact .nil
  | cons a as ih =>
    constructor
    · intro h
      cases h with
      | cons hF hseq =>
        obtain ⟨hP, rfl⟩ := hF
        obtain ⟨hPs, rfl⟩ := ih.mp hseq
        exact ⟨List.forall_mem_cons.mpr ⟨hP, hPs⟩, rfl⟩
    · rintro ⟨hP, rfl⟩
      obtain ⟨hPa, hPs⟩ := List.forall_mem_cons.mp hP
      exact .cons ⟨hPa, rfl⟩ (ih.mpr ⟨hPs, rfl⟩)

/-- Values stored by a function, one after the other. -/
theorem sequence_eq_flatMap {f : α → List UInt8} {pos : Nat} {as : List α} {data : List UInt8} :
    Sequence (fun _ a d => d = f a) pos as data ↔ data = as.flatMap f := by
  have h : Sequence (fun _ a d => True ∧ d = f a) pos as data ↔
      (∀ a ∈ as, True) ∧ data = as.flatMap f := sequence_iff_flatMap
  simpa using h

/-- Values stored by a function that can fail, one after the other. -/
theorem sequence_eq_mapM {f : α → Except Error (List UInt8)} {pos : Nat} {as : List α}
    {data : List UInt8} :
    Sequence (fun _ a d => f a = .ok d) pos as data ↔
      ∃ parts, as.mapM f = .ok parts ∧ data = parts.flatten := by
  simp only [Success.except_mapM]
  induction as generalizing pos data with
  | nil =>
    constructor
    · rintro ⟨⟩
      exact ⟨[], .nil, rfl⟩
    · rintro ⟨parts, ⟨⟩, rfl⟩
      exact .nil
  | cons a as ih =>
    constructor
    · intro h
      cases h with
      | cons hF hseq =>
        obtain ⟨parts, hparts, rfl⟩ := ih.mp hseq
        exact ⟨_ :: parts, .cons hF hparts, rfl⟩
    · rintro ⟨parts, hparts, rfl⟩
      cases hparts with
      | cons hF hrest => exact .cons hF (ih.mpr ⟨_, hrest, rfl⟩)

/-- Stored values one after the other, where positions do not matter. -/
theorem sequence_of_forall₂ {F : α → List UInt8 → Prop} {as : List α} {parts : List (List UInt8)}
    (h : List.Forall₂ F as parts) (pos : Nat) : Sequence (fun _ => F) pos as parts.flatten := by
  induction h generalizing pos with
  | nil => exact .nil
  | cons hF _ ih => exact .cons hF (ih _)

end Format

namespace Cursor

theorem eq_of_data_pos {c d : Cursor} (hdata : c.data = d.data) (hpos : c.pos = d.pos) : c = d := by
  obtain ⟨data, pos, rest, hrest⟩ := c
  obtain ⟨data', pos', rest', hrest'⟩ := d
  subst hdata hpos
  simp [hrest, hrest']

@[simp] theorem skip_zero (c : Cursor) : c.skip 0 = c := by
  apply eq_of_data_pos <;> simp

@[simp] theorem skip_skip (c : Cursor) (m n : Nat) : (c.skip m).skip n = c.skip (m + n) := by
  apply eq_of_data_pos <;> simp [Nat.add_assoc]

@[simp] theorem pos_ofBytes (data : List UInt8) : (ofBytes data).pos = 0 := rfl

@[simp] theorem rest_ofBytes (data : List UInt8) : (ofBytes data).rest = data := rfl

theorem length_rest (c : Cursor) : c.rest.length = c.data.length - c.pos := by
  rw [c.rest_eq, List.length_drop]

end Cursor

namespace Reader

variable {α β : Type}

/-! ## Runs of composed readers -/

theorem malformed_ne_ok {cause : Malformation} {a : α} {c c' : Cursor} :
    (malformed cause : Reader α) c ≠ .ok a c' :=
  Success.state_throw

theorem runOn_eq_ok {r : Reader α} {data : List UInt8} {a : α} :
    r.runOn data = .ok a ↔ ∃ c', r (Cursor.ofBytes data) = .ok a c' := by
  unfold runOn
  cases r (Cursor.ofBytes data) <;> simp

/-! ## The contract -/

/-- The reader reads the format: all of its stored forms and nothing else. -/
def Parses (r : Reader α) (F : Format α) : Prop :=
  ∀ c a c', r c = .ok a c' ↔
    ∃ data, F c.pos a data ∧ c.rest = data ++ c'.rest ∧ c' = c.skip data.length

theorem Parses.run {r : Reader α} {F : Format α} (h : r.Parses F) {c : Cursor} {a : α}
    {data rest : List UInt8} (hF : F c.pos a data) (hrest : c.rest = data ++ rest) :
    r c = .ok a (c.skip data.length) := by
  refine (h c a _).mpr ⟨data, hF, ?_, rfl⟩
  rw [Cursor.rest_skip, hrest, List.drop_left]

theorem Parses.congr {r : Reader α} {F G : Format α} (h : r.Parses F)
    (heq : ∀ pos a data, F pos a data ↔ G pos a data) : r.Parses G := by
  intro c a c'
  rw [h]
  exact exists_congr fun data => and_congr_left' (heq c.pos a data)

theorem Parses.pure (a : α) :
    (Pure.pure a : Reader α).Parses fun _ b data => b = a ∧ data = [] := by
  intro c b c'
  rw [Success.state_pure]
  constructor
  · rintro ⟨rfl, rfl⟩
    exact ⟨[], ⟨rfl, rfl⟩, by simp⟩
  · rintro ⟨data, ⟨rfl, rfl⟩, -, rfl⟩
    simp

theorem Parses.bind {x : Reader α} {f : α → Reader β} {F : Format α} {G : α → Format β}
    (hx : x.Parses F) (hf : ∀ a, (f a).Parses (G a)) : (x >>= f).Parses (Format.andThen F G) := by
  intro c b c''
  rw [Success.state_bind]
  constructor
  · rintro ⟨a, c', ha, hb⟩
    obtain ⟨front, hF, hfront, rfl⟩ := (hx c a c').mp ha
    obtain ⟨back, hG, hback, rfl⟩ := (hf a _ b c'').mp hb
    refine ⟨front ++ back, ⟨a, front, back, hF, hG, rfl⟩, ?_, by simp⟩
    rw [hfront, hback, List.append_assoc]
  · rintro ⟨data, ⟨a, front, back, hF, hG, rfl⟩, hrest, rfl⟩
    rw [List.append_assoc] at hrest
    have ha := hx.run hF hrest
    refine ⟨a, _, ha, ?_⟩
    have hback : (c.skip front.length).rest = back ++ (c.skip (front ++ back).length).rest := by
      rw [Cursor.rest_skip, hrest, List.drop_left]
    rw [(hf a).run hG hback]
    simp

theorem Parses.malformed (cause : Malformation) :
    (Reader.malformed cause : Reader α).Parses fun _ _ _ => False := by
  intro c a c'
  simp [malformed_ne_ok]

theorem Parses.cases {p : Prop} [Decidable p] {x y : Reader α} {F : Format α}
    (hx : p → x.Parses F) (hy : ¬p → y.Parses F) : (if p then x else y).Parses F := by
  by_cases h : p
  · simpa [h] using hx h
  · simpa [h] using hy h

theorem Parses.position : position.Parses fun pos a data => a = pos ∧ data = [] := by
  intro c a c'
  show (EStateM.Result.ok c.pos c = .ok a c') ↔ _
  constructor
  · intro h
    cases h
    exact ⟨[], ⟨rfl, rfl⟩, by simp⟩
  · rintro ⟨data, ⟨rfl, rfl⟩, -, rfl⟩
    simp

theorem ensure_eq_ok {n : Nat} {c c' : Cursor} {u : Unit} :
    Reader.ensure n c = .ok u c' ↔ n ≤ c.rest.length ∧ c' = c := by
  have hshort : (c.rest.take n).length < n ↔ c.rest.length < n := by
    rw [List.length_take]
    omega
  unfold Reader.ensure
  split
  · rename_i h
    simp [Nat.not_le.mpr (hshort.mp h)]
  · rename_i h
    simp [Nat.not_lt.mp (mt hshort.mpr h), eq_comm]

/-- A check of the input's length before a reader that needs that many bytes anyway. -/
theorem Parses.ensure {x : Reader α} {F : Format α} {n : Nat} (hx : x.Parses F)
    (hn : ∀ pos a data, F pos a data → n ≤ data.length) :
    (do Reader.ensure n; x : Reader α).Parses F := by
  intro c a c'
  rw [Success.state_bind, ← hx c a c']
  constructor
  · rintro ⟨⟨⟩, c₁, h₁, h₂⟩
    rw [(ensure_eq_ok.mp h₁).2] at h₂
    exact h₂
  · intro h
    obtain ⟨data, hF, hrest, -⟩ := (hx c a c').mp h
    have hlong : n ≤ c.rest.length := by
      have := hn _ _ _ hF
      rw [hrest, List.length_append]
      omega
    exact ⟨(), c, ensure_eq_ok.mpr ⟨hlong, rfl⟩, h⟩

/-! ## Bytes and words -/

theorem Parses.bytes (n : Nat) : (bytes n).Parses fun _ a data => a.length = n ∧ data = a := by
  intro c a c'
  have htake := List.length_take_le n c.rest
  simp only [Reader.bytes]
  split
  · rename_i hshort
    simp only [reduceCtorEq, false_iff, not_exists]
    rintro data ⟨⟨hlen, rfl⟩, hrest, -⟩
    rw [hrest, List.take_append_of_le_length (by omega), List.take_of_length_le (by omega)] at hshort
    omega
  · rename_i hlong
    have hlen : (c.rest.take n).length = n := by omega
    constructor
    · intro h
      cases h
      refine ⟨c.rest.take n, ⟨hlen, rfl⟩, ?_, by rw [hlen]⟩
      rw [Cursor.rest_skip, List.take_append_drop]
    · rintro ⟨data, ⟨hdata, rfl⟩, hrest, rfl⟩
      have : c.rest.take n = data := by rw [hrest, ← hdata, List.take_left]
      rw [this, hdata]

theorem Parses.u8 : u8.Parses fun _ a data => data = [a] := by
  intro c a c'
  unfold Reader.u8
  cases hrest : c.rest with
  | nil => simp
  | cons b rest =>
    constructor
    · intro h
      cases h
      exact ⟨[a], rfl, by simp [hrest], rfl⟩
    · rintro ⟨data, rfl, happend, rfl⟩
      simp only [List.singleton_append, List.cons.injEq] at happend
      rw [happend.1]
      rfl

theorem Parses.advance (n : Nat) : (advance n).Parses fun _ _ data => data.length = n := by
  intro c a c'
  unfold Reader.advance
  rw [Success.state_bind]
  constructor
  · rintro ⟨⟨⟩, c₁, h₁, h₂⟩
    obtain ⟨hlong, rfl⟩ := ensure_eq_ok.mp h₁
    cases h₂
    have hlen : (c₁.rest.take n).length = n := by
      rw [List.length_take]
      omega
    refine ⟨c₁.rest.take n, hlen, ?_, by rw [hlen]⟩
    rw [Cursor.rest_skip, List.take_append_drop]
  · rintro ⟨data, rfl, hrest, rfl⟩
    have hlong : data.length ≤ c.rest.length := by
      rw [hrest, List.length_append]
      omega
    exact ⟨(), c, ensure_eq_ok.mpr ⟨hlong, rfl⟩, rfl⟩

theorem Parses.align (unit : Nat) :
    (align unit).Parses fun pos _ data => data.length = (unit - pos % unit) % unit := by
  refine (Parses.position.bind fun pos => Parses.advance _).congr fun pos a data => ?_
  constructor
  · rintro ⟨pos, front, back, ⟨rfl, rfl⟩, hback, rfl⟩
    exact hback
  · intro h
    exact ⟨pos, [], data, ⟨rfl, rfl⟩, h, rfl⟩

theorem Parses.number (width : Nat) : (number width).Parses fun _ n data =>
    data.length = width ∧ n = BigEndian.value data := by
  refine ((Parses.bytes width).bind fun data => Parses.pure _).congr fun pos n data => ?_
  constructor
  · rintro ⟨front, _, back, ⟨hlen, rfl⟩, ⟨rfl, rfl⟩, rfl⟩
    simp [hlen]
  · rintro ⟨hlen, rfl⟩
    exact ⟨data, data, [], ⟨hlen, rfl⟩, ⟨rfl, rfl⟩, by simp⟩

/-- A reader followed by a function of its value. -/
theorem Parses.map {x : Reader α} {F : Format α} (hx : x.Parses F) (f : α → β) :
    (do return f (← x) : Reader β).Parses fun pos b data => ∃ a, F pos a data ∧ b = f a := by
  refine (hx.bind fun a => Parses.pure (f a)).congr fun pos b data => ?_
  constructor
  · rintro ⟨a, front, back, hF, ⟨rfl, rfl⟩, rfl⟩
    exact ⟨a, by simpa using hF, rfl⟩
  · rintro ⟨a, hF, rfl⟩
    exact ⟨a, data, [], hF, ⟨rfl, rfl⟩, by simp⟩

theorem Parses.u16 : u16.Parses fun _ a data => data = BigEndian.u16 a :=
  ((Parses.number 2).map UInt16.ofNat).congr fun _ a data => by
    simp [BigEndian.eq_u16_iff]

theorem Parses.u32 : u32.Parses fun _ a data => data = BigEndian.u32 a :=
  ((Parses.number 4).map UInt32.ofNat).congr fun _ a data => by
    simp [BigEndian.eq_u32_iff]

theorem Parses.u64 : u64.Parses fun _ a data => data = BigEndian.u64 a :=
  ((Parses.number 8).map UInt64.ofNat).congr fun _ a data => by
    simp [BigEndian.eq_u64_iff]

theorem Parses.i8 : i8.Parses fun _ a data => data = [a.toUInt8] :=
  (Parses.u8.map UInt8.toInt8).congr fun _ a data => by
    constructor
    · rintro ⟨b, rfl, rfl⟩
      simp
    · rintro rfl
      exact ⟨a.toUInt8, rfl, by simp⟩

theorem Parses.i16 : i16.Parses fun _ a data => data = BigEndian.i16 a :=
  (Parses.u16.map UInt16.toInt16).congr fun _ a data => by
    constructor
    · rintro ⟨b, rfl, rfl⟩
      simp [BigEndian.i16]
    · rintro rfl
      exact ⟨a.toUInt16, rfl, by simp⟩

theorem Parses.i32 : i32.Parses fun _ a data => data = BigEndian.i32 a :=
  (Parses.u32.map UInt32.toInt32).congr fun _ a data => by
    constructor
    · rintro ⟨b, rfl, rfl⟩
      simp [BigEndian.i32]
    · rintro rfl
      exact ⟨a.toUInt32, rfl, by simp⟩

theorem Parses.i64 : i64.Parses fun _ a data => data = BigEndian.i64 a :=
  (Parses.u64.map UInt64.toInt64).congr fun _ a data => by
    constructor
    · rintro ⟨b, rfl, rfl⟩
      simp [BigEndian.i64]
    · rintro rfl
      exact ⟨a.toUInt64, rfl, by simp⟩

/-! ## Repetition -/

theorem Parses.timesAfter {r : Reader α} {F : Format α} (hr : r.Parses F) (n : Nat) (acc : List α) :
    (timesAfter r acc n).Parses fun pos as data =>
      ∃ new, as = acc.reverse ++ new ∧ new.length = n ∧ Format.Sequence F pos new data := by
  induction n generalizing acc with
  | zero =>
    refine (Parses.pure acc.reverse).congr fun pos as data => ?_
    constructor
    · rintro ⟨rfl, rfl⟩
      exact ⟨[], by simp, rfl, .nil⟩
    · rintro ⟨new, rfl, hlen, hseq⟩
      cases List.length_eq_zero_iff.mp hlen
      cases hseq
      simp
  | succ n ih =>
    refine (hr.bind fun a => ih (a :: acc)).congr fun pos as data => ?_
    constructor
    · rintro ⟨a, front, back, hF, ⟨new, rfl, hlen, hseq⟩, rfl⟩
      exact ⟨a :: new, by simp, by simp [hlen], .cons hF hseq⟩
    · rintro ⟨new, rfl, hlen, hseq⟩
      cases hseq with
      | nil => simp at hlen
      | cons hF hseq =>
        exact ⟨_, _, _, hF, ⟨_, by simp, by simpa using hlen, hseq⟩, rfl⟩

theorem Parses.times {r : Reader α} {F : Format α} (hr : r.Parses F) (n : Nat) :
    (times n r).Parses fun pos as data => as.length = n ∧ Format.Sequence F pos as data :=
  (hr.timesAfter n []).congr fun pos as data => by simp

theorem Parses.counted {r : Reader α} {F : Format α} (hr : r.Parses F) :
    (do Reader.times (← Reader.u16).toNat r : Reader (List α)).Parses (Format.Counted F) := by
  refine (Parses.u16.bind fun count => hr.times count.toNat).congr fun pos as data => ?_
  constructor
  · rintro ⟨count, front, body, rfl, ⟨hlen, hseq⟩, rfl⟩
    rw [BigEndian.length_u16] at hseq
    exact ⟨hlen ▸ count.toNat_lt, body, hseq, by rw [hlen]; rfl⟩
  · rintro ⟨hlt, body, hseq, rfl⟩
    have hlength : (UInt16.ofNat as.length).toNat = as.length := UInt16.toNat_ofNat_of_lt' hlt
    refine ⟨UInt16.ofNat as.length, _, body, rfl, ⟨hlength.symm, ?_⟩, ?_⟩
    · rwa [BigEndian.length_u16]
    · rw [BigEndian.u16, hlength]

/-! ## Whole inputs -/

/-- The reader reads the format and insists on the end of the input after it. -/
def ParsesAll (r : Reader α) (F : Format α) : Prop :=
  ∀ c a c', r c = .ok a c' ↔ F c.pos a c.rest ∧ c' = c.skip c.rest.length

theorem ParsesAll.congr {r : Reader α} {F G : Format α} (h : r.ParsesAll F)
    (heq : ∀ pos a data, F pos a data ↔ G pos a data) : r.ParsesAll G := by
  intro c a c'
  rw [h, heq]

theorem ParsesAll.runOn {r : Reader α} {F : Format α} (h : r.ParsesAll F) {data : List UInt8}
    {a : α} : r.runOn data = .ok a ↔ F 0 a data := by
  rw [runOn_eq_ok]
  simp [h _ _ _]

/-- A value given back only if the input is at its end. -/
theorem ParsesAll.atEnd (a : α) (fault : Reader α) (hfault : ∀ c b c', fault c ≠ .ok b c') :
    (do if ← hasMore then fault else return a : Reader α).ParsesAll
      fun _ b data => b = a ∧ data = [] := by
  intro c b c'
  show ((if c.hasMore = true then fault else Pure.pure a : Reader α) c = .ok b c') ↔ _
  cases hrest : c.rest with
  | nil =>
    have : c.hasMore = false := by simp [Cursor.hasMore, hrest]
    simp only [this, Bool.false_eq_true, if_false, Success.state_pure]
    simp
  | cons x rest =>
    have : c.hasMore = true := by simp [Cursor.hasMore, hrest]
    simp [this, hfault]

theorem Parses.bindAll {x : Reader α} {f : α → Reader β} {F : Format α} {G : α → Format β}
    (hx : x.Parses F) (hf : ∀ a, (f a).ParsesAll (G a)) :
    (x >>= f).ParsesAll (Format.andThen F G) := by
  intro c b c''
  rw [Success.state_bind]
  constructor
  · rintro ⟨a, c', ha, hb⟩
    obtain ⟨front, hF, hfront, rfl⟩ := (hx c a c').mp ha
    obtain ⟨hG, rfl⟩ := (hf a _ b c'').mp hb
    refine ⟨⟨a, front, _, hF, hG, hfront⟩, ?_⟩
    rw [Cursor.skip_skip, hfront, List.length_append]
  · rintro ⟨⟨a, front, back, hF, hG, hrest⟩, rfl⟩
    have hback : (c.skip front.length).rest = back := by
      rw [Cursor.rest_skip, hrest, List.drop_left]
    refine ⟨a, _, hx.run hF hrest, (hf a _ b _).mpr ⟨by rwa [hback], ?_⟩⟩
    rw [hback, Cursor.skip_skip, hrest, List.length_append]

theorem Parses.countedAll {r : Reader α} {f : List α → Reader β} {F : Format α}
    {G : List α → Format β} (hr : r.Parses F) (hf : ∀ as, (f as).ParsesAll (G as)) :
    (do f (← Reader.times (← Reader.u16).toNat r) : Reader β).ParsesAll
      (Format.andThen (Format.Counted F) G) := by
  have h := hr.counted.bindAll hf
  rwa [bind_assoc] at h

theorem ParsesAll.malformed (cause : Malformation) :
    (Reader.malformed cause : Reader α).ParsesAll fun _ _ _ => False := by
  intro c a c'
  simp [malformed_ne_ok]

/-- A check before the rest of the input is read. -/
theorem ParsesAll.guard {p : Prop} [Decidable p] {e : Error} {x : Unit → Reader α} {F : Format α}
    (hx : (x ()).ParsesAll F) :
    (if p then MonadExcept.throw e >>= x else x () : Reader α).ParsesAll
      fun pos a data => ¬p ∧ F pos a data := by
  by_cases h : p
  · intro c a c'
    simp [h, Success.state_bind, Success.state_throw]
  · simpa [h] using hx

theorem ParsesAll.cases {p : Prop} [Decidable p] {x y : Reader α} {F : Format α}
    (hx : p → x.ParsesAll F) (hy : ¬p → y.ParsesAll F) : (if p then x else y).ParsesAll F := by
  by_cases h : p
  · simpa [h] using hx h
  · simpa [h] using hy h

end Reader

end ClassPatch.Bytes
