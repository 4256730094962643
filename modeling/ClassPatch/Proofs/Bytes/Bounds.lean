import Mathlib
import ClassPatch.Bytes.Cursor
import ClassPatch.Proofs.Bytes.Reader
import ClassPatch.Proofs.Preservation

/-!
# Readers stay inside the input

A reader moves its cursor towards the end of the input and not past it, whether it succeeds or
fails: it keeps the order `Reaches` of cursors. The larger readers have this by following their `do`
blocks.
-/

namespace ClassPatch.Bytes

namespace Cursor

/-- The cursor is not past the end of its input. -/
def Inside (c : Cursor) : Prop := c.pos ≤ c.data.length

/-- A cursor in the same input that is not behind the first one, and inside if the first one is. -/
structure Reaches (c c' : Cursor) : Prop where
  data_eq : c'.data = c.data
  pos_le : c.pos ≤ c'.pos
  inside : c.Inside → c'.Inside

theorem Reaches.refl (c : Cursor) : c.Reaches c := ⟨rfl, Nat.le_refl _, id⟩

theorem Reaches.trans {c₁ c₂ c₃ : Cursor} (h : c₁.Reaches c₂) (h' : c₂.Reaches c₃) :
    c₁.Reaches c₃ :=
  ⟨h'.data_eq.trans h.data_eq, Nat.le_trans h.pos_le h'.pos_le, fun hin => h'.inside (h.inside hin)⟩

instance : Std.Refl Reaches := ⟨Reaches.refl⟩

instance : IsTrans Cursor Reaches := ⟨fun _ _ _ => Reaches.trans⟩

theorem le_length_rest_iff {c : Cursor} {n : Nat} (hc : c.Inside) :
    n ≤ c.rest.length ↔ c.pos + n ≤ c.data.length := by
  unfold Inside at hc
  rw [length_rest]
  omega

/-- The bytes that are left can be passed. -/
theorem reaches_skip {c : Cursor} {n : Nat} (hn : n ≤ c.rest.length) : c.Reaches (c.skip n) where
  data_eq := rfl
  pos_le := Nat.le_add_right _ _
  inside hin := by
    rw [length_rest] at hn
    unfold Inside at hin ⊢
    rw [pos_skip, data_skip]
    omega

end Cursor

namespace Reader

open Cursor

variable {α β : Type}

theorem keeps_malformed (cause : Malformation) :
    Keeps Reaches (malformed cause : Reader α) := Keeps.throw _

theorem keeps_map {x : Reader α} (hx : Keeps Reaches x) (f : α → β) :
    Keeps Reaches (do return f (← x) : Reader β) :=
  Keeps.bind hx fun a => Keeps.pure (f a)

theorem keeps_cases {p : Prop} [Decidable p] {x y : Reader α} (hx : Keeps Reaches x)
    (hy : Keeps Reaches y) : Keeps Reaches (if p then x else y) := by
  by_cases h : p
  · rwa [if_pos h]
  · rwa [if_neg h]

theorem keeps_position : Keeps Reaches position := fun c => .refl c

theorem keeps_ensure (n : Nat) : Keeps Reaches (ensure n) := by
  intro c
  unfold ensure
  split
  · exact .refl c
  · exact .refl c

theorem keeps_endPosition (n : Nat) : Keeps Reaches (endPosition n) :=
  Keeps.bind (keeps_ensure n) fun _ => Keeps.bind keeps_position fun _ => Keeps.pure _

theorem keeps_peek : Keeps Reaches peek := by
  intro c
  unfold peek
  split <;> exact .refl c

theorem keeps_advance (n : Nat) : Keeps Reaches (advance n) := by
  intro c
  cases hensure : ensure n c with
  | error e c' =>
    have hstay := keeps_ensure n c
    rw [hensure] at hstay
    rwa [advance, Success.state_bind_error hensure]
  | ok u c' =>
    obtain ⟨hn, rfl⟩ := ensure_eq_ok.mp hensure
    rw [advance, Success.state_bind_ok hensure]
    exact reaches_skip hn

theorem keeps_align (unit : Nat) : Keeps Reaches (align unit) :=
  Keeps.bind keeps_position fun _ => keeps_advance _

theorem keeps_bytes (n : Nat) : Keeps Reaches (bytes n) := by
  intro c
  by_cases h : (c.rest.take n).length < n
  · have hrun : bytes n c = .error .outOfBounds c := if_pos h
    rw [hrun]
    exact .refl c
  · have hrun : bytes n c = .ok (c.rest.take n) (c.skip n) := if_neg h
    rw [hrun]
    rw [List.length_take] at h
    exact reaches_skip (by omega)

theorem keeps_u8 : Keeps Reaches u8 := by
  intro c
  unfold u8
  split
  · exact .refl c
  · rename_i hrest
    exact reaches_skip (by simp [hrest])

theorem keeps_number (width : Nat) : Keeps Reaches (number width) := keeps_map (keeps_bytes width) _

theorem keeps_u16 : Keeps Reaches u16 := keeps_map (keeps_number 2) _

theorem keeps_u32 : Keeps Reaches u32 := keeps_map (keeps_number 4) _

theorem keeps_u64 : Keeps Reaches u64 := keeps_map (keeps_number 8) _

theorem keeps_i8 : Keeps Reaches i8 := keeps_map keeps_u8 _

theorem keeps_i16 : Keeps Reaches i16 := keeps_map keeps_u16 _

theorem keeps_i32 : Keeps Reaches i32 := keeps_map keeps_u32 _

theorem keeps_i64 : Keeps Reaches i64 := keeps_map keeps_u64 _

theorem keeps_timesAfter {r : Reader α} (hr : Keeps Reaches r) (n : Nat) (acc : List α) :
    Keeps Reaches (timesAfter r acc n) := by
  induction n generalizing acc with
  | zero => exact Keeps.pure acc.reverse
  | succ n ih => exact Keeps.bind hr fun a => ih (a :: acc)

theorem keeps_times {r : Reader α} (hr : Keeps Reaches r) (n : Nat) : Keeps Reaches (times n r) :=
  keeps_timesAfter hr n []

end Reader

end ClassPatch.Bytes
