import Mathlib
import ClassPatch.Proofs.Bytes.Outcome

/-!
# Scripts of operations on a cursor

A client of a cursor calls one operation after the other and goes on by what each of them gave,
failures included. A block of operations can be carried out as one, to any depth, and puts the
cursor back if it fails. Whatever the client does, no call leaves the input: it succeeds exactly if
the bytes that it asks for are there, gives these bytes, and leaves the cursor where it was if it
fails. One failure does not: a name that is the encoding of no text is passed before it is refused.
-/

namespace ClassPatch.Bytes

namespace Cursor

/-- A cursor in the same input, and inside if the first one is. It may be behind the first one. -/
structure Stays (c c' : Cursor) : Prop where
  data_eq : c'.data = c.data
  inside : c.Inside → c'.Inside

instance : Std.Refl Stays := ⟨fun _ => ⟨rfl, id⟩⟩

instance : IsTrans Cursor Stays :=
  ⟨fun _ _ _ h h' => ⟨h'.data_eq.trans h.data_eq, fun hin => h'.inside (h.inside hin)⟩⟩

theorem Reaches.stays {c c' : Cursor} (h : c.Reaches c') : c.Stays c' := ⟨h.data_eq, h.inside⟩

end Cursor

namespace Reader

open Cursor

variable {α : Type} {c c' : Cursor} {name : List UInt8} {e : Error}

theorem stays_seek (pos : Nat) : Keeps Stays (seek pos) := by
  intro c
  cases h : seek pos c with
  | ok u c' =>
    obtain ⟨hpos, rfl⟩ := seek_eq_ok_iff.mp h
    exact ⟨rfl, fun _ => hpos.le⟩
  | error e c' =>
    obtain rfl := failsWithin_seek pos c e c' h
    exact Std.Refl.refl c

theorem stays_attempt {r : Reader α} (hr : Keeps Stays r) : Keeps Stays (attempt r) := by
  intro c
  have hafter := hr c
  unfold attempt
  cases h : r c with
  | ok a c' => rwa [h] at hafter
  | error e c' => exact Std.Refl.refl c

/-! ## Operations and scripts -/

mutual

/-- The operations on a cursor, with what they are given and the type of what they give. -/
inductive Operation : Type → Type 1 where
  | seek (pos : Nat) : Operation Unit
  | advance (n : Nat) : Operation Unit
  | align (unit : Nat) (unit_pos : 0 < unit) : Operation Unit
  | word (kind : Word) : Operation kind.Value
  | bytes (n : Nat) : Operation (List UInt8)
  | identifier (stops : List UInt8) : Operation String
  | peek : Operation UInt8
  | ensure (n : Nat) : Operation Unit
  | endPosition (n : Nat) : Operation Nat
  /-- Operations that are carried out as one. -/
  | attempt {α : Type} (block : Script α) : Operation α

/-- Operations one after the other. What comes of one, which may be a failure, decides how the
script goes on, and a script may end with a result or a failure of its own. -/
inductive Script : Type → Type 1 where
  | done {α : Type} (outcome : Except Error α) : Script α
  | call {α β : Type} (operation : Operation α) (next : Except Error α → Script β) : Script β

end

/-- What comes of a run, without the state that it leaves. -/
def outcomeOf {ε σ α : Type} : EStateM.Result ε σ α → Except ε α
  | .ok a _ => .ok a
  | .error e _ => .error e

mutual

/-- Carry out an operation. -/
def Operation.run : {α : Type} → Operation α → Reader α
  | _, .seek pos => Reader.seek pos
  | _, .advance n => Reader.advance n
  | _, .align unit _ => Reader.align unit
  | _, .word kind => kind.read
  | _, .bytes n => Reader.bytes n
  | _, .identifier stops => Reader.identifier stops
  | _, .peek => Reader.peek
  | _, .ensure n => Reader.ensure n
  | _, .endPosition n => Reader.endPosition n
  | _, .attempt block => Reader.attempt block.run

/-- Carry out the operations of a script. -/
def Script.run : {α : Type} → Script α → Reader α
  | _, .done (.ok a) => pure a
  | _, .done (.error e) => throw e
  | _, .call operation next => fun c =>
    (next (outcomeOf (operation.run c))).run (stateAfter (operation.run c))

end

/-- An operation and the cursor at which it is called. -/
structure Call where
  Answer : Type
  operation : Operation Answer
  before : Cursor

namespace Call

/-- What comes of a call, with the cursor that it leaves. -/
def result (call : Call) : EStateM.Result Error Cursor call.Answer :=
  call.operation.run call.before

/-- The cursor that a call leaves, whatever came of it. -/
def after (call : Call) : Cursor := stateAfter call.result

end Call

mutual

/-- The calls inside an operation that is called at a cursor. -/
def Operation.inner : {α : Type} → Operation α → Cursor → List Call
  | _, .attempt block, c => block.calls c
  | _, _, _ => []

/-- The calls of a script that starts at a cursor, with those inside of its operations. -/
def Script.calls : {α : Type} → Script α → Cursor → List Call
  | _, .done _, _ => []
  | _, .call operation next, c =>
    ⟨_, operation, c⟩ :: (operation.inner c ++
      (next (outcomeOf (operation.run c))).calls (stateAfter (operation.run c)))

end

/-! ## What a call may do -/

/-- What an operation gives at a cursor if it succeeds, and the cursor that it leaves. A cursor can
be moved to the end of the input by steps, but not by its position. -/
def Operation.Answers : {α : Type} → Operation α → Cursor → α → Cursor → Prop
  | _, .seek pos, c, _, c' => pos < c.data.length ∧ c' = c.moveTo pos
  | _, .advance n, c, _, c' => c.pos + n ≤ c.data.length ∧ c' = c.skip n
  | _, .align unit _, c, _, c' =>
    ∃ n < unit, unit ∣ c.pos + n ∧ c.pos + n ≤ c.data.length ∧ c' = c.skip n
  | _, .word kind, c, value, c' => c.Passes (kind.bytes value) c'
  | _, .bytes n, c, data, c' => data.length = n ∧ c.Passes data c'
  | _, .identifier stops, c, text, c' =>
    c.HoldsName stops (Text.Utf8.encode text) ∧ c' = c.skip (Text.Utf8.encode text).length
  | _, .peek, c, b, c' => c.data[c.pos]? = some b ∧ c' = c
  | _, .ensure n, c, _, c' => c.pos + n ≤ c.data.length ∧ c' = c
  | _, .endPosition n, c, pos, c' => pos = c.pos + n ∧ pos ≤ c.data.length ∧ c' = c
  | _, .attempt block, c, a, c' => block.run c = .ok a c'

/-- The operation asks for a text, and the name at the cursor is the encoding of none. -/
def Operation.Misreads : {α : Type} → Operation α → Cursor → List UInt8 → Prop
  | _, .identifier stops, c, name =>
    c.HoldsName stops name ∧ ∀ text, Text.Utf8.encode text ≠ name
  | _, _, _, _ => False

/-- A call that does what its operation is for, in an input that it does not leave. If it fails, it
leaves the cursor where it was, unless it has passed a name that is no text. -/
structure Call.Sound (data : List UInt8) (call : Call) : Prop where
  data_before : call.before.data = data
  data_after : call.after.data = data
  inside_before : call.before.Inside
  inside_after : call.after.Inside
  answers_iff : ∀ a c', call.result = .ok a c' ↔ call.operation.Answers call.before a c'
  stays_iff : ∀ e c', call.result = .error e c' →
    (c' = call.before ↔ ∀ name, ¬call.operation.Misreads call.before name)
  misreads : ∀ name, call.operation.Misreads call.before name →
    ∃ e, call.result = .error e (call.before.skip name.length)

/-! ## One call -/

theorem Operation.run_eq_ok_iff (operation : Operation α) (hc : c.Inside) {a : α} :
    operation.run c = .ok a c' ↔ operation.Answers c a c' := by
  cases operation with
  | seek pos => exact seek_eq_ok_iff
  | advance n => exact advance_eq_ok_iff hc
  | align unit hunit => exact align_eq_ok_iff hunit hc
  | word kind =>
    refine kind.parses_read.eq_ok_iff.trans ?_
    simp [Answers]
  | bytes n => exact bytes_eq_ok_iff
  | identifier stops => exact identifier_eq_ok_iff
  | peek => exact peek_eq_ok_iff
  | ensure n => exact ensure_eq_ok_iff hc
  | endPosition n => exact endPosition_eq_ok_iff hc
  | attempt block => exact attempt_eq_ok_iff

theorem Operation.exists_run_of_misreads (operation : Operation α) (h : operation.Misreads c name) :
    ∃ e, operation.run c = .error e (c.skip name.length) := by
  cases operation with
  | identifier stops => exact exists_identifier_of_not_text h.1 h.2
  | _ => exact h.elim

theorem Operation.Misreads.ne_nil {operation : Operation α} (h : operation.Misreads c name) :
    name ≠ [] := by
  cases operation with
  | identifier stops => exact h.1.ne_nil
  | _ => exact h.elim

theorem Operation.eq_of_run_eq_error (operation : Operation α)
    (hread : ∀ name, ¬operation.Misreads c name) (h : operation.run c = .error e c') : c = c' := by
  cases operation with
  | seek pos => exact failsWithin_seek pos c e c' h
  | advance n => exact failsWithin_advance n c e c' h
  | align unit hunit => exact failsWithin_align unit c e c' h
  | word kind => exact kind.failsWithin_read c e c' h
  | bytes n => exact failsWithin_bytes n c e c' h
  | identifier stops =>
    refine (eq_of_identifier_eq_error h fun name hname => ?_).symm
    by_contra htext
    exact hread name ⟨hname, not_exists.mp htext⟩
  | peek => exact failsWithin_peek c e c' h
  | ensure n => exact failsWithin_ensure n c e c' h
  | endPosition n => exact failsWithin_endPosition n c e c' h
  | attempt block => exact failsWithin_attempt block.run c e c' h

theorem Operation.stays_iff (operation : Operation α) (h : operation.run c = .error e c') :
    c' = c ↔ ∀ name, ¬operation.Misreads c name := by
  constructor
  · intro hstay name hname
    obtain ⟨e', hpassed⟩ := operation.exists_run_of_misreads hname
    rw [h, hstay] at hpassed
    injection hpassed with _ hcursor
    have hpos : c.pos = c.pos + name.length := congrArg Cursor.pos hcursor
    exact hname.ne_nil (List.length_eq_zero_iff.mp (by omega))
  · intro hread
    exact (operation.eq_of_run_eq_error hread h).symm

/-! ## All calls of a script -/

-- The induction is on operations and scripts together, as a block is a script.
mutual

theorem Operation.stays_run : {α : Type} → (operation : Operation α) → Keeps Stays operation.run
  | _, .seek pos => stays_seek pos
  | _, .advance n => (keeps_advance n).mono fun _ _ => Reaches.stays
  | _, .align unit _ => (keeps_align unit).mono fun _ _ => Reaches.stays
  | _, .word kind => kind.keeps_read.mono fun _ _ => Reaches.stays
  | _, .bytes n => (keeps_bytes n).mono fun _ _ => Reaches.stays
  | _, .identifier stops => (keeps_identifier stops).mono fun _ _ => Reaches.stays
  | _, .peek => keeps_peek.mono fun _ _ => Reaches.stays
  | _, .ensure n => (keeps_ensure n).mono fun _ _ => Reaches.stays
  | _, .endPosition n => (keeps_endPosition n).mono fun _ _ => Reaches.stays
  | _, .attempt block => stays_attempt block.stays_run

theorem Script.stays_run : {α : Type} → (script : Script α) → Keeps Stays script.run
  | _, .done (.ok a) => Keeps.pure a
  | _, .done (.error e) => Keeps.throw e
  | _, .call operation next => fun c =>
    IsTrans.trans _ _ _ (operation.stays_run c)
      ((next (outcomeOf (operation.run c))).stays_run (stateAfter (operation.run c)))

end

theorem Operation.sound_call (operation : Operation α) (hc : c.Inside) :
    Call.Sound c.data ⟨α, operation, c⟩ where
  data_before := rfl
  data_after := (operation.stays_run c).data_eq
  inside_before := hc
  inside_after := (operation.stays_run c).inside hc
  answers_iff _ _ := operation.run_eq_ok_iff hc
  stays_iff _ _ := operation.stays_iff
  misreads _ := operation.exists_run_of_misreads

mutual

theorem Operation.sound_inner : {α : Type} → (operation : Operation α) → {c : Cursor} →
    c.Inside → ∀ call ∈ operation.inner c, call.Sound c.data
  | _, .attempt block, _, hc => block.sound_calls hc
  | _, .seek _, _, _ | _, .advance _, _, _ | _, .align _ _, _, _ | _, .word _, _, _
  | _, .bytes _, _, _ | _, .identifier _, _, _ | _, .peek, _, _ | _, .ensure _, _, _
  | _, .endPosition _, _, _ => List.forall_mem_nil _

theorem Script.sound_calls : {α : Type} → (script : Script α) → {c : Cursor} →
    c.Inside → ∀ call ∈ script.calls c, call.Sound c.data
  | _, .done _, _, _ => List.forall_mem_nil _
  | _, .call operation next, c, hc => by
    have hstays := operation.stays_run c
    have hnext := (next (outcomeOf (operation.run c))).sound_calls (hstays.inside hc)
    rw [hstays.data_eq] at hnext
    exact List.forall_mem_cons.mpr ⟨operation.sound_call hc,
      List.forall_mem_append.mpr ⟨operation.sound_inner hc, hnext⟩⟩

end

/-- Whatever a script does with an input, every call that it makes is sound, at any depth, and it
ends inside the input. -/
theorem Script.calls_sound (script : Script α) (data : List UInt8) :
    (∀ call ∈ script.calls (ofBytes data), call.Sound data) ∧
      (stateAfter (script.run (ofBytes data))).data = data ∧
      (stateAfter (script.run (ofBytes data))).pos ≤ data.length := by
  have hstart : (ofBytes data).Inside := Nat.zero_le _
  have hstays := script.stays_run (ofBytes data)
  have hend := hstays.inside hstart
  rw [Inside, hstays.data_eq] at hend
  exact ⟨script.sound_calls hstart, hstays.data_eq, hend⟩

/-- A word and a name of one byte, which is no text. -/
def wordAndName : List UInt8 := [0xCA, 0xFE, 0xFF, 0x3B]

/-- Reads the word and the name as one block, and then, after a step too far, the name alone. -/
def nameTwice : Script String :=
  .call (.attempt (.call (.word .u16) fun _ => .call (.identifier [0x3B]) .done)) fun _ =>
  .call (.seek 4) fun _ => .call (.advance 2) fun _ => .call (.identifier [0x3B]) .done

/-- The last call of `nameTwice`. The block and the step too far have left the cursor at the start,
so it stands at the name here. -/
def nameAlone : Call := ⟨String, .identifier [0x3B], (ofBytes wordAndName).skip 2⟩

theorem Script.calls_sound_nameTwice :
    nameAlone ∈ nameTwice.calls (ofBytes wordAndName) ∧ nameAlone.Sound wordAndName ∧
      (stateAfter (nameTwice.run (ofBytes wordAndName))).pos = 3 := by
  have hmem : nameAlone ∈ nameTwice.calls (ofBytes wordAndName) :=
    List.mem_of_getElem? (i := 5) rfl
  exact ⟨hmem, (Script.calls_sound nameTwice wordAndName).1 nameAlone hmem, rfl⟩

/-- The byte FF is refused as a name, but the cursor is behind it then. -/
theorem identifier_refused_behind :
    ∃ call ∈ (Script.call (.identifier [0x3B]) .done).calls (ofBytes [0xFF, 0x3B]),
      (∃ e, call.result = .error e call.after) ∧ call.before.pos = 0 ∧ call.after.pos = 1 :=
  ⟨_, List.mem_cons_self, ⟨_, rfl⟩, rfl, rfl⟩

end Reader

end ClassPatch.Bytes
