import ClassPatch.Bytes.BigEndian
import ClassPatch.Error

/-!
# Cursors

A position in a byte string, and readers that check every read against the end of the input. A
reader that fails leaves its cursor where the failing step left it; `Reader.attempt` puts it back.
-/

namespace ClassPatch.Bytes

/-- A position in a byte string, with the bytes after it at hand. -/
structure Cursor where
  data : List UInt8
  pos : Nat
  rest : List UInt8
  rest_eq : rest = data.drop pos

namespace Cursor

/-- The cursor at the start of a byte string. -/
def ofBytes (data : List UInt8) : Cursor := ⟨data, 0, data, rfl⟩

/-- The cursor at a position. -/
def moveTo (c : Cursor) (pos : Nat) : Cursor := ⟨c.data, pos, c.data.drop pos, rfl⟩

/-- The cursor `n` bytes further. -/
def skip (c : Cursor) (n : Nat) : Cursor where
  data := c.data
  pos := c.pos + n
  rest := c.rest.drop n
  rest_eq := by rw [c.rest_eq, List.drop_drop]

/-- The number of bytes after the cursor. -/
def remaining (c : Cursor) : Nat := c.rest.length

/-- Whether bytes are left. -/
def hasMore (c : Cursor) : Bool := !c.rest.isEmpty

@[simp] theorem pos_skip (c : Cursor) (n : Nat) : (c.skip n).pos = c.pos + n := rfl

@[simp] theorem rest_skip (c : Cursor) (n : Nat) : (c.skip n).rest = c.rest.drop n := rfl

@[simp] theorem data_skip (c : Cursor) (n : Nat) : (c.skip n).data = c.data := rfl

end Cursor

/-- A reading step over a cursor. -/
abbrev Reader := EStateM Error Cursor

namespace Reader

/-- Fail because of damage in the input. -/
def malformed {α : Type} (cause : Malformation) : Reader α := throw (.malformed cause)

/-- The position of the cursor. -/
def position : Reader Nat := return (← get).pos

/-- Whether bytes are left. -/
def hasMore : Reader Bool := return (← get).hasMore

/-- The number of bytes left. -/
def remaining : Reader Nat := return (← get).remaining

/-! ## Moving -/

/-- Move to a position inside the input. -/
def seek (pos : Nat) : Reader Unit := fun c =>
  if (c.data.drop pos).isEmpty then .error .outOfBounds c else .ok () (c.moveTo pos)

/-- Check that `n` bytes are left. -/
def ensure (n : Nat) : Reader Unit := fun c =>
  if (c.rest.take n).length < n then .error .outOfBounds c else .ok () c

/-- The position `n` bytes further, which may be the end of the input. -/
def endPosition (n : Nat) : Reader Nat := do
  ensure n
  return (← position) + n

/-- Move past `n` bytes. -/
def advance (n : Nat) : Reader Unit := do
  ensure n
  modify (·.skip n)

/-- Move to the next multiple of `unit`, counted from the start of the input. -/
def align (unit : Nat) : Reader Unit := do
  advance ((unit - (← position) % unit) % unit)

/-- Run a reader, and put the cursor back if it fails. -/
def attempt {α : Type} (reader : Reader α) : Reader α := fun c =>
  match reader c with
  | .ok a c' => .ok a c'
  | .error e _ => .error e c

/-! ## Reading -/

/-- The next byte, which stays unread. -/
def peek : Reader UInt8 := fun c =>
  match c.rest with
  | [] => .error .outOfBounds c
  | b :: _ => .ok b c

/-- The next `n` bytes. -/
def bytes (n : Nat) : Reader (List UInt8) := fun c =>
  let data := c.rest.take n
  if data.length < n then .error .outOfBounds c else .ok data (c.skip n)

/-- The next byte. -/
def u8 : Reader UInt8 := fun c =>
  match c.rest with
  | [] => .error .outOfBounds c
  | b :: _ => .ok b (c.skip 1)

/-- The number in the next `width` bytes. -/
def number (width : Nat) : Reader Nat := return BigEndian.value (← bytes width)

/-- The next 16-bit word. -/
def u16 : Reader UInt16 := return UInt16.ofNat (← number 2)

/-- The next 32-bit word. -/
def u32 : Reader UInt32 := return UInt32.ofNat (← number 4)

/-- The next 64-bit word. -/
def u64 : Reader UInt64 := return UInt64.ofNat (← number 8)

/-- The next signed byte. -/
def i8 : Reader Int8 := return (← u8).toInt8

/-- The next signed 16-bit word. -/
def i16 : Reader Int16 := return (← u16).toInt16

/-- The next signed 32-bit word. -/
def i32 : Reader Int32 := return (← u32).toInt32

/-- The next signed 64-bit word. -/
def i64 : Reader Int64 := return (← u64).toInt64

/-- The non-empty UTF-8 text up to the first byte among `stops`, which stays unread. Text that is
not UTF-8 is passed before it is refused. -/
def identifier (stops : List UInt8) : Reader String := fun c =>
  let name := c.rest.takeWhile (!stops.contains ·)
  if (c.rest.drop name.length).isEmpty then .error .outOfBounds c
  else if name.isEmpty then .error (.malformed (.emptyIdentifier c.pos)) c
  else match Text.Utf8.decode name with
    | .ok text => .ok text (c.skip name.length)
    | .error fault => .error (.malformed (.identifierText c.pos fault)) (c.skip name.length)

/-- Read `n` items after those in `acc`, which has the last one first. -/
def timesAfter {α : Type} (reader : Reader α) (acc : List α) : Nat → Reader (List α)
  | 0 => return acc.reverse
  | n + 1 => do timesAfter reader ((← reader) :: acc) n

/-- Read `n` items. -/
def times {α : Type} (n : Nat) (reader : Reader α) : Reader (List α) := timesAfter reader [] n

/-- What a reader makes of a whole byte string. -/
def runOn {α : Type} (reader : Reader α) (data : List UInt8) : Except Error α :=
  match reader (Cursor.ofBytes data) with
  | .ok a _ => .ok a
  | .error e _ => .error e

end Reader

end ClassPatch.Bytes
