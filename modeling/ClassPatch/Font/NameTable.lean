import ClassPatch.Bytes.Cursor
import ClassPatch.Text.Utf16

/-!
# Font name tables

The names stored in a font: records with the platform, encoding, language and meaning of a text. A
damaged table gives no records, and a record whose text lies outside the font is left out.
-/

namespace ClassPatch.Font

open Bytes Bytes.Reader

/-- What a name is looked up by. -/
structure NameQuery where
  platform : UInt16
  encoding : UInt16
  language : UInt16
  name : UInt16
deriving Repr, DecidableEq

/-- A name in a font. -/
structure NameRecord where
  query : NameQuery
  data : List UInt8
deriving Repr, DecidableEq

/-- The names of a font in the order of its table. -/
structure NameTable where
  records : List NameRecord
deriving Repr, DecidableEq

/-- The 16-bit units of a byte string; a single byte at the end is left out. -/
def units : List UInt8 → List UInt16
  | high :: low :: rest => UInt16.ofNat (high.toNat * 256 + low.toNat) :: units rest
  | _ => []

/-- The text of a name. Two platforms store 16-bit units, the others one byte for each character. -/
def NameRecord.text (record : NameRecord) : String :=
  if record.query.platform = 0 ∨ record.query.platform = 3 then
    Text.Utf16.decodeLossy (units record.data)
  else String.ofList (record.data.map fun b => Char.ofNat b.toNat)

namespace NameTable

/-- The table without names. -/
def empty : NameTable := ⟨[]⟩

/-- The record that answers a query: an exact match, or else the first of the same meaning. -/
def lookup? (table : NameTable) (query : NameQuery) : Option NameRecord :=
  (table.records.find? (·.query == query)).or
    (table.records.find? (·.query.name == query.name))

/-! ## Reading -/

/-- The part of a font that a table takes. -/
structure Extent where
  offset : Nat
  length : Nat
deriving Repr, DecidableEq

/-- The tag of name tables, the letters `name`. -/
def tag : UInt32 := 0x6E616D65

/-- The extent of the name table among the next `n` directory entries. -/
def findExtent? : Nat → Reader (Option Extent)
  | 0 => return none
  | n + 1 => do
    ensure 16
    let entryTag ← u32
    let _ ← u32
    let offset ← u32
    let length ← u32
    if entryTag = tag then return some ⟨offset.toNat, length.toNat⟩ else findExtent? n

/-- The extent of the name table of a font. -/
def directory : Reader (Option Extent) := do
  ensure 12
  let _ ← u32
  let tables ← u16
  advance 6
  findExtent? tables.toNat

/-- A stored record: what it is looked up by, and its text's length and offset. -/
structure StoredRecord where
  query : NameQuery
  length : Nat
  offset : Nat

/-- The next stored record. -/
def readRecord : Reader StoredRecord := do
  let platform ← u16
  let encoding ← u16
  let language ← u16
  let name ← u16
  let length ← u16
  let offset ← u16
  return ⟨⟨platform, encoding, language, name⟩, length.toNat, offset.toNat⟩

/-- The next `n` stored records, as far as they are complete, after those in `acc` (last one
first). -/
def readRecords (acc : List StoredRecord) : Nat → Reader (List StoredRecord)
  | 0 => return acc.reverse
  | n + 1 => do
    if ((← get).rest.take 12).length < 12 then return acc.reverse
    else readRecords ((← readRecord) :: acc) n

/-- The record with its text from a font, none if the text is empty or lies outside. The texts start
at `storage`. -/
def StoredRecord.resolve? (font : Array UInt8) (storage : Nat) (r : StoredRecord) :
    Option NameRecord :=
  let start := storage + r.offset
  if r.length = 0 ∨ font.size < start + r.length then none
  else some ⟨r.query, (font.extract start (start + r.length)).toList⟩

/-- The names of the table at `base` in a font. -/
def readTable (font : Array UInt8) (base : Nat) : Reader NameTable := do
  seek base
  ensure 6
  let _ ← u16
  let count ← u16
  let storage := base + (← u16).toNat
  return ⟨(← readRecords [] count.toNat).filterMap (·.resolve? font storage)⟩

/-- The names of the table that takes an extent of a font. -/
def parseExtent (font : List UInt8) (extent : Extent) : NameTable :=
  if font.length < extent.offset + extent.length then empty
  else match (readTable font.toArray extent.offset).runOn font with
    | .ok table => table
    | .error _ => empty

/-- The names of a font. -/
def parse (font : List UInt8) : NameTable :=
  match directory.runOn font with
  | .ok (some extent) => parseExtent font extent
  | _ => empty

end NameTable

end ClassPatch.Font
