import Std.Data.HashMap
import ClassPatch.Font.NameTable
import ClassPatch.Host.Value
import ClassPatch.TypeResolution

/-!
# The host's heap

The objects and buffers that values refer to, and what is remembered about objects. An object lives
as long as there are handles to it. When the last one is dropped its hooks run, in the order in which
they were registered.
-/

namespace ClassPatch.Host

open Std (HashMap)
open Font (NameTable)

/-- The identity of a cache of font names. -/
structure CacheId where
  number : Nat
deriving Repr, DecidableEq, Hashable

/-- The identity of a resolver. -/
structure ResolverId where
  number : Nat
deriving Repr, DecidableEq

/-- What happens when an object dies: something is noted, or something is forgotten. A hook cannot
fail, and it owns no handles, so that the death of an object is never the death of another one. -/
inductive Hook where
  /-- Note a tag in the log. -/
  | record (tag : String)
  /-- Forget the font names of the object. -/
  | evict (cache : CacheId)
deriving Repr, DecidableEq

/-- An object with the number of handles to it. -/
structure HostObject where
  className : String
  handles : Nat
  hooks : List Hook
deriving Repr, DecidableEq

/-- A tag that an object's death left in the log. -/
structure LogEntry where
  object : ObjectId
  tag : String
deriving Repr, DecidableEq

/-- All that calls can reach besides their values. -/
structure Heap where
  objects : HashMap ObjectId HostObject
  nextObject : Nat
  buffers : Array (Array Int32)
  caches : HashMap CacheId (HashMap ObjectId NameTable)
  nextCache : Nat
  resolvers : Array Resolver
  log : List LogEntry

/-- A step over the heap. -/
abbrev Action := EStateM Error Heap

namespace Heap

/-- The heap without objects. -/
def empty : Heap :=
  { objects := ∅, nextObject := 0, buffers := #[], caches := ∅, nextCache := 0, resolvers := #[],
    log := [] }

/-! ## Objects -/

/-- A new object with one handle. -/
def create (h : Heap) (className : String) : ObjectId × Heap :=
  let id : ObjectId := ⟨h.nextObject⟩
  (id, { h with
    objects := h.objects.insert id { className, handles := 1, hooks := [] }
    nextObject := h.nextObject + 1 })

/-- Another handle to a living object. -/
def retain (h : Heap) (id : ObjectId) : Heap :=
  match h.objects[id]? with
  | some o => { h with objects := h.objects.insert id { o with handles := o.handles + 1 } }
  | none => h

/-- Register a hook on a living object. -/
def onDrop (h : Heap) (id : ObjectId) (hook : Hook) : Heap :=
  match h.objects[id]? with
  | some o => { h with objects := h.objects.insert id { o with hooks := o.hooks ++ [hook] } }
  | none => h

/-- Run a hook of an object. -/
def runHook (id : ObjectId) (h : Heap) : Hook → Heap
  | .record tag => { h with log := h.log ++ [⟨id, tag⟩] }
  | .evict cache =>
    match h.caches[cache]? with
    | some tables => { h with caches := h.caches.insert cache (tables.erase id) }
    | none => h

/-- Drop a handle to an object, which dies with the last one. -/
def release (h : Heap) (id : ObjectId) : Heap :=
  match h.objects[id]? with
  | none => h
  | some o =>
    if 1 < o.handles then
      { h with objects := h.objects.insert id { o with handles := o.handles - 1 } }
    else o.hooks.foldl (runHook id) { h with objects := h.objects.erase id }

/-- Another handle to the object that a value refers to. -/
def retainValue (h : Heap) : Value → Heap
  | .object id => h.retain id
  | _ => h

/-- Drop a handle to the object that a value refers to. -/
def releaseValue (h : Heap) : Value → Heap
  | .object id => h.release id
  | _ => h

/-! ## Buffers -/

/-- A new integer buffer. -/
def createBuffer (h : Heap) (content : Array Int32) : BufferId × Heap :=
  (⟨h.buffers.size⟩, { h with buffers := h.buffers.push content })

/-- The content of a buffer. -/
def buffer (h : Heap) (id : BufferId) : Array Int32 := h.buffers.getD id.number #[]

/-- Put an integer into a buffer, none if the buffer does not reach that far. -/
def put? (h : Heap) (id : BufferId) (position : Nat) (value : Int32) : Option Heap :=
  if position < (h.buffer id).size then
    some { h with buffers := h.buffers.modify id.number (·.setIfInBounds position value) }
  else none

/-! ## Font names -/

/-- A new cache of font names. -/
def createCache (h : Heap) : CacheId × Heap :=
  (⟨h.nextCache⟩, { h with
    caches := h.caches.insert ⟨h.nextCache⟩ ∅, nextCache := h.nextCache + 1 })

/-- Forget a cache with all it holds. -/
def dropCache (h : Heap) (cache : CacheId) : Heap := { h with caches := h.caches.erase cache }

/-- The font names of all objects in a cache. -/
def cacheTables (h : Heap) (cache : CacheId) : HashMap ObjectId NameTable := h.caches.getD cache ∅

/-- The font names of an object. -/
def fontNames? (h : Heap) (cache : CacheId) (owner : ObjectId) : Option NameTable :=
  (h.cacheTables cache)[owner]?

/-- Remember the font names of an object until it dies. -/
def rememberFont (h : Heap) (cache : CacheId) (owner : ObjectId) (table : NameTable) : Heap :=
  match h.caches[cache]? with
  | none => h
  | some tables =>
    let remembered := { h with caches := h.caches.insert cache (tables.insert owner table) }
    if tables.contains owner then remembered else remembered.onDrop owner (.evict cache)

/-! ## Resolvers -/

/-- A new resolver. -/
def createResolver (h : Heap) (r : Resolver) : ResolverId × Heap :=
  (⟨h.resolvers.size⟩, { h with resolvers := h.resolvers.push r })

/-- Ask a resolver for the argument of its base. -/
def resolve (h : Heap) (id : ResolverId) (name : String) : Option String × Heap :=
  match h.resolvers[id.number]? with
  | none => (none, h)
  | some r =>
    let (answer, r) := r.resolve name
    (answer, { h with resolvers := h.resolvers.setIfInBounds id.number r })

end Heap

end ClassPatch.Host
