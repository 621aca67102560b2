import DistantChunks.Chunk.Basic

/-!
# Cached chunks

Every entry remembers when it was last used: when it was put in, by the clock of the last update,
or when an update found its chunk in use. An update sets the clock and drops the entries that were
last used a whole delay ago or earlier.
-/

namespace DistantChunks

structure CacheEntry where
  chunk : Shared Chunk
  lastUsed : Float

structure ChunkCache where
  entries : Std.ExtTreeMap ChunkKey CacheEntry
  /-- The seconds for which an unused chunk is kept. -/
  expiryDelay : Float
  now : Float

namespace ChunkCache

def new (expiryDelay : Float) : ChunkCache := ⟨∅, expiryDelay, 0⟩

def size (c : ChunkCache) : Nat := c.entries.size

def get? (c : ChunkCache) (id : ChunkId) : Option (Shared Chunk) :=
  (c.entries[id.key]?).map (·.chunk)

def contains (c : ChunkCache) (id : ChunkId) : Bool := c.entries.contains id.key

/-- Puts a chunk in and gives back the one that it replaces. -/
def replace (c : ChunkCache) (chunk : Shared Chunk) : Option (Shared Chunk) × ChunkCache :=
  (c.get? chunk.value.id,
    { c with entries := c.entries.insert chunk.value.id.key ⟨chunk, c.now⟩ })

def insert (c : ChunkCache) (chunk : Shared Chunk) : ChunkCache := (c.replace chunk).2

theorem entries_insert (c : ChunkCache) (chunk : Shared Chunk) :
    (c.insert chunk).entries = c.entries.insert chunk.value.id.key ⟨chunk, c.now⟩ := rfl

theorem getElem?_insert (c : ChunkCache) (chunk : Shared Chunk) (key : ChunkKey) :
    (c.insert chunk).entries[key]? =
      if chunk.value.id.key = key then some ⟨chunk, c.now⟩ else c.entries[key]? := by
  simp only [entries_insert, Std.ExtTreeMap.getElem?_insert, Std.compare_eq_iff_eq]

theorem get?_insert (c : ChunkCache) (chunk : Shared Chunk) (id : ChunkId) :
    (c.insert chunk).get? id = if chunk.value.id.key = id.key then some chunk else c.get? id := by
  rw [get?, get?, getElem?_insert]
  split <;> rfl

/-- An entry after an update at a time, with `held` for the chunks in use; nothing if it has
expired. -/
def refresh? (held : Nat → Bool) (now delay : Float) (e : CacheEntry) : Option CacheEntry :=
  let e := if held e.chunk.serial then { e with lastUsed := now } else e
  if now - delay < e.lastUsed then some e else none

theorem chunk_of_refresh? {held : Nat → Bool} {now delay : Float} {e e' : CacheEntry}
    (h : refresh? held now delay e = some e') : e'.chunk = e.chunk := by
  by_cases hheld : held e.chunk.serial = true <;> simp [refresh?, hheld] at h <;>
    obtain ⟨-, rfl⟩ := h <;> rfl

/-- Sets the clock and drops expired entries, and counts them. -/
def update (c : ChunkCache) (now : Float) (held : Nat → Bool) : Nat × ChunkCache :=
  let kept := c.entries.filterMap fun _ e => refresh? held now c.expiryDelay e
  (c.entries.size - kept.size, { c with entries := kept, now := now })

theorem getElem?_update (c : ChunkCache) (now : Float) (held : Nat → Bool) (key : ChunkKey) :
    (c.update now held).2.entries[key]? =
      (c.entries[key]?).bind (refresh? held now c.expiryDelay) := by
  simp only [update, Std.ExtTreeMap.getElem?_filterMap']

/-- An update keeps only entries that were there before. -/
theorem exists_of_getElem?_update {c : ChunkCache} {now : Float} {held : Nat → Bool}
    {key : ChunkKey} {e' : CacheEntry} (h : (c.update now held).2.entries[key]? = some e') :
    ∃ e, c.entries[key]? = some e ∧ refresh? held now c.expiryDelay e = some e' := by
  rwa [getElem?_update, Option.bind_eq_some_iff] at h

def setExpiryDelay (c : ChunkCache) (seconds : Float) : ChunkCache :=
  { c with expiryDelay := seconds }

def clear (c : ChunkCache) : ChunkCache := { c with entries := ∅ }

def chunks (c : ChunkCache) : List (Shared Chunk) := c.entries.values.map (·.chunk)

end ChunkCache

end DistantChunks
