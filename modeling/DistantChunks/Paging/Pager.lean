import DistantChunks.Chunk.Build
import DistantChunks.Chunk.Cache

/-!
# The pager

The pager answers requests for far chunks from its cache and builds what is not there. Objects can
be disabled; chunks built before keep showing them. Each operation takes the pager to its next
state. Who holds a chunk or a template outside is not part of the pager and is passed to the
operations that depend on it.
-/

namespace DistantChunks

structure Request where
  view : ChunkView
  far : Bool

structure Pager where
  records : CellStore
  models : ModelResolver
  config : PagingConfig
  resources : TemplateCache
  /-- Whether merge groups go into the upload queue when that is asked for. -/
  uploads : Bool
  disabled : DisabledSet
  cache : ChunkCache
  /-- The keys of the chunks that are being built. -/
  building : List ChunkKey
  nextSerial : Nat
  hits : Nat
  misses : Nat
  builds : Nat
  evictions : Nat
  /-- The contexts that could not be read so far, in order. -/
  unreadable : List Failure

namespace Pager

def new (records : CellStore) (models : ModelResolver) (config : PagingConfig)
    (resources : TemplateCache) (uploads : Bool) : Pager where
  records := records
  models := models
  config := config
  resources := resources
  uploads := uploads
  disabled := .empty
  cache := .new config.expiryDelay
  building := []
  nextSerial := 0
  hits := 0
  misses := 0
  builds := 0
  evictions := 0
  unreadable := []

def sources (p : Pager) : Sources := ⟨p.records, p.models, p.disabled, p.config⟩

def create (p : Pager) (v : ChunkView) : Except Failure Chunk × Pager :=
  let (report, resources) := p.sources.build v p.uploads p.resources
  (report.result, { p with
    resources := resources
    unreadable := p.unreadable ++ report.unreadable })

def lookUp (p : Pager) (id : ChunkId) : Option (Shared Chunk) × Pager :=
  match p.cache.get? id with
  | some chunk => (some chunk, { p with hits := p.hits + 1 })
  | none => (none, { p with misses := p.misses + 1 })

def buildAndInsert (p : Pager) (v : ChunkView) : Except Failure (Shared Chunk) × Pager :=
  match p.create v with
  | (.error e, p) => (.error e, p)
  | (.ok chunk, p) =>
    let shared : Shared Chunk := ⟨p.nextSerial, chunk⟩
    (.ok shared, { p with
      cache := p.cache.insert shared
      nextSerial := p.nextSerial + 1
      builds := p.builds + 1 })

def announce (p : Pager) (key : ChunkKey) : Pager := { p with building := key :: p.building }

def conclude (p : Pager) (key : ChunkKey) : Pager := { p with building := p.building.erase key }

/-- The chunk for a view whose build has been announced. It is looked up once more, since an
earlier build of it may just have ended. -/
def supply (p : Pager) (v : ChunkView) : Except Failure (Shared Chunk) × Pager :=
  match p.lookUp v.id with
  | (some chunk, p) => (.ok chunk, p)
  | (none, p) => p.buildAndInsert v

/-- The chunk for a request; nothing for a near one. A chunk that is not found is looked up a
second time before it is built, and both misses count. -/
def get (p : Pager) (r : Request) : Except Failure (Option (Shared Chunk)) × Pager :=
  if !r.far then (.ok none, p)
  else match p.lookUp r.view.id with
    | (some chunk, p) => (.ok (some chunk), p)
    | (none, p) =>
      let (result, p) := (p.announce r.view.id.key).supply r.view
      (result.map some, p.conclude r.view.id.key)

def prefetch (p : Pager) : List Request → Except Failure (List (Option (Shared Chunk))) × Pager
  | [] => (.ok [], p)
  | r :: rest => match p.get r with
    | (.error e, p) => (.error e, p)
    | (.ok chunk, p) => match p.prefetch rest with
      | (.error e, p) => (.error e, p)
      | (.ok chunks, p) => (.ok (chunk :: chunks), p)

def enable (p : Pager) (n : RefNum) (enabled : Bool) : Pager :=
  { p with disabled := (p.disabled.enable n enabled).2 }

def isEnabled (p : Pager) (n : RefNum) : Bool := !p.disabled.contains n

def enableAll (p : Pager) : Pager := { p with disabled := .empty }

def setExpiryDelay (p : Pager) (seconds : Float) : Pager :=
  { p with cache := p.cache.setExpiryDelay seconds }

def update (p : Pager) (now : Float) (held : Nat → Bool) : Nat × Pager :=
  let (evicted, cache) := p.cache.update now held
  (evicted, { p with cache := cache, evictions := p.evictions + evicted })

def clearCache (p : Pager) : Pager := { p with cache := p.cache.clear }

/-- Drops the templates that neither a cached chunk nor any of the chunks held outside needs. -/
def prune (p : Pager) (held : List Chunk) : Nat × Pager :=
  let living := p.cache.chunks.map (·.value) ++ held
  let (dropped, resources) := p.resources.prune fun serial =>
    living.any (·.templates.any (·.serial == serial))
  (dropped, { p with resources := resources })

def takeUploads (p : Pager) (max : Nat) : List (Node Float32) × Pager :=
  let (taken, queue) := p.resources.queue.take max
  (taken, { p with resources := { p.resources with queue := queue } })

end Pager

end DistantChunks
