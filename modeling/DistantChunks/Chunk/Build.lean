import DistantChunks.Chunk.Synthesis

/-!
# Building chunks

A chunk is built from the cells it covers: they are scanned, the references are grouped by
template, and the groups are synthesized. Only templates and models can make a build fail.
-/

namespace DistantChunks

structure Sources where
  records : CellStore
  models : ModelResolver
  disabled : DisabledSet
  config : PagingConfig

structure BuildReport where
  unreadable : List Failure
  result : Except Failure Chunk

namespace Sources

variable (s : Sources)

def scan (size : Float32) (center : Vec2 Float32) (far : Bool) : Scan :=
  Scan.run s.disabled far s.records size center

def collect (v : ChunkView) (far : Bool) (cache : TemplateCache) :
    Except Failure Collection × TemplateCache :=
  Grouping.ofTable v s.config s.models TemplateCache.get (s.scan v.size v.center far).refs cache

/-- Builds a chunk. The merge group goes into the upload queue if the view asks for it and
`uploads` is set. -/
def build (v : ChunkView) (uploads : Bool) (cache : TemplateCache) : BuildReport × TemplateCache :=
  let scan := s.scan v.size v.center (decide (s.config.farFilterSize ≤ v.size))
  match Grouping.ofTable v s.config s.models TemplateCache.get scan.refs cache with
  | (.error e, cache) => (⟨scan.unreadable, .error e⟩, cache)
  | (.ok collection, cache) =>
    let synthesis := Synthesis.ofCollection s.config v collection
    let cache := match synthesis.mergeGroup with
      | some group => if v.compile && uploads then cache.enqueue group else cache
      | none => cache
    (⟨scan.unreadable, .ok synthesis.chunk⟩, cache)

end Sources

end DistantChunks
