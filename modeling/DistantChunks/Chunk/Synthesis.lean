import DistantChunks.Chunk.Basic
import DistantChunks.Chunk.Grouping
import DistantChunks.Chunk.Placement
import DistantChunks.Scene.StaticCopy

/-!
# Chunk synthesis

Every instance becomes a static copy of its template under a static transform. Instances of
templates for which merging pays are gathered in one group, which is optimized and comes last; the
others stay as they are. Transparent drawables are merged only if the eye is outside the bound of
that group.
-/

namespace DistantChunks

def ChunkView.id (v : ChunkView) : ChunkId := ⟨v.center, v.size⟩

structure Placed where
  placement : Placement
  node : Node Float32

/-- A chunk with the group of its merged instances, which may have to be uploaded. -/
structure Synthesis where
  chunk : Chunk
  mergeGroup : Option (Node Float32)

namespace Synthesis

def withoutUserData (n : Node Float32) : Node Float32 :=
  n.withAttributes { n.attributes with userData := none }

def staticTransform (m : Matrix Float32) (n : Node Float32) : Node Float32 :=
  .branch { Attributes.fresh with variance := .static } (.transform m) [n]

/-- Places one instance; nothing if nothing of its template can be copied. -/
def place? (middle eye : Vec3 Float32) (merged : Bool) (template : Template) (r : Reference) :
    Option Placed :=
  (template.root.staticCopy merged (eye.distance r.position)).map fun copy =>
    let matrix := r.placement middle
    ⟨⟨r.number, template.path, merged, matrix⟩, staticTransform matrix (withoutUserData copy)⟩

def placeAll (config : PagingConfig) (v : ChunkView) (c : Collection) : List Placed :=
  c.lists.flatMap fun l =>
    l.instances.filterMap <|
      place? (worldCenter v.center config.cellSize) v.eye
        (l.census.shouldMerge c.usage v.size config.mergeFactor) l.template.value

def mergeRule (eye : Vec3 Float32) (group : Node Float32) : MergeRule Float32 :=
  let bound := group.bound
  if bound.radiusSquared < (eye - bound.center).lengthSquared then ⟨some eye, true⟩
  else ⟨none, false⟩

/-- The optimized group of some nodes and the change in drawables; nothing without nodes. -/
def mergeGroup? (eye : Vec3 Float32) (nodes : List (Node Float32)) :
    Option (Node Float32 × DrawableChange) :=
  if nodes.isEmpty then none
  else
    let group := Node.group nodes
    let optimized := group.optimized (mergeRule eye group) .all
    some (optimized, ⟨group.drawableCount, optimized.drawableCount⟩)

def ofCollection (config : PagingConfig) (v : ChunkView) (c : Collection) : Synthesis :=
  let placed := placeAll config v c
  let merged := (placed.filter (·.placement.merged)).map (·.node)
  let group := mergeGroup? (v.eye - worldCenter v.center config.cellSize) merged
  let children :=
    (placed.filter (!·.placement.merged)).map (·.node) ++ (group.map (·.1)).toList
  let root := .branch { Attributes.fresh with mask := Attributes.maskStatic } .group children
  { chunk := {
      id := v.id
      root := root
      bound := root.bound
      placements := placed.map (·.placement)
      mergeChange := group.map (·.2)
      templates := c.lists.map (·.template) }
    mergeGroup := group.map (·.1) }

end Synthesis

end DistantChunks
