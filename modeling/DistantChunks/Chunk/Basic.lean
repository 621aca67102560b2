import DistantChunks.Number.Decimal
import DistantChunks.Records.Reference
import DistantChunks.Scene.Optimization
import DistantChunks.Template.Cache

/-!
# Chunks

A chunk is named by its center and size in cells, where zeros of both signs agree. There is one
nan among single precision numbers here, so two ids with a nan in the same place agree in it too,
whatever bit patterns they were made from. A chunk holds the tree that draws it, where every
reference went, and the templates it was built from.
-/

namespace DistantChunks

/-- What chunk ids are compared by: the bits of their three numbers, with one pattern for zero. -/
structure ChunkKey where
  x : UInt32
  y : UInt32
  size : UInt32
  deriving DecidableEq, Repr

instance : Ord ChunkKey :=
  ⟨compareLex (compareOn ChunkKey.x) (compareLex (compareOn ChunkKey.y) (compareOn ChunkKey.size))⟩

instance : Std.TransOrd ChunkKey := inferInstanceAs (Std.TransCmp (compareLex _ (compareLex _ _)))

instance : Std.LawfulEqOrd ChunkKey where
  eq_of_compare {a b} h := by
    obtain ⟨hx, hr⟩ := Ordering.then_eq_eq.1 h
    obtain ⟨hy, hs⟩ := Ordering.then_eq_eq.1 hr
    cases a
    cases b
    simp_all [compareOn]

structure ChunkId where
  center : Vec2 Float32
  size : Float32
  deriving DecidableEq, Repr

namespace ChunkId

def canonicalBits (a : Float32) : UInt32 := if a == 0 then 0 else a.toBits

def key (c : ChunkId) : ChunkKey :=
  ⟨canonicalBits c.center.x, canonicalBits c.center.y, canonicalBits c.size⟩

def text (c : ChunkId) : String :=
  "(" ++ Single.displayText c.center.x ++ ", " ++ Single.displayText c.center.y ++ ") size " ++
    Single.displayText c.size

end ChunkId

structure Placement where
  number : RefNum
  template : String
  merged : Bool
  matrix : Matrix Float32

structure Chunk where
  id : ChunkId
  root : Node Float32
  bound : Sphere Float32
  placements : List Placement
  /-- The drawables of the merge group before and after it was optimized, if there is one. -/
  mergeChange : Option DrawableChange
  templates : List (Shared Template)

namespace Chunk

def instanceCount (c : Chunk) : Nat := c.placements.length

def mergedCount (c : Chunk) : Nat := (c.placements.filter (·.merged)).length

def isEmpty (c : Chunk) : Bool := c.placements.isEmpty

def contains (c : Chunk) (n : RefNum) : Bool := c.placements.any (·.number == n)

end Chunk

end DistantChunks
