import DistantChunks.Space.Vector

/-!
# Boxes along the axes

A box is grown point by point from the empty box, whose corners are inverted so that the first
point replaces them.
-/

namespace DistantChunks

structure Box (α : Type) where
  min : Vec3 α
  max : Vec3 α
  deriving DecidableEq, Repr

namespace Box

variable {α : Type} [Scalar α]

def empty : Box α := ⟨Vec3.splat Scalar.greatest, Vec3.splat (-Scalar.greatest)⟩

/-- Each axis on its own: a nan coordinate leaves its axis as it is. -/
def expand (b : Box α) (p : Vec3 α) : Box α :=
  ⟨b.min.zipWith Scalar.least p, b.max.zipWith Scalar.most p⟩

def ofPoints (points : List (Vec3 α)) : Box α := points.foldl expand empty

def isValid (b : Box α) : Bool :=
  decide (b.min.x ≤ b.max.x) && decide (b.min.y ≤ b.max.y) && decide (b.min.z ≤ b.max.z)

def center (b : Box α) : Vec3 α := (b.min + b.max).scale Scalar.half

def size (b : Box α) : Vec3 α := b.max - b.min

end Box

end DistantChunks
