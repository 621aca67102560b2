import DistantChunks.Space.Scalar

/-!
# Vectors

Componentwise arithmetic in the plane of the cell grid and in space. Sums of products are grouped
from the left, which fixes the rounding of every length and distance.
-/

namespace DistantChunks

structure Vec2 (α : Type) where
  x : α
  y : α
  deriving DecidableEq, Repr

structure Vec3 (α : Type) where
  x : α
  y : α
  z : α
  deriving DecidableEq, Repr

variable {α : Type} [Scalar α]

namespace Vec2

def splat (a : α) : Vec2 α := ⟨a, a⟩

def map (f : α → α) (v : Vec2 α) : Vec2 α := ⟨f v.x, f v.y⟩

def zipWith (f : α → α → α) (v w : Vec2 α) : Vec2 α := ⟨f v.x w.x, f v.y w.y⟩

instance : Zero (Vec2 α) := ⟨splat 0⟩

instance : Add (Vec2 α) := ⟨zipWith (· + ·)⟩

instance : Sub (Vec2 α) := ⟨zipWith (· - ·)⟩

end Vec2

namespace Vec3

def splat (a : α) : Vec3 α := ⟨a, a, a⟩

def map (f : α → α) (v : Vec3 α) : Vec3 α := ⟨f v.x, f v.y, f v.z⟩

def zipWith (f : α → α → α) (v w : Vec3 α) : Vec3 α := ⟨f v.x w.x, f v.y w.y, f v.z w.z⟩

instance : Zero (Vec3 α) := ⟨splat 0⟩

instance : Add (Vec3 α) := ⟨zipWith (· + ·)⟩

instance : Sub (Vec3 α) := ⟨zipWith (· - ·)⟩

def scale (v : Vec3 α) (a : α) : Vec3 α := v.map (· * a)

def dot (v w : Vec3 α) : α := v.x * w.x + v.y * w.y + v.z * w.z

def lengthSquared (v : Vec3 α) : α := v.dot v

def length (v : Vec3 α) : α := Scalar.sqrt v.lengthSquared

def distance (v w : Vec3 α) : α := (v - w).length

end Vec3

end DistantChunks
