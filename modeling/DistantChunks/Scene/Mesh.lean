import DistantChunks.Space.Sphere

/-!
# Triangle meshes

A mesh is a list of vertices and a list of indices into it, three for each triangle. Appending
moves the indices of the second mesh behind the vertices of the first.
-/

namespace DistantChunks

structure Mesh (α : Type) where
  vertices : Array (Vec3 α)
  indices : Array UInt32
  deriving DecidableEq, Repr

namespace Mesh

variable {α : Type}

def empty : Mesh α := ⟨#[], #[]⟩

/-- Indices have 32 bits, and so has the count of vertices they are moved by. -/
def append (a b : Mesh α) : Mesh α :=
  ⟨a.vertices ++ b.vertices, a.indices ++ b.indices.map (· + UInt32.ofNat a.vertices.size)⟩

def vertexCount (m : Mesh α) : Nat := m.vertices.size

def byteCount (m : Mesh α) : Nat := 12 * m.vertexCount

variable [Scalar α]

def moved (m : Mesh α) (a : Matrix α) : Mesh α := ⟨m.vertices.map a.movePoint, m.indices⟩

def bound (m : Mesh α) : Sphere α := Sphere.ofBox (Box.ofPoints m.vertices.toList)

/-- A box around the origin with twelve triangles. The bits of a corner's number say on which side
of each axis it lies. -/
def cuboid (half : Vec3 α) : Mesh α :=
  let corner (i : Nat) : Vec3 α :=
    ⟨if i % 2 = 0 then -half.x else half.x,
     if i / 2 % 2 = 0 then -half.y else half.y,
     if i / 4 % 2 = 0 then -half.z else half.z⟩
  ⟨#[corner 0, corner 1, corner 2, corner 3, corner 4, corner 5, corner 6, corner 7],
   #[0, 2, 1, 1, 2, 3,
     4, 5, 6, 5, 7, 6,
     0, 1, 4, 1, 5, 4,
     2, 6, 3, 3, 6, 7,
     0, 4, 2, 2, 4, 6,
     1, 3, 5, 3, 7, 5]⟩

end Mesh

end DistantChunks
