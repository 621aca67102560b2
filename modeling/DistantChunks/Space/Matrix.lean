import DistantChunks.Space.Vector

/-!
# Rotations and affine matrices

A rotation is a quaternion, a placement is a matrix of four columns. Products follow one fixed
order of operations; no step assumes that a quaternion is normalized or that a matrix is affine.
-/

namespace DistantChunks

structure Quaternion (α : Type) where
  x : α
  y : α
  z : α
  w : α
  deriving DecidableEq, Repr

structure Vec4 (α : Type) where
  x : α
  y : α
  z : α
  w : α
  deriving DecidableEq, Repr

structure Matrix (α : Type) where
  x : Vec4 α
  y : Vec4 α
  z : Vec4 α
  w : Vec4 α
  deriving DecidableEq, Repr

variable {α : Type} [Scalar α]

namespace Quaternion

def identity : Quaternion α := ⟨0, 0, 0, 1⟩

/-- The rotation about an axis by an angle whose half has the given sine and cosine. -/
def ofAxis (axis : Vec3 α) (sine cosine : α) : Quaternion α :=
  ⟨axis.x * sine, axis.y * sine, axis.z * sine, cosine⟩

/-- First the right rotation, then the left one. -/
def mul (l r : Quaternion α) : Quaternion α where
  x := (l.w * r.x + l.x * r.w) + (l.y * r.z + -(l.z * r.y))
  y := (l.w * r.y + -(l.x * r.z)) + (l.y * r.w + l.z * r.x)
  z := (l.w * r.z + l.x * r.y) + (-(l.y * r.x) + l.z * r.w)
  w := (l.w * r.w + -(l.x * r.x)) + (-(l.y * r.y) + -(l.z * r.z))

instance : Mul (Quaternion α) := ⟨mul⟩

end Quaternion

namespace Vec4

def zipWith (f : α → α → α) (v w : Vec4 α) : Vec4 α :=
  ⟨f v.x w.x, f v.y w.y, f v.z w.z, f v.w w.w⟩

instance : Add (Vec4 α) := ⟨zipWith (· + ·)⟩

def scale (v : Vec4 α) (a : α) : Vec4 α := ⟨v.x * a, v.y * a, v.z * a, v.w * a⟩

def truncate (v : Vec4 α) : Vec3 α := ⟨v.x, v.y, v.z⟩

def same (v w : Vec4 α) : Bool :=
  Scalar.same v.x w.x && Scalar.same v.y w.y && Scalar.same v.z w.z && Scalar.same v.w w.w

end Vec4

namespace Matrix

def identity : Matrix α := ⟨⟨1, 0, 0, 0⟩, ⟨0, 1, 0, 0⟩, ⟨0, 0, 1, 0⟩, ⟨0, 0, 0, 1⟩⟩

def same (a b : Matrix α) : Bool :=
  a.x.same b.x && a.y.same b.y && a.z.same b.z && a.w.same b.w

def isIdentity (a : Matrix α) : Bool := a.same identity

def apply (a : Matrix α) (v : Vec4 α) : Vec4 α :=
  a.x.scale v.x + a.y.scale v.y + a.z.scale v.z + a.w.scale v.w

/-- First the right matrix, then the left one. -/
def mul (a b : Matrix α) : Matrix α :=
  ⟨a.apply b.x, a.apply b.y, a.apply b.z, a.apply b.w⟩

instance : Mul (Matrix α) := ⟨mul⟩

/-- The image of a point, without a division by the fourth coordinate. The terms are added in the
order of the columns, the fourth one last. -/
def movePoint (a : Matrix α) (p : Vec3 α) : Vec3 α where
  x := a.w.x + (a.z.x * p.z + (a.y.x * p.y + a.x.x * p.x))
  y := a.w.y + (a.z.y * p.z + (a.y.y * p.y + a.x.y * p.x))
  z := a.w.z + (a.z.z * p.z + (a.y.z * p.y + a.x.z * p.x))

/-- Scaling, then rotation, then a shift. -/
def ofPlacement (scale : α) (q : Quaternion α) (t : Vec3 α) : Matrix α :=
  let x2 := q.x + q.x
  let y2 := q.y + q.y
  let z2 := q.z + q.z
  let xx := q.x * x2
  let xy := q.x * y2
  let xz := q.x * z2
  let yy := q.y * y2
  let yz := q.y * z2
  let zz := q.z * z2
  let wx := q.w * x2
  let wy := q.w * y2
  let wz := q.w * z2
  ⟨Vec4.scale ⟨1 - (yy + zz), xy + wz, xz - wy, 0⟩ scale,
   Vec4.scale ⟨xy - wz, 1 - (xx + zz), yz + wx, 0⟩ scale,
   Vec4.scale ⟨xz + wy, yz - wx, 1 - (xx + yy), 0⟩ scale,
   ⟨t.x, t.y, t.z, 1⟩⟩

end Matrix

end DistantChunks
