import DistantChunks.Space.Box
import DistantChunks.Space.Matrix

/-!
# Bounding spheres

A sphere with a negative radius contains nothing. Spheres grow to take in points and other
spheres, follow a matrix by its largest axis, and enclose the spheres of several children.
-/

namespace DistantChunks

structure Sphere (α : Type) where
  center : Vec3 α
  radius : α
  deriving DecidableEq, Repr

namespace Sphere

variable {α : Type} [Scalar α]

def empty : Sphere α := ⟨0, -1⟩

def isValid (s : Sphere α) : Bool := decide (0 ≤ s.radius)

def radiusSquared (s : Sphere α) : α := s.radius * s.radius

def ofBox (b : Box α) : Sphere α :=
  if b.isValid then ⟨b.center, b.size.length * Scalar.half⟩ else empty

def contains (s : Sphere α) (p : Vec3 α) : Bool :=
  s.isValid && decide ((p - s.center).lengthSquared ≤ s.radiusSquared)

/-- Moves the center along the offset as far as the radius grows. -/
def grow (s : Sphere α) (offset : Vec3 α) (distance radius : α) : Sphere α :=
  ⟨s.center + offset.scale ((radius - s.radius) / distance), radius⟩

def expandByPoint (s : Sphere α) (p : Vec3 α) : Sphere α :=
  if s.isValid then
    let offset := p - s.center
    let distance := offset.length
    if s.radius < distance then s.grow offset distance ((s.radius + distance) * Scalar.half)
    else s
  else ⟨p, 0⟩

def expandBySphere (s other : Sphere α) : Sphere α :=
  if !other.isValid then s
  else if !s.isValid then other
  else
    let offset := other.center - s.center
    let distance := offset.length
    if distance + other.radius ≤ s.radius then s
    else if distance + s.radius ≤ other.radius then other
    else s.grow offset distance ((s.radius + distance + other.radius) * Scalar.half)

/-- The sphere around the image of this one: the radius grows by the longest axis. -/
def moved (s : Sphere α) (m : Matrix α) : Sphere α :=
  if s.isValid then
    ⟨m.movePoint s.center,
      s.radius * Scalar.most (Scalar.most m.x.truncate.length m.y.truncate.length)
        m.z.truncate.length⟩
  else s

/-- The middle of the box around the centers, and a radius that reaches the far side of every
sphere. Spheres that contain nothing do not count. -/
def enclosing (spheres : List (Sphere α)) : Sphere α :=
  match spheres.filter isValid with
  | [] => empty
  | valid =>
    let center := (Box.ofPoints (valid.map (·.center))).center
    let reach := valid.map fun s => (s.center - center).length + s.radius
    ⟨center, reach.foldl Scalar.most 0⟩

end Sphere

end DistantChunks
