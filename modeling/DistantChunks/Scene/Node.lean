import DistantChunks.Scene.Attributes
import DistantChunks.Scene.Mesh

/-!
# Scene nodes

A node draws a mesh, poses the mesh of a source node, stands for particles, or branches. A
branching is plain, moves its children by a matrix, or shows only some of them: a switch by one
flag for each child, a level of detail by one range of distances for each child. What all children
have in common, such as the bound, does not depend on which of them are shown.
-/

namespace DistantChunks

/-- The distances from `near` up to, not including, `far`. -/
structure DetailRange (α : Type) where
  near : α
  far : α
  deriving DecidableEq, Repr

inductive Branching (α : Type) where
  | group
  | transform (matrix : Matrix α)
  | switch (flags : List Bool)
  | detail (ranges : List (DetailRange α))
  deriving DecidableEq, Repr

/-- How a node changes the mesh of its source from frame to frame. -/
inductive Posing where
  | rig
  | morph
  deriving DecidableEq, Repr

inductive ParticleRole where
  | system
  | processor
  | updater
  deriving DecidableEq, Repr

inductive Node (α : Type) where
  | branch (attributes : Attributes) (branching : Branching α) (children : List (Node α))
  | drawable (attributes : Attributes) (mesh : Mesh α)
  | posed (attributes : Attributes) (posing : Posing) (source : Node α)
  | particle (attributes : Attributes) (role : ParticleRole)

namespace Branching

variable {α : Type}

/-- Plain and moving branchings own their children outright; the other two choose among them. -/
def isPlacing : Branching α → Bool
  | .group | .transform _ => true
  | .switch _ | .detail _ => false

def place [Scalar α] : Branching α → Sphere α → Sphere α
  | .transform m, s => s.moved m
  | _, s => s

end Branching

namespace Node

variable {α : Type}

def group (children : List (Node α)) : Node α := .branch .fresh .group children

instance : Inhabited (Node α) := ⟨group []⟩

def attributes : Node α → Attributes
  | .branch a _ _ | .drawable a _ | .posed a _ _ | .particle a _ => a

def withAttributes (a : Attributes) : Node α → Node α
  | .branch _ b children => .branch a b children
  | .drawable _ mesh => .drawable a mesh
  | .posed _ posing source => .posed a posing source
  | .particle _ role => .particle a role

def state (n : Node α) : Option StateSet := n.attributes.state

def withState (n : Node α) (s : StateSet) : Node α :=
  n.withAttributes { n.attributes with state := some s }

def isDrawable : Node α → Bool
  | .drawable _ _ | .posed _ _ _ => true
  | _ => false

/-- The mesh that a node draws itself; a posed node draws that of its source. -/
def mesh? : Node α → Option (Mesh α)
  | .drawable _ mesh => some mesh
  | .posed _ _ source => source.mesh?
  | _ => none

def children : Node α → List (Node α)
  | .branch _ _ children => children
  | _ => []

mutual

def uploadBytes : Node α → Nat
  | .branch _ _ children => uploadBytesAll children
  | .drawable _ mesh => mesh.byteCount
  | .posed _ _ source => match source.mesh? with
    | some mesh => mesh.byteCount
    | none => 0
  | .particle _ _ => 0

def uploadBytesAll : List (Node α) → Nat
  | [] => 0
  | n :: rest => n.uploadBytes + uploadBytesAll rest

end

mutual

/-- How many drawables are below a node; a posed node is one of them, whatever its source is. -/
def drawableCount : Node α → Nat
  | .branch _ _ children => drawableCountAll children
  | .drawable _ _ => 1
  | .posed _ _ _ => 1
  | .particle _ _ => 0

def drawableCountAll : List (Node α) → Nat
  | [] => 0
  | n :: rest => n.drawableCount + drawableCountAll rest

end

@[simp] theorem uploadBytesAll_append (ms ns : List (Node α)) :
    uploadBytesAll (ms ++ ns) = uploadBytesAll ms + uploadBytesAll ns := by
  induction ms with
  | nil => simp [uploadBytesAll]
  | cons m ms ih => simp [uploadBytesAll, ih, Nat.add_assoc]

@[simp] theorem drawableCountAll_append (ms ns : List (Node α)) :
    drawableCountAll (ms ++ ns) = drawableCountAll ms + drawableCountAll ns := by
  induction ms with
  | nil => simp [drawableCountAll]
  | cons m ms ih => simp [drawableCountAll, ih, Nat.add_assoc]

variable [Scalar α]

mutual

def bound : Node α → Sphere α
  | .branch _ b children => b.place (Sphere.enclosing (bounds children))
  | .drawable _ mesh => mesh.bound
  | .posed _ _ source => source.bound
  | .particle _ _ => .empty

def bounds : List (Node α) → List (Sphere α)
  | [] => []
  | n :: rest => n.bound :: bounds rest

end

theorem bounds_eq (ns : List (Node α)) : bounds ns = ns.map bound := by
  induction ns with
  | nil => rfl
  | cons n ns ih => simp [bounds, ih]

end Node

end DistantChunks
