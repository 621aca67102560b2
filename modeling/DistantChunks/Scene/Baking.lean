import DistantChunks.Scene.Node

/-!
# Baking static transforms

Static transforms below the root become plain groups, and the product of their matrices moves the
vertices of the drawables below. A transform that may still change takes the product into its own
matrix and starts a new one. Nodes that draw from elsewhere get a transform of their own.
-/

namespace DistantChunks.Node

variable {α : Type} [Scalar α]

def wrapped (acc : Matrix α) (n : Node α) : Node α :=
  if acc.isIdentity then n else .branch .fresh (.transform acc) [n]

mutual

def bake (acc : Matrix α) : Node α → Node α
  | .branch a (.transform m) children =>
    if a.variance = .static then .branch a .group (bakeAll (acc * m) children)
    else .branch a (.transform (acc * m)) (bakeAll .identity children)
  | .branch a b children => .branch a b (bakeAll acc children)
  | .drawable a mesh => .drawable a (if acc.isIdentity then mesh else mesh.moved acc)
  | .posed a posing source => wrapped acc (.posed a posing source)
  | .particle a role => wrapped acc (.particle a role)

def bakeAll (acc : Matrix α) : List (Node α) → List (Node α)
  | [] => []
  | n :: rest => bake acc n :: bakeAll acc rest

end

/-- Bakes everything below a root, which itself stays as it is. -/
def baked : Node α → Node α
  | .branch a b children => .branch a b (bakeAll .identity children)
  | n => n

theorem bakeAll_eq (acc : Matrix α) (ns : List (Node α)) : bakeAll acc ns = ns.map (bake acc) := by
  induction ns with
  | nil => rfl
  | cons n ns ih => simp [bakeAll, ih]

end DistantChunks.Node
