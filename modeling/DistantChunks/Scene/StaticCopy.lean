import DistantChunks.Scene.Node

/-!
# Static copies

A static copy of a tree shows what is visible from one distance and can no longer change: switches
and levels of detail become plain groups of the children they show, posed nodes are replaced by
their source, particles are left out, and names, callbacks and user data are not kept. A deep copy
does the same to the drawables; a shallow one shares them as they are.
-/

namespace DistantChunks

variable {α : Type}

def pick {β : Type} : List Bool → List β → List β
  | true :: flags, x :: xs => x :: pick flags xs
  | false :: flags, _ :: xs => pick flags xs
  | _, _ => []

theorem pick_map {β γ : Type} (f : β → γ) (flags : List Bool) (xs : List β) :
    pick flags (xs.map f) = (pick flags xs).map f := by
  induction flags generalizing xs with
  | nil => rfl
  | cons flag flags ih => cases flag <;> cases xs <;> simp [pick, ih]

def DetailRange.holds [Scalar α] (r : DetailRange α) (distance : α) : Bool :=
  decide (r.near ≤ distance) && decide (distance < r.far)

/-- Only the state set, the variance and the mask are left of the attributes of a copied node. -/
def Attributes.stripped (a : Attributes) : Attributes :=
  { Attributes.fresh with state := a.state, variance := .static, mask := a.mask }

namespace Branching

def shown [Scalar α] {β : Type} (distance : α) : Branching α → List β → List β
  | .switch flags, xs => pick flags xs
  | .detail ranges, xs => pick (ranges.map (·.holds distance)) xs
  | _, xs => xs

def copied : Branching α → Branching α
  | .transform m => .transform m
  | _ => .group

/-- A group made from a switch or a level of detail is a fresh node with the state set alone. -/
def copiedAttributes (b : Branching α) (a : Attributes) : Attributes :=
  if b.isPlacing then a.stripped
  else { Attributes.fresh with state := a.state, variance := .static }

end Branching

namespace Node

variable [Scalar α]

mutual

/-- The static copy for a distance; nothing if only particles are left. -/
def staticCopy (deep : Bool) (distance : α) : Node α → Option (Node α)
  | .branch a b children =>
    some (.branch (b.copiedAttributes a) b.copied
      ((b.shown distance (staticCopies deep distance children)).filterMap id))
  | .drawable a mesh => some (.drawable (if deep then a.stripped else a) mesh)
  | .posed _ _ source => source.staticCopy deep distance
  | .particle _ _ => none

def staticCopies (deep : Bool) (distance : α) : List (Node α) → List (Option (Node α))
  | [] => []
  | n :: rest => n.staticCopy deep distance :: staticCopies deep distance rest

end

theorem staticCopies_eq (deep : Bool) (distance : α) (ns : List (Node α)) :
    staticCopies deep distance ns = ns.map (staticCopy deep distance) := by
  induction ns with
  | nil => rfl
  | cons n ns ih => simp [staticCopies, ih]

end Node

end DistantChunks
