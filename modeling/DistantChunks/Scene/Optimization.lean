import DistantChunks.Scene.Baking
import DistantChunks.Scene.Lifting
import DistantChunks.Scene.Merging

/-!
# Optimization of a static tree

Baking, lifting and merging, each on request and always in this order.
-/

namespace DistantChunks

structure Passes where
  bakes : Bool
  lifts : Bool
  merges : Bool

def Passes.all : Passes := ⟨true, true, true⟩

structure DrawableChange where
  before : Nat
  after : Nat
  deriving DecidableEq, Repr

namespace Node

variable {α : Type} [Scalar α]

def optimized (rule : MergeRule α) (passes : Passes) (root : Node α) : Node α :=
  let root := if passes.bakes then root.baked else root
  let root := if passes.lifts then root.lifted else root
  if passes.merges then rule.merge root else root

def optimizationChange (rule : MergeRule α) (passes : Passes) (root : Node α) : DrawableChange :=
  ⟨root.drawableCount, (root.optimized rule passes).drawableCount⟩

end Node

end DistantChunks
