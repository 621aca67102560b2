import DistantChunks.Scene.Node

/-!
# Trees waiting for upload

Trees leave the queue in the order in which they came. The vertex bytes still waiting are counted
along, so that the count can be read without a walk over the trees.
-/

namespace DistantChunks

structure UploadQueue (α : Type) where
  pending : List (Node α)
  pendingBytes : Nat

namespace UploadQueue

variable {α : Type}

def empty : UploadQueue α := ⟨[], 0⟩

def size (q : UploadQueue α) : Nat := q.pending.length

def enqueue (q : UploadQueue α) (n : Node α) : UploadQueue α :=
  ⟨q.pending ++ [n], q.pendingBytes + n.uploadBytes⟩

def take (q : UploadQueue α) (max : Nat) : List (Node α) × UploadQueue α :=
  let taken := q.pending.take max
  (taken, ⟨q.pending.drop max, q.pendingBytes - Node.uploadBytesAll taken⟩)

theorem take_append (q : UploadQueue α) (max : Nat) :
    (q.take max).1 ++ (q.take max).2.pending = q.pending := List.take_append_drop max q.pending

def drain (q : UploadQueue α) : List (Node α) × UploadQueue α := q.take q.size

end UploadQueue

end DistantChunks
