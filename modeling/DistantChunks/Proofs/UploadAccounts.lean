import DistantChunks.Proofs.Accounts
import DistantChunks.Proofs.OptimizedParts
import Mathlib.Algebra.BigOperators.Group.List.Basic
import Mathlib.Algebra.Ring.Nat
import Mathlib.Data.List.Induction

/-!
# The bytes that wait for upload

The queue counts the bytes that wait apart from the trees that do. In every run of a queue the count
is the sum over these trees, so that no more is ever taken off it than is there, and the trees come
out in the order in which they went in. Optimization hands vertices from one drawable to another but
neither makes nor drops any, so that the merge group of a chunk counts for as much as the copies it
was made from.
-/

namespace DistantChunks

variable {α : Type}

theorem Mesh.byteCount_foldl_append (a : Mesh α) (meshes : List (Mesh α)) :
    (meshes.foldl append a).byteCount = a.byteCount + (meshes.map byteCount).sum := by
  induction meshes generalizing a with
  | nil => rfl
  | cons b meshes ih =>
    have hpair : (a.append b).byteCount = a.byteCount + b.byteCount := by
      rw [byteCount, vertexCount_append, Nat.mul_add, byteCount, byteCount]
    rw [List.foldl_cons, ih, hpair, List.map_cons, List.sum_cons, Nat.add_assoc]

def Part.byteCount (p : Part α) : Nat :=
  match p.shape with
  | .mesh mesh => mesh.byteCount
  | .posed _ source => (source.mesh?.map Mesh.byteCount).getD 0

namespace Node

theorem uploadBytesAll_eq (ns : List (Node α)) : uploadBytesAll ns = (ns.map uploadBytes).sum := by
  induction ns with
  | nil => rfl
  | cons n ns ih => rw [uploadBytesAll, ih, List.map_cons, List.sum_cons]

theorem uploadBytesAll_perm {ms ns : List (Node α)} (h : ms.Perm ns) :
    uploadBytesAll ms = uploadBytesAll ns := by
  rw [uploadBytesAll_eq, uploadBytesAll_eq]
  exact (h.map uploadBytes).sum_eq

theorem uploadBytesAll_map {β : Type} {f g : β → Node α} {xs : List β}
    (h : ∀ x ∈ xs, (f x).uploadBytes = (g x).uploadBytes) :
    uploadBytesAll (xs.map f) = uploadBytesAll (xs.map g) := by
  rw [uploadBytesAll_eq, uploadBytesAll_eq, List.map_map, List.map_map]
  exact congrArg List.sum (List.map_congr_left h)

theorem uploadBytes_withAttributes (a : Attributes) (n : Node α) :
    (n.withAttributes a).uploadBytes = n.uploadBytes := by
  cases n <;> rfl

theorem uploadBytes_posed (a : Attributes) (posing : Posing) (source : Node α) :
    (posed a posing source).uploadBytes = (source.mesh?.map Mesh.byteCount).getD 0 := by
  rw [uploadBytes]
  cases source.mesh? <;> rfl

theorem sum_byteCount_partsFrom {ns : List (Node α)} {s : Option StateSet}
    (h : ∀ n ∈ ns, ∀ path, ((n.parts path s).map Part.byteCount).sum = n.uploadBytes)
    (paths : Nat → List (Frame α)) (i : Nat) :
    ((partsFrom paths s i ns).map Part.byteCount).sum = uploadBytesAll ns := by
  induction ns generalizing i with
  | nil => rfl
  | cons n ns ih =>
    rw [partsFrom, List.map_append, List.sum_append, h n List.mem_cons_self,
      ih (fun m hm => h m (List.mem_cons_of_mem n hm)), uploadBytesAll]

theorem sum_byteCount_parts (n : Node α) (path : List (Frame α)) (s : Option StateSet) :
    ((n.parts path s).map Part.byteCount).sum = n.uploadBytes := by
  induction n generalizing path s with
  | branch a b children ih =>
    rw [parts, uploadBytes]
    exact sum_byteCount_partsFrom (fun c hc path => ih c hc path _) _ 0
  | drawable a mesh => rfl
  | posed a posing source => exact (uploadBytes_posed a posing source).symm
  | particle a role => rfl

theorem uploadBytes_lifted (n : Node α) : n.lifted.uploadBytes = n.uploadBytes := by
  rw [← sum_byteCount_parts n.lifted [] none, readsThrough_parts.lifted, sum_byteCount_parts]

variable [Scalar α]

theorem isTotal_uploadBytes : IsTotal (uploadBytes : Node α → Nat) where
  branch a a' b b' ns f hf := by
    rw [uploadBytes, uploadBytes]
    exact (uploadBytesAll_map hf).trans (congrArg uploadBytesAll ns.map_id)
  singleton a b n := Nat.add_zero _
  moved a mesh x := by
    rw [uploadBytes, uploadBytes, Mesh.byteCount, Mesh.vertexCount_moved, Mesh.byteCount]

end Node

namespace MergeRule

open Member Node

variable [Scalar α] (rule : MergeRule α)

/-- The drawable in the place of a bucket has the bytes of its members, in whatever order they are
appended. -/
theorem uploadBytes_join (first : Member α) (more : List (Member α)) :
    (rule.join first more).uploadBytes = uploadBytesAll ((first :: more).map toNode) := by
  have horder : ((rule.order (first :: more)).map (·.mesh.byteCount)).sum =
      ((first :: more).map (·.mesh.byteCount)).sum := ((rule.order_perm _).map _).sum_eq
  rw [join, uploadBytes, ← List.foldl_map, Mesh.byteCount_foldl_append, List.map_map,
    uploadBytesAll_eq, List.map_map]
  exact (Nat.zero_add _).trans horder

theorem uploadBytesAll_joined (bs : List (List (Member α))) :
    uploadBytesAll (bs.filterMap rule.joined) = uploadBytesAll (bs.flatten.map toNode) := by
  induction bs with
  | nil => rfl
  | cons b bs ih =>
    rw [List.flatten_cons, List.map_append, uploadBytesAll_append, ← ih]
    cases b with
    | nil => exact (Nat.zero_add _).symm
    | cons first more =>
      have hjoined : rule.joined (first :: more) = some (rule.join first more) := rfl
      rw [List.filterMap_cons, hjoined, uploadBytesAll, uploadBytes_join]

theorem uploadBytesAll_mergeSiblings (ns : List (Node α)) :
    uploadBytesAll (rule.mergeSiblings ns) = uploadBytesAll ns := by
  obtain ⟨hbefore, hafter⟩ := rule.mergeSiblings_perm ns
  rw [uploadBytesAll_perm hafter, uploadBytesAll_perm hbefore, uploadBytesAll_append,
    uploadBytesAll_append, uploadBytesAll_joined]

theorem uploadBytes_merge (n : Node α) : (rule.merge n).uploadBytes = n.uploadBytes := by
  induction n with
  | branch a b children ih =>
    rw [merge, uploadBytes, uploadBytes]
    split
    · rw [uploadBytesAll_mergeSiblings, mergeAll_eq]
      exact (uploadBytesAll_map ih).trans (congrArg uploadBytesAll children.map_id)
    · rfl
  | drawable | posed | particle => rfl

end MergeRule

namespace Node

variable [Scalar α]

theorem uploadBytes_prepared (passes : Passes) (root : Node α) :
    (root.prepared passes).uploadBytes = root.uploadBytes := by
  have hbaked : (if passes.bakes then root.baked else root).uploadBytes = root.uploadBytes := by
    split
    · exact isTotal_uploadBytes.baked root
    · rfl
  rw [← hbaked, prepared]
  split
  · exact uploadBytes_lifted _
  · rfl

/-- Whatever passes are asked for, the optimized tree has the bytes of the tree it was made from. -/
theorem uploadBytes_optimized (rule : MergeRule α) (passes : Passes) (root : Node α) :
    (root.optimized rule passes).uploadBytes = root.uploadBytes := by
  rw [optimized_eq]
  split
  · rw [rule.uploadBytes_merge, uploadBytes_prepared]
  · exact uploadBytes_prepared passes root

end Node

namespace UploadQueue

open Node

/-- The count of bytes is the sum over the trees that wait. -/
def IsCounted (q : UploadQueue α) : Prop := q.pendingBytes = uploadBytesAll q.pending

namespace IsCounted

variable {q : UploadQueue α}

theorem enqueue (h : q.IsCounted) (n : Node α) : (q.enqueue n).IsCounted := by
  have hone : uploadBytesAll [n] = n.uploadBytes := Nat.add_zero _
  rw [IsCounted, UploadQueue.enqueue, uploadBytesAll_append, hone, h]

theorem eq_add (h : q.IsCounted) (max : Nat) :
    q.pendingBytes = uploadBytesAll (q.take max).1 + uploadBytesAll (q.take max).2.pending := by
  rw [h, ← uploadBytesAll_append, take_append]

theorem le_pendingBytes (h : q.IsCounted) (max : Nat) :
    uploadBytesAll (q.take max).1 ≤ q.pendingBytes := by
  rw [h.eq_add max]
  exact Nat.le_add_right _ _

theorem take (h : q.IsCounted) (max : Nat) : (q.take max).2.IsCounted := by
  have hleft : (q.take max).2.pendingBytes =
      q.pendingBytes - uploadBytesAll (q.take max).1 := rfl
  rw [IsCounted, hleft, h.eq_add max, Nat.add_sub_cancel_left]

end IsCounted

theorem length_take (q : UploadQueue α) (max : Nat) : (q.take max).1.length = min max q.size :=
  List.length_take

theorem IsCounted.drain_eq {q : UploadQueue α} (h : q.IsCounted) :
    q.drain = (q.pending, .empty) := by
  have hall : (q.take q.size).1 = q.pending := List.take_length
  have hnone : (q.take q.size).2.pending = [] := List.drop_length
  have hbytes : (q.take q.size).2.pendingBytes = 0 := by
    rw [h.take q.size, hnone]
    rfl
  exact Prod.ext hall (congrArg₂ UploadQueue.mk hnone hbytes)

inductive Operation (α : Type) where
  | enqueue (n : Node α)
  | take (max : Nat)
  | drain

def Operation.enqueued? : Operation α → Option (Node α)
  | .enqueue n => some n
  | .take _ | .drain => none

/-- A queue with the lists that have been taken from it, the first one first. -/
structure Run (α : Type) where
  queue : UploadQueue α
  taken : List (List (Node α))

def Run.apply (r : Run α) : Operation α → Run α
  | .enqueue n => { r with queue := r.queue.enqueue n }
  | .take max => ⟨(r.queue.take max).2, r.taken ++ [(r.queue.take max).1]⟩
  | .drain => ⟨r.queue.drain.2, r.taken ++ [r.queue.drain.1]⟩

/-- The run of a queue that is empty at first. -/
def run (ops : List (Operation α)) : Run α := ops.foldl Run.apply ⟨.empty, []⟩

/-- The trees that operations put into the queue. -/
def enqueued (ops : List (Operation α)) : List (Node α) := ops.filterMap Operation.enqueued?

theorem enqueued_concat (ops : List (Operation α)) (op : Operation α) :
    enqueued (ops ++ [op]) = enqueued ops ++ op.enqueued?.toList := by
  rw [enqueued, List.filterMap_append]
  cases op <;> rfl

/-- The books of a run for the trees `ns` that have been put into the queue. -/
structure Run.Balances (r : Run α) (ns : List (Node α)) : Prop where
  bytes : r.queue.IsCounted
  trees : r.taken.flatten ++ r.queue.pending = ns

namespace Run.Balances

variable {r : Run α} {ns : List (Node α)}

theorem take (h : r.Balances ns) (max : Nat) : (r.apply (.take max)).Balances ns where
  bytes := h.bytes.take max
  trees := by rw [apply, List.flatten_concat, List.append_assoc, take_append, h.trees]

theorem apply (h : r.Balances ns) (op : Operation α) :
    (r.apply op).Balances (ns ++ op.enqueued?.toList) := by
  cases op with
  | enqueue n =>
    refine ⟨h.bytes.enqueue n, ?_⟩
    rw [← h.trees, List.append_assoc]
    rfl
  | take max =>
    rw [Operation.enqueued?, Option.toList_none, List.append_nil]
    exact h.take max
  | drain =>
    rw [Operation.enqueued?, Option.toList_none, List.append_nil]
    exact h.take r.queue.size

end Run.Balances

theorem balances_run (ops : List (Operation α)) : (run ops).Balances (enqueued ops) := by
  induction ops using List.reverseRecOn with
  | nil => exact ⟨rfl, rfl⟩
  | append_singleton ops op ih =>
    rw [run, List.foldl_concat, enqueued_concat]
    exact ih.apply op

end UploadQueue

namespace Synthesis

open Node

variable (config : PagingConfig) (v : ChunkView) (c : Collection)

/-- The bytes of the copies of the merged instances, as they are before they are optimized. -/
def mergedBytes : Nat :=
  uploadBytesAll (((kept config v c).filter (Kept.isMerged config v c)).map (·.copy))

theorem uploadBytes_node (k : Kept) : (k.node config v c).uploadBytes = k.copy.uploadBytes := by
  rw [Kept.node, uploadBytes, uploadBytesAll, uploadBytesAll, uploadBytes_withAttributes,
    Nat.add_zero]

theorem uploadBytesAll_mergedNodes :
    uploadBytesAll (mergedNodes config v c) = mergedBytes config v c := by
  rw [mergedNodes_eq_map_kept]
  exact uploadBytesAll_map fun k _ => uploadBytes_node config v c k

theorem uploadBytesAll_mergeGroup? (eye : Vec3 Float32) (nodes : List (Node Float32)) :
    uploadBytesAll ((mergeGroup? eye nodes).map (·.1)).toList = uploadBytesAll nodes := by
  cases nodes with
  | nil => rfl
  | cons n rest => exact uploadBytes_optimized _ .all (Node.group (n :: rest))

theorem uploadBytesAll_mergeGroup :
    uploadBytesAll (ofCollection config v c).mergeGroup.toList = mergedBytes config v c :=
  (uploadBytesAll_mergeGroup? _ _).trans (uploadBytesAll_mergedNodes config v c)

theorem pendingBytes_upload (s : Synthesis) (uploads : Bool) (cache : TemplateCache) :
    (s.upload v uploads cache).queue.pendingBytes = cache.queue.pendingBytes +
      if v.compile && uploads then uploadBytesAll s.mergeGroup.toList else 0 := by
  unfold upload
  cases hgroup : s.mergeGroup <;> cases v.compile && uploads <;>
    simp [TemplateCache.enqueue, UploadQueue.enqueue, uploadBytesAll]

end Synthesis

theorem Sources.pendingBytes_build (s : Sources) (v : ChunkView) (uploads : Bool)
    (cache : TemplateCache) :
    (s.build v uploads cache).2.queue.pendingBytes = (s.group v cache).2.queue.pendingBytes +
      match (s.group v cache).1 with
      | .ok c => if v.compile && uploads then Synthesis.mergedBytes s.config v c else 0
      | .error _ => 0 := by
  refine (congrArg (·.2.queue.pendingBytes) (s.build_eq v uploads cache)).trans ?_
  rcases s.group v cache with ⟨e | c, grown⟩
  · rfl
  · dsimp only
    rw [Synthesis.pendingBytes_upload, Synthesis.uploadBytesAll_mergeGroup]

/-- A queue that is empty at first counts the bytes of the trees that wait after each operation. A
further one takes as many trees as it asks for, if there are as many, and no more bytes off the
count than are there; all trees ever taken and those that wait are the trees that were put in, in
this order. A build adds the bytes of the copies of its merged instances, whatever becomes of them
when they are optimized, if it puts its merge group into the queue. -/
theorem UploadQueue.accounts_of_run_and_build :
    (∀ {β : Type} (ops : List (Operation β)) (max : Nat),
      (run ops).queue.pendingBytes = Node.uploadBytesAll (run ops).queue.pending ∧
      Node.uploadBytesAll ((run ops).queue.take max).1 ≤ (run ops).queue.pendingBytes ∧
      (run ops).taken.flatten ++ (run ops).queue.pending = enqueued ops ∧
      ((run ops).queue.take max).1.length = min max (run ops).queue.size ∧
      (run ops).queue.drain = ((run ops).queue.pending, .empty)) ∧
    (∀ (config : PagingConfig) (v : ChunkView) (c : Collection),
      Node.uploadBytesAll (Synthesis.ofCollection config v c).mergeGroup.toList =
        Synthesis.mergedBytes config v c) ∧
    ∀ (s : Sources) (v : ChunkView) (uploads : Bool) (cache : TemplateCache),
      (s.build v uploads cache).2.queue.pendingBytes = (s.group v cache).2.queue.pendingBytes +
        match (s.group v cache).1 with
        | .ok c => if v.compile && uploads then Synthesis.mergedBytes s.config v c else 0
        | .error _ => 0 := by
  refine ⟨fun ops max => ?_, Synthesis.uploadBytesAll_mergeGroup, Sources.pendingBytes_build⟩
  have hbooks := balances_run ops
  exact ⟨hbooks.bytes, hbooks.bytes.le_pendingBytes max, hbooks.trees, length_take _ max,
    hbooks.bytes.drain_eq⟩

end DistantChunks
