import DistantChunks.Proofs.OptimizedParts
import DistantChunks.Proofs.Sight
import Mathlib.Algebra.Order.Group.Multiset

/-!
# What is seen of an optimized tree

A bucket is merged by its state set alone and gets the mask of its first member. If a traversal
enters the first member but not another, merging exposes the other; if it enters another but not
the first, merging conceals the other. Lifting exposes what stands below the masks of the groups it
removes. `optimized_shows_iff` weighs all this for a whole optimization: a traversal with a given
mask is shown the same triangles before and after exactly when the triangles that are concealed
from it are those that are exposed to it.
-/

namespace DistantChunks

variable {α : Type}

section Showing

variable [Scalar α]

/-- A triangle below transforms with the product `x`. It is left alone if the product changes
nothing. -/
def Triangle.placed (x : Matrix α) (t : Triangle α) : Triangle α :=
  if x.isIdentity then t else t.map x.movePoint

def Frame.below (x : Matrix α) : Frame α → Matrix α
  | .matrix m => x * m
  | .flag _ | .range _ => x

def placedFace (f : List (Frame α) × Option StateSet × Triangle α) :
    Option StateSet × Triangle α :=
  (f.2.1, f.2.2.placed (f.1.foldl Frame.below .identity))

/-- The triangles of the plain drawables among some parts, in their places and with their state
sets. -/
def shown (ps : List (Part α)) : Multiset (Option StateSet × Triangle α) :=
  ↑((ps.flatMap Part.faces).map placedFace)

variable {ps qs : List (Part α)}

@[simp] theorem shown_nil : shown ([] : List (Part α)) = 0 := rfl

@[simp] theorem shown_append (ps qs : List (Part α)) : shown (ps ++ qs) = shown ps + shown qs := by
  simp [shown]

theorem shown_perm (h : ps.Perm qs) : shown ps = shown qs :=
  Multiset.coe_eq_coe.2 ((h.flatMap_right _).map _)

theorem SameContents.shown_eq (h : SameContents ps qs) : shown qs = shown ps :=
  Multiset.coe_eq_coe.2 (h.faces.map _)

theorem shown_flatMap {β : Type} {f g h k : β → List (Part α)} {xs : List β}
    (hx : ∀ x ∈ xs, shown (f x) + shown (g x) = shown (h x) + shown (k x)) :
    shown (xs.flatMap f) + shown (xs.flatMap g) = shown (xs.flatMap h) + shown (xs.flatMap k) := by
  induction xs with
  | nil => rfl
  | cons x xs ih =>
    have hfirst := hx x List.mem_cons_self
    have hrest := ih fun y hy => hx y (List.mem_cons_of_mem x hy)
    simp only [List.flatMap_cons, shown_append]
    rw [add_add_add_comm, hfirst, hrest, add_add_add_comm]

end Showing

namespace Member

/-- The members of a bucket that a traversal does not enter but sees in the merged drawable. -/
def exposed (m : UInt32) : List (Member α) → List (Member α)
  | [] => []
  | first :: more =>
    if first.attributes.isSeen m then more.filter (!·.attributes.isSeen m) else []

/-- The members of a bucket that a traversal enters but that the merged drawable hides. -/
def concealed (m : UInt32) : List (Member α) → List (Member α)
  | [] => []
  | first :: more =>
    if first.attributes.isSeen m then [] else more.filter (·.attributes.isSeen m)

variable {m : UInt32}

theorem seenParts_toNode (ms : List (Member α)) (path : List (Frame α)) (s : Option StateSet) :
    (ms.map toNode).flatMap (Node.seenParts m path s) =
      ((ms.filter (·.attributes.isSeen m)).map toNode).flatMap (Node.parts path s) := by
  induction ms with
  | nil => rfl
  | cons a ms ih =>
    rw [List.map_cons, List.flatMap_cons, ih, List.filter_cons]
    cases ha : a.attributes.isSeen m with
    | true =>
      rw [if_pos rfl, List.map_cons, List.flatMap_cons]
      simp only [toNode, Node.seenParts, Node.seen, Node.attributes, ha, if_true]
    | false =>
      have hnone : a.toNode.seenParts m path s = [] :=
        Node.seenParts_of_not_isSeen a.toNode ha path s
      rw [hnone, if_neg (by simp), List.nil_append]

end Member

namespace MergeRule

open Member

variable (rule : MergeRule α)

mutual

def pickedParts (pick : List (Member α) → List (Member α)) (m : UInt32) (path : List (Frame α))
    (s : Option StateSet) : Node α → List (Part α)
  | .branch a b children =>
    if a.isSeen m && b.isPlacing then
      pickedPartsAll pick m (path ++ b.frames 0) (a.state.or s) children ++
        ((rule.buckets children).flatMap pick |>.map toNode).flatMap
          (Node.parts (path ++ b.frames 0) (a.state.or s))
    else []
  | .drawable _ _ | .posed _ _ _ | .particle _ _ => []

def pickedPartsAll (pick : List (Member α) → List (Member α)) (m : UInt32)
    (path : List (Frame α)) (s : Option StateSet) : List (Node α) → List (Part α)
  | [] => []
  | n :: rest => pickedParts pick m path s n ++ pickedPartsAll pick m path s rest

end

theorem pickedPartsAll_eq (pick : List (Member α) → List (Member α)) (m : UInt32)
    (path : List (Frame α)) (s : Option StateSet) (ns : List (Node α)) :
    rule.pickedPartsAll pick m path s ns = ns.flatMap (rule.pickedParts pick m path s) := by
  induction ns with
  | nil => rfl
  | cons n ns ih => rw [pickedPartsAll, ih, List.flatMap_cons]

variable [Scalar α] {m : UInt32}

/-- A bucket and the drawable in its place: what is seen of the one and exposed balances what is
seen of the other and concealed. -/
theorem shown_joined {ns : List (Node α)} {b : List (Member α)} (hb : b ∈ rule.buckets ns)
    (h : Joinable (b.map Member.drawn)) (path : List (Frame α)) (s : Option StateSet) :
    shown ((b.map toNode).flatMap (Node.seenParts m path s)) +
        shown (((exposed m b).map toNode).flatMap (Node.parts path s)) =
      shown ((rule.joined b).toList.flatMap (Node.seenParts m path s)) +
        shown (((concealed m b).map toNode).flatMap (Node.parts path s)) := by
  rw [seenParts_toNode]
  cases b with
  | nil => rfl
  | cons first more =>
    have hattributes : (rule.join first more).attributes.isSeen m = first.attributes.isSeen m := rfl
    rw [joined, Option.toList_some, List.flatMap_singleton]
    cases hfirst : first.attributes.isSeen m with
    | true =>
      have hexposed : exposed m (first :: more) =
          (first :: more).filter (!·.attributes.isSeen m) := by
        rw [exposed, if_pos hfirst, List.filter_cons_of_neg (by simp [hfirst])]
      have hsplit := List.filter_append_perm (·.attributes.isSeen m) (first :: more)
      have hall := (rule.sameContents_joined hb h path s).shown_eq
      have hjoin : (rule.join first more).seenParts m path s =
          (rule.join first more).parts path s :=
        congrArg (Node.parts path s) (if_pos (hattributes.trans hfirst))
      rw [joined, Option.toList_some, List.flatMap_singleton] at hall
      rw [hexposed, concealed, if_pos hfirst, hjoin, hall, List.map_nil, List.flatMap_nil,
        shown_nil, add_zero, ← shown_append, ← List.flatMap_append, ← List.map_append]
      exact shown_perm ((hsplit.map toNode).flatMap_right _)
    | false =>
      have hjoin : (rule.join first more).seenParts m path s = [] :=
        Node.seenParts_of_not_isSeen _ (hattributes.trans hfirst) path s
      rw [exposed, concealed, hfirst, hjoin, List.filter_cons_of_neg (by simp [hfirst])]
      simp

theorem shown_mergeSiblings {ns : List (Node α)}
    (h : ∀ b ∈ rule.buckets ns, Joinable (b.map Member.drawn)) (path : List (Frame α))
    (s : Option StateSet) :
    shown (ns.flatMap (Node.seenParts m path s)) +
        shown (((rule.buckets ns).flatMap (exposed m) |>.map toNode).flatMap
          (Node.parts path s)) =
      shown ((rule.mergeSiblings ns).flatMap (Node.seenParts m path s)) +
        shown (((rule.buckets ns).flatMap (concealed m) |>.map toNode).flatMap
          (Node.parts path s)) := by
  obtain ⟨hbefore, hafter⟩ := rule.mergeSiblings_perm ns
  have hbuckets := shown_flatMap fun b hb => rule.shown_joined (m := m) hb (h b hb) path s
  rw [shown_perm (hbefore.flatMap_right _), shown_perm (hafter.flatMap_right _)]
  simp only [List.flatMap_append, shown_append, List.filterMap_eq_flatMap_toList,
    List.flatMap_assoc,
    List.map_flatMap, List.map_flatten, ← List.flatMap_def]
  rw [add_assoc, add_assoc]
  exact congrArg _ hbuckets

theorem shown_merge {n : Node α} (h : ∀ b ∈ rule.mergedBuckets n, Joinable (b.map Member.drawn))
    (path : List (Frame α)) (s : Option StateSet) :
    shown (n.seenParts m path s) + shown (rule.pickedParts (exposed m) m path s n) =
      shown ((rule.merge n).seenParts m path s) +
        shown (rule.pickedParts (concealed m) m path s n) := by
  induction n generalizing path s with
  | branch a b children ih =>
    cases ha : a.isSeen m with
    | false =>
      have hmerged : (rule.merge (.branch a b children)).attributes.isSeen m = false := ha
      rw [pickedParts, pickedParts, ha,
        Node.seenParts_of_not_isSeen (.branch a b children) ha,
        Node.seenParts_of_not_isSeen _ hmerged]
      rfl
    | true =>
      rw [merge, pickedParts, pickedParts, ha, Bool.true_and]
      split
      · next hb =>
        rw [mergedBuckets, if_pos hb, mergedBucketsAll_eq] at h
        rw [Node.seenParts_placing ha hb, Node.seenParts_placing ha hb, pickedPartsAll_eq,
          pickedPartsAll_eq, shown_append, shown_append]
        have hbelow (c : Node α) (hc : c ∈ children) :
            ∀ b ∈ rule.mergedBuckets c, Joinable (b.map Member.drawn) := by
          intro b hb
          exact h b (List.mem_append_left _ (List.mem_flatMap.2 ⟨c, hc, hb⟩))
        have hhere : ∀ b ∈ rule.buckets (mergeAll rule children),
            Joinable (b.map Member.drawn) := by
          intro b hb
          rw [buckets_mergeAll] at hb
          exact h b (List.mem_append_right _ hb)
        have hchildren := shown_flatMap fun c hc =>
          ih c hc (hbelow c hc) (path ++ b.frames 0) (a.state.or s)
        have hsiblings := rule.shown_mergeSiblings (m := m) hhere (path ++ b.frames 0)
          (a.state.or s)
        rw [buckets_mergeAll, mergeAll_eq, List.flatMap_map] at hsiblings
        rw [← add_assoc, hchildren, add_right_comm, hsiblings, mergeAll_eq,
          add_right_comm, add_assoc]
      · rfl
  | drawable | posed | particle => rfl

end MergeRule

namespace Node

variable [Scalar α]

def exposedParts (rule : MergeRule α) (passes : Passes) (m : UInt32) (root : Node α) :
    List (Part α) :=
  (if passes.lifts then (if passes.bakes then root.baked else root).uncoveredBelow m else []) ++
    if passes.merges then rule.pickedParts (Member.exposed m) m [] none (root.prepared passes)
    else []

def concealedParts (rule : MergeRule α) (passes : Passes) (m : UInt32) (root : Node α) :
    List (Part α) :=
  if passes.merges then rule.pickedParts (Member.concealed m) m [] none (root.prepared passes)
  else []

variable {rule : MergeRule α} {passes : Passes} {root : Node α} {m : UInt32}

theorem shown_prepared : shown ((root.prepared passes).seenParts m [] none) =
    shown ((root.seen m).partsFor passes) +
      shown (if passes.lifts then
        (if passes.bakes then root.baked else root).uncoveredBelow m else []) := by
  have hbaked : (if passes.bakes then root.baked else root).seenParts m [] none =
      (root.seen m).partsFor passes := by
    rw [partsFor]
    split
    · exact seenParts_baked root
    · rfl
  rw [← hbaked, prepared]
  split
  · rw [shown_perm (perm_seenParts_lifted _), shown_append]
  · rw [shown_nil, add_zero]

/-- A traversal with the mask `m` is shown the same triangles of the tree and of the optimized tree
exactly when the triangles that the optimization conceals from it are those that it exposes. -/
theorem optimized_shows_iff
    (hwhole : ∀ p ∈ root.partsFor passes, ∀ mesh, p.shape = .mesh mesh → mesh.IsWhole)
    (hfits : ∀ b ∈ root.optimizedBuckets rule passes,
      vertexTotal (b.map Member.drawn) < UInt32.size) :
    shown (((root.optimized rule passes).seen m).parts [] none) =
        shown ((root.seen m).partsFor passes) ↔
      shown (root.concealedParts rule passes m) = shown (root.exposedParts rule passes m) := by
  have hbalance : shown ((root.seen m).partsFor passes) +
        shown (root.exposedParts rule passes m) =
      shown ((root.optimized rule passes).seenParts m [] none) +
        shown (root.concealedParts rule passes m) := by
    have hjoinable : ∀ b ∈ root.optimizedBuckets rule passes, Joinable (b.map Member.drawn) :=
      fun b hb => joinable_of_mem_optimizedBuckets hwhole hb (hfits b hb)
    rw [exposedParts, concealedParts, shown_append, ← add_assoc, ← shown_prepared, optimized_eq]
    rw [optimizedBuckets] at hjoinable
    split
    · next hmerges =>
      rw [if_pos hmerges] at hjoinable
      exact rule.shown_merge hjoinable [] none
    · rfl
  change shown ((root.optimized rule passes).seenParts m [] none) = _ ↔ _
  constructor
  · intro h
    rw [h] at hbalance
    exact (add_left_cancel hbalance).symm
  · intro h
    rw [h] at hbalance
    exact (add_right_cancel hbalance).symm

def cellar : Node Float32 :=
  .group [.branch { Attributes.fresh with mask := 0 } .group [.drawable .fresh (.cuboid ⟨1, 1, 1⟩)]]

theorem isWhole_of_mem_cellar :
    ∀ p ∈ cellar.partsFor .all, ∀ mesh, p.shape = .mesh mesh → mesh.IsWhole := by
  intro p hp mesh hmesh
  simp only [cellar, partsFor, Passes.all, if_true, group, flattenedParts, bakedPartsFrom,
    bakedParts, List.append_nil, List.mem_singleton] at hp
  obtain rfl := hp
  cases hmesh
  exact Mesh.isWhole_placed_iff.2 (Mesh.isWhole_cuboid _)

theorem fits_cellar : ∀ b ∈ cellar.optimizedBuckets ⟨none, false⟩ .all,
    vertexTotal (b.map Member.drawn) < UInt32.size := by
  decide

theorem cellar_shows_iff :
    let rule : MergeRule Float32 := ⟨none, false⟩
    shown (((cellar.optimized rule .all).seen Attributes.maskAll).parts [] none) =
        shown ((cellar.seen Attributes.maskAll).partsFor .all) ↔
      shown (cellar.concealedParts rule .all Attributes.maskAll) =
        shown (cellar.exposedParts rule .all Attributes.maskAll) :=
  optimized_shows_iff isWhole_of_mem_cellar fits_cellar

/-- The group is lifted out and the barrel stands in the open: a traversal that was shown nothing
is shown twelve triangles. -/
theorem cellar_is_uncovered :
    (∀ p ∈ cellar.partsFor .all, ∀ mesh, p.shape = .mesh mesh → mesh.IsWhole) ∧
      (∀ b ∈ cellar.optimizedBuckets ⟨none, false⟩ .all,
        vertexTotal (b.map Member.drawn) < UInt32.size) ∧
      (shown ((cellar.seen Attributes.maskAll).partsFor .all)).card = 0 ∧
      (shown (((cellar.optimized ⟨none, false⟩ .all).seen Attributes.maskAll).parts [] none)).card =
        12 := by
  refine ⟨isWhole_of_mem_cellar, fits_cellar, ?_, ?_⟩
  · decide
  · decide +kernel

end Node

end DistantChunks
