import DistantChunks.Proofs.Buckets
import DistantChunks.Proofs.Parts
import DistantChunks.Proofs.StaticDrawing
import DistantChunks.Scene.Optimization

/-!
# Optimization loses, duplicates and recolours nothing

Whatever passes are asked for, an optimized tree has the triangles and vertices of the tree it was
made from, each on the same path and with the same state set. When baking is one of the passes,
the path and the place of a vertex are those of the tree with its static transforms multiplied.
What optimization does change is how many drawables there are: each bucket of siblings that is
merged leaves one of its members.
-/

namespace DistantChunks

variable {α : Type}

/-- The parts `qs` show what `ps` show, perhaps distributed in another way among drawables. -/
structure SameContents (ps qs : List (Part α)) : Prop where
  faces : (qs.flatMap Part.faces).Perm (ps.flatMap Part.faces)
  points : (qs.flatMap Part.points).Perm (ps.flatMap Part.points)
  poses : (qs.flatMap Part.poses).Perm (ps.flatMap Part.poses)

namespace SameContents

variable {ps qs rs ps' qs' : List (Part α)}

theorem of_perm (h : ps.Perm qs) : SameContents ps qs where
  faces := h.symm.flatMap_right _
  points := h.symm.flatMap_right _
  poses := h.symm.flatMap_right _

theorem refl (ps : List (Part α)) : SameContents ps ps := of_perm (.refl ps)

theorem trans (h : SameContents ps qs) (h' : SameContents qs rs) : SameContents ps rs where
  faces := h'.faces.trans h.faces
  points := h'.points.trans h.points
  poses := h'.poses.trans h.poses

theorem append (h : SameContents ps qs) (h' : SameContents ps' qs') :
    SameContents (ps ++ ps') (qs ++ qs') where
  faces := by simpa only [List.flatMap_append] using h.faces.append h'.faces
  points := by simpa only [List.flatMap_append] using h.points.append h'.points
  poses := by simpa only [List.flatMap_append] using h.poses.append h'.poses

theorem flatMap {β : Type} {f g : β → List (Part α)} {xs : List β}
    (h : ∀ x ∈ xs, SameContents (f x) (g x)) : SameContents (xs.flatMap f) (xs.flatMap g) := by
  induction xs with
  | nil => exact refl _
  | cons x xs ih =>
    rw [List.flatMap_cons, List.flatMap_cons]
    exact (h x List.mem_cons_self).append (ih fun y hy => h y (List.mem_cons_of_mem x hy))

end SameContents

/-- Meshes that are appended one after the other show their triangles and no others. -/
theorem Joinable.perm_triangles {s : Option StateSet} {meshes : List (Mesh α)}
    (h : Joinable (meshes.map (Drawn.mk s))) :
    (meshes.foldl Mesh.append .empty).triangles.Perm (meshes.flatMap Mesh.triangles) := by
  have hstarted := Redrawn.cons_empty s h
  have hjoined := hstarted.trans (Redrawn.foldl_append (hstarted.joinable h))
  have hfaces := hjoined.faces.map Prod.snd
  simpa [Drawn.faces, List.map_flatMap, List.flatMap_map, Function.comp_def] using hfaces

theorem Mesh.vertices_foldl_append (a : Mesh α) (meshes : List (Mesh α)) :
    (meshes.foldl append a).vertices.toList =
      a.vertices.toList ++ meshes.flatMap (·.vertices.toList) := by
  induction meshes generalizing a with
  | nil => simp
  | cons b meshes ih => rw [List.foldl_cons, ih]; simp [append]

namespace Member

def drawn (m : Member α) : Drawn α := ⟨m.attributes.state, m.mesh⟩

theorem parts_toNode {state : Option StateSet} {ms : List (Member α)}
    (h : ∀ m ∈ ms, m.attributes.state = state) (path : List (Frame α)) (s : Option StateSet) :
    (ms.map toNode).flatMap (Node.parts path s) =
      (ms.map Member.mesh).map fun mesh => ⟨path, state.or s, .mesh mesh⟩ := by
  rw [List.flatMap_map, List.map_map, List.map_eq_flatMap]
  apply List.flatMap_congr
  intro m hm
  simp only [toNode, Node.parts, h m hm, Function.comp_apply]

end Member

namespace Node

theorem readsThrough_parts :
    ReadsThrough (parts : List (Frame α) → Option StateSet → Node α → List (Part α))
      (fun path m => path ++ [.matrix m]) where
  group path s a children := parts_group path s a children
  transform path s a m children := parts_transform path s a m children
  withStateIfNone path s t _ hn := parts_withStateIfNone hn t path s

theorem drawableCountAll_perm {ms ns : List (Node α)} (h : ms.Perm ns) :
    drawableCountAll ms = drawableCountAll ns := by
  induction h with
  | nil => rfl
  | cons n _ ih => rw [drawableCountAll, drawableCountAll, ih]
  | swap m n ns =>
    simp only [drawableCountAll]
    omega
  | trans _ _ ih ih' => exact ih.trans ih'

theorem parts_placing {a : Attributes} {b : Branching α} (hb : b.isPlacing = true)
    (path : List (Frame α)) (s : Option StateSet) (children : List (Node α)) :
    (branch a b children).parts path s =
      children.flatMap (parts (path ++ b.frames 0) (a.state.or s)) := by
  cases b with
  | group => rw [parts_group, Branching.frames, List.append_nil]
  | transform m => exact parts_transform path s a m children
  | switch | detail => cases hb

end Node

namespace MergeRule

open Member

/-- How many drawables are gone when each bucket is merged. -/
def saved : List (List (Member α)) → Nat
  | [] => 0
  | b :: bs => (b.length - 1) + saved bs

theorem saved_append (bs cs : List (List (Member α))) : saved (bs ++ cs) = saved bs + saved cs := by
  induction bs with
  | nil => simp [saved]
  | cons b bs ih =>
    simp only [List.cons_append, saved, ih]
    omega

theorem drawableCountAll_toNode (ms : List (Member α)) :
    Node.drawableCountAll (ms.map toNode) = ms.length := by
  induction ms with
  | nil => rfl
  | cons m ms ih =>
    rw [List.map_cons, Node.drawableCountAll, ih, toNode, Node.drawableCount, List.length_cons]
    omega

variable (rule : MergeRule α)

mutual

/-- The buckets that are merged anywhere in a tree. -/
def mergedBuckets : Node α → List (List (Member α))
  | .branch _ b children =>
    if b.isPlacing then mergedBucketsAll children ++ rule.buckets children else []
  | .drawable _ _ | .posed _ _ _ | .particle _ _ => []

def mergedBucketsAll : List (Node α) → List (List (Member α))
  | [] => []
  | n :: rest => mergedBuckets n ++ mergedBucketsAll rest

end

theorem mergedBucketsAll_eq (ns : List (Node α)) :
    rule.mergedBucketsAll ns = ns.flatMap rule.mergedBuckets := by
  induction ns with
  | nil => rfl
  | cons n ns ih => rw [mergedBucketsAll, ih, List.flatMap_cons]

theorem exists_part_of_mem_mergedBuckets {n : Node α} {b : List (Member α)}
    (hb : b ∈ rule.mergedBuckets n) {m : Member α} (hm : m ∈ b) (path : List (Frame α))
    (s : Option StateSet) : ∃ p ∈ n.parts path s, p.shape = .mesh m.mesh := by
  induction n generalizing path s with
  | branch a branching children ih =>
    rw [mergedBuckets] at hb
    split at hb
    · next hplacing =>
      rw [Node.parts_placing hplacing]
      rcases List.mem_append.1 hb with hb | hb
      · rw [mergedBucketsAll_eq] at hb
        obtain ⟨c, hc, hb⟩ := List.mem_flatMap.1 hb
        obtain ⟨p, hp, hshape⟩ := ih c hc hb _ _
        exact ⟨p, List.mem_flatMap.2 ⟨c, hc, hp⟩, hshape⟩
      · obtain ⟨t, -, rfl⟩ := List.mem_map.1 hb
        obtain ⟨c, hc, hof⟩ := exists_of_mem_companions hm
        have hpart (path : List (Frame α)) (s : Option StateSet) :
            ⟨path, m.attributes.state.or s, .mesh m.mesh⟩ ∈ c.parts path s := by
          rw [eq_toNode_of_ofNode? hof]
          exact List.mem_singleton_self _
        exact ⟨_, List.mem_flatMap.2 ⟨c, hc, hpart _ _⟩, rfl⟩
    · cases hb
  | drawable | posed | particle => cases hb

variable [Scalar α]

theorem ofNode?_merge (n : Node α) : ofNode? (rule.merge n) = ofNode? n := by
  cases n with
  | branch | drawable | posed | particle => rfl

theorem buckets_mergeAll (ns : List (Node α)) :
    rule.buckets (mergeAll rule ns) = rule.buckets ns := by
  have hcompanions (t : Option StateSet) : companions t (mergeAll rule ns) = companions t ns := by
    rw [mergeAll_eq, companions, List.filterMap_map]
    exact List.filterMap_congr fun n _ => by rw [Function.comp_apply, ofNode?_merge]
  have hmembers : (mergeAll rule ns).filterMap ofNode? = ns.filterMap ofNode? := by
    rw [mergeAll_eq, List.filterMap_map]
    exact List.filterMap_congr fun n _ => rule.ofNode?_merge n
  have hmerges : rule.merges (mergeAll rule ns) = rule.merges ns := by
    funext t
    rw [merges, merges, hcompanions]
  rw [buckets, buckets, mergedStates, mergedStates, hmembers, hmerges]
  exact List.map_congr_left fun t _ => hcompanions t

/-- The drawable in the place of a bucket has the triangles and vertices of its members. -/
theorem sameContents_join {first : Member α} {more : List (Member α)}
    (hstate : ∀ m ∈ more, m.attributes.state = first.attributes.state)
    (h : Joinable ((first :: more).map Member.drawn)) (path : List (Frame α))
    (s : Option StateSet) :
    SameContents (((first :: more).map toNode).flatMap (Node.parts path s))
      ((rule.join first more).parts path s) := by
  have hall : ∀ m ∈ first :: more, m.attributes.state = first.attributes.state := by
    simpa using hstate
  rw [parts_toNode hall]
  set meshes := (first :: more).map Member.mesh with hmeshes
  have hdrawn : (first :: more).map Member.drawn =
      meshes.map (Drawn.mk first.attributes.state) := by
    rw [hmeshes, List.map_map]
    exact List.map_congr_left fun m hm => by rw [Member.drawn, hall m hm]; rfl
  have horder : ((rule.order (first :: more)).map Member.mesh).Perm meshes :=
    (rule.order_perm _).map _
  have hjoin : (rule.join first more).parts path s =
      [⟨path, first.attributes.state.or s,
        .mesh (((rule.order (first :: more)).map Member.mesh).foldl Mesh.append .empty)⟩] := by
    rw [join, Node.parts, List.foldl_map]
  rw [hdrawn] at h
  have htriangles := (h.perm (horder.symm.map _)).perm_triangles.trans
    (horder.flatMap_right Mesh.triangles)
  have hvertices :
      ((rule.order (first :: more)).map Member.mesh).flatMap (·.vertices.toList) |>.Perm
        (meshes.flatMap (·.vertices.toList)) := horder.flatMap_right _
  rw [hjoin]
  refine ⟨?_, ?_, ?_⟩
  · have hfaces := htriangles.map fun t => (path, first.attributes.state.or s, t)
    simpa [Part.faces, List.flatMap_map, List.map_flatMap] using hfaces
  · have hpoints := hvertices.map fun v => (path, first.attributes.state.or s, v)
    simpa [Part.points, List.flatMap_map, List.map_flatMap, Mesh.vertices_foldl_append, Mesh.empty]
      using hpoints
  · simp [Part.poses, List.flatMap_map]

theorem sameContents_joined {ns : List (Node α)} {b : List (Member α)} (hb : b ∈ rule.buckets ns)
    (h : Joinable (b.map Member.drawn)) (path : List (Frame α)) (s : Option StateSet) :
    SameContents ((b.map toNode).flatMap (Node.parts path s))
      ((rule.joined b).toList.flatMap (Node.parts path s)) := by
  cases b with
  | nil => exact .refl _
  | cons first more =>
    have hjoin := rule.sameContents_join (rule.state_of_mem_bucket hb) h path s
    rw [joined, Option.toList_some, List.flatMap_singleton]
    exact hjoin

theorem sameContents_mergeSiblings {ns : List (Node α)}
    (h : ∀ b ∈ rule.buckets ns, Joinable (b.map Member.drawn)) (path : List (Frame α))
    (s : Option StateSet) :
    SameContents (ns.flatMap (Node.parts path s))
      ((rule.mergeSiblings ns).flatMap (Node.parts path s)) := by
  obtain ⟨hbefore, hafter⟩ := rule.mergeSiblings_perm ns
  have hjoined : SameContents
      (((rule.buckets ns).flatten.map toNode).flatMap (Node.parts path s))
      (((rule.buckets ns).filterMap rule.joined).flatMap (Node.parts path s)) := by
    rw [List.filterMap_eq_flatMap_toList, List.flatMap_assoc, List.map_flatten,
      ← List.flatMap_def, List.flatMap_assoc]
    exact SameContents.flatMap fun b hb => rule.sameContents_joined hb (h b hb) path s
  have hparts := (SameContents.refl ((rule.kept ns).flatMap (Node.parts path s))).append hjoined
  rw [← List.flatMap_append, ← List.flatMap_append] at hparts
  have hfirst := SameContents.of_perm (hbefore.flatMap_right (Node.parts path s))
  have hlast := SameContents.of_perm (hafter.symm.flatMap_right (Node.parts path s))
  exact (hfirst.trans hparts).trans hlast

/-- Merging at every depth changes no contents of the tree. -/
theorem sameContents_merge {n : Node α}
    (h : ∀ b ∈ rule.mergedBuckets n, Joinable (b.map Member.drawn)) (path : List (Frame α))
    (s : Option StateSet) : SameContents (n.parts path s) ((rule.merge n).parts path s) := by
  induction n generalizing path s with
  | branch a b children ih =>
    rw [merge]
    split
    · next hb =>
      rw [mergedBuckets, if_pos hb, mergedBucketsAll_eq] at h
      rw [Node.parts_placing hb, Node.parts_placing hb]
      have hbelow (c : Node α) (hc : c ∈ children) :
          ∀ b ∈ rule.mergedBuckets c, Joinable (b.map Member.drawn) := by
        intro b hb
        exact h b (List.mem_append_left _ (List.mem_flatMap.2 ⟨c, hc, hb⟩))
      have hhere : ∀ b ∈ rule.buckets (mergeAll rule children), Joinable (b.map Member.drawn) := by
        intro b hb
        rw [buckets_mergeAll] at hb
        exact h b (List.mem_append_right _ hb)
      have hchildren : SameContents
          (children.flatMap (Node.parts (path ++ b.frames 0) (a.state.or s)))
          ((mergeAll rule children).flatMap (Node.parts (path ++ b.frames 0) (a.state.or s))) := by
        rw [mergeAll_eq, List.flatMap_map]
        exact SameContents.flatMap fun c hc => ih c hc (hbelow c hc) _ _
      exact hchildren.trans (rule.sameContents_mergeSiblings hhere _ _)
    · exact .refl _
  | drawable | posed | particle => exact .refl _

theorem drawableCountAll_joined {bs : List (List (Member α))} (h : ∀ b ∈ bs, b ≠ []) :
    Node.drawableCountAll (bs.flatten.map toNode) =
      Node.drawableCountAll (bs.filterMap rule.joined) + saved bs := by
  rw [drawableCountAll_toNode]
  induction bs with
  | nil => rfl
  | cons b bs ih =>
    have hrest := ih fun c hc => h c (List.mem_cons_of_mem b hc)
    cases b with
    | nil => exact absurd rfl (h [] List.mem_cons_self)
    | cons first more =>
      have hjoined : rule.joined (first :: more) = some (rule.join first more) := rfl
      rw [List.filterMap_cons, hjoined, List.flatten_cons, List.length_append, hrest, saved,
        Node.drawableCountAll, join, Node.drawableCount, List.length_cons]
      omega

theorem drawableCountAll_mergeSiblings (ns : List (Node α)) :
    Node.drawableCountAll ns =
      Node.drawableCountAll (rule.mergeSiblings ns) + saved (rule.buckets ns) := by
  obtain ⟨hbefore, hafter⟩ := rule.mergeSiblings_perm ns
  have hne : ∀ b ∈ rule.buckets ns, b ≠ [] := by
    rintro b hb rfl
    have := rule.two_le_length_of_mem_buckets hb
    simp at this
  rw [Node.drawableCountAll_perm hbefore, Node.drawableCountAll_perm hafter,
    Node.drawableCountAll_append, Node.drawableCountAll_append, rule.drawableCountAll_joined hne,
    Nat.add_assoc]

theorem drawableCountAll_mergeAll {ns : List (Node α)}
    (h : ∀ n ∈ ns,
      n.drawableCount = (rule.merge n).drawableCount + saved (rule.mergedBuckets n)) :
    Node.drawableCountAll ns =
      Node.drawableCountAll (mergeAll rule ns) + saved (rule.mergedBucketsAll ns) := by
  induction ns with
  | nil => rfl
  | cons n ns ih =>
    have hn := h n List.mem_cons_self
    have hns := ih fun m hm => h m (List.mem_cons_of_mem n hm)
    rw [mergeAll, mergedBucketsAll, saved_append, Node.drawableCountAll, Node.drawableCountAll,
      hn, hns]
    omega

/-- Each bucket leaves one of its members to be counted. -/
theorem drawableCount_merge (n : Node α) :
    n.drawableCount = (rule.merge n).drawableCount + saved (rule.mergedBuckets n) := by
  induction n with
  | branch a b children ih =>
    rw [merge, mergedBuckets]
    split
    · have hchildren := rule.drawableCountAll_mergeAll ih
      have hsiblings := rule.drawableCountAll_mergeSiblings (mergeAll rule children)
      rw [buckets_mergeAll] at hsiblings
      rw [Node.drawableCount, Node.drawableCount, saved_append, hchildren, hsiblings]
      omega
    · rfl
  | drawable | posed | particle => rfl

theorem isBaked_of_mem_merged {ns : List (Node α)} (h : ∀ n ∈ ns, (rule.merge n).IsBaked) :
    ∀ n ∈ rule.mergeSiblings (mergeAll rule ns), n.IsBaked := by
  intro n hn
  rcases rule.origin_of_mem_merged hn with ⟨c, hc, rfl⟩ | hdrawable
  · exact h c hc
  · cases n with
    | branch | particle => cases hdrawable
    | drawable | posed => trivial

theorem isBaked_merge {n : Node α} (h : n.IsBaked) : (rule.merge n).IsBaked := by
  induction n with
  | branch a b children ih =>
    rw [merge]
    split
    · exact h.branch (rule.isBaked_of_mem_merged fun c hc => ih c hc (h.children c hc))
    · exact h
  | drawable | posed | particle => exact h

theorem isBaked_children_merge {root : Node α} (h : ∀ c ∈ root.children, c.IsBaked) :
    ∀ c ∈ (rule.merge root).children, c.IsBaked := by
  cases root with
  | branch a b children =>
    rw [merge, Node.children]
    split
    · exact rule.isBaked_of_mem_merged fun c hc => rule.isBaked_merge (h c hc)
    · exact h
  | drawable | posed | particle => exact h

end MergeRule

namespace Node

theorem IsBaked.withStateIfNone {n : Node α} (h : n.IsBaked) (s : StateSet) :
    (n.withStateIfNone s).IsBaked := by
  unfold Node.withStateIfNone
  split
  · cases n with
    | branch a b children => cases b <;> exact h
    | drawable | posed | particle => exact h
  · exact h

theorem isBaked_handDown {a : Attributes} {children : List (Node α)}
    (h : ∀ c ∈ children, c.IsBaked) : ∀ c ∈ (handDown a children).2, c.IsBaked := by
  unfold handDown
  split
  · exact h
  · split
    · intro d hd
      obtain ⟨c, hc, rfl⟩ := List.mem_map.1 hd
      exact (h c hc).withStateIfNone _
    · exact h

theorem isBaked_settledGroup {a : Attributes} {children : List (Node α)}
    (h : ∀ c ∈ children, c.IsBaked) : ∀ n ∈ settledGroup a children, n.IsBaked := by
  have hdown := isBaked_handDown (a := a) h
  intro n hn
  simp only [settledGroup] at hn
  split at hn
  · cases hn
  · split at hn
    · exact hdown n hn
    · rw [List.mem_singleton] at hn
      rw [hn]
      exact areBaked_iff.2 hdown

theorem isBaked_of_mem_liftAll {ns : List (Node α)} (h : ∀ n ∈ ns, ∀ m ∈ lift n, m.IsBaked) :
    ∀ m ∈ liftAll ns, m.IsBaked := by
  rw [liftAll_eq]
  intro m hm
  obtain ⟨n, hn, hm⟩ := List.mem_flatMap.1 hm
  exact h n hn m hm

theorem isBaked_of_mem_lift {n : Node α} (h : n.IsBaked) : ∀ m ∈ lift n, m.IsBaked := by
  induction n with
  | branch a b children ih =>
    have hall := isBaked_of_mem_liftAll fun c hc => ih c hc (h.children c hc)
    cases b with
    | group => exact isBaked_settledGroup hall
    | transform m =>
      rw [lift]
      cases hc : liftAll children with
      | nil => simp
      | cons c cs =>
        rw [hc] at hall
        intro n hn
        rw [List.mem_singleton] at hn
        rw [hn]
        exact h.branch hall
    | switch | detail => simpa [lift] using h
  | drawable | posed | particle => simpa [lift] using h

theorem isBaked_children_lifted {root : Node α} (h : ∀ c ∈ root.children, c.IsBaked) :
    ∀ c ∈ root.lifted.children, c.IsBaked := by
  cases root with
  | branch a b children =>
    rw [lifted, Node.children]
    split
    · exact isBaked_of_mem_liftAll fun c hc => isBaked_of_mem_lift (h c hc)
    · exact h
  | drawable | posed | particle => exact h

variable [Scalar α]

/-- The tree that is left to be merged. -/
def prepared (passes : Passes) (root : Node α) : Node α :=
  let root := if passes.bakes then root.baked else root
  if passes.lifts then root.lifted else root

/-- The buckets that an optimization merges. -/
def optimizedBuckets (rule : MergeRule α) (passes : Passes) (root : Node α) :
    List (List (Member α)) :=
  if passes.merges then rule.mergedBuckets (root.prepared passes) else []

/-- The parts of a tree in the reading that its optimization keeps. -/
def partsFor (passes : Passes) (root : Node α) : List (Part α) :=
  if passes.bakes then root.flattenedParts else root.parts [] none

variable {rule : MergeRule α} {passes : Passes} {root : Node α}

theorem optimized_eq : root.optimized rule passes =
    if passes.merges then rule.merge (root.prepared passes) else root.prepared passes := rfl

theorem parts_prepared : (root.prepared passes).parts [] none = root.partsFor passes := by
  have hbaked : (if passes.bakes then root.baked else root).parts [] none =
      root.partsFor passes := by
    rw [partsFor]
    split
    · exact parts_baked root
    · rfl
  rw [← hbaked, prepared]
  split
  · exact readsThrough_parts.lifted _ [] none
  · rfl

theorem length_partsFor : (root.partsFor passes).length = root.drawableCount := by
  rw [partsFor]
  split
  · exact length_flattenedParts root
  · exact length_parts root [] none

theorem isBaked_prepared (hbakes : passes.bakes = true) :
    ∀ c ∈ (root.prepared passes).children, c.IsBaked := by
  have hbaked := isBaked_baked root
  rw [prepared, hbakes, if_pos rfl]
  split
  · exact isBaked_children_lifted hbaked
  · exact hbaked

theorem isBaked_optimized (hbakes : passes.bakes = true) :
    ∀ c ∈ (root.optimized rule passes).children, c.IsBaked := by
  have hprepared : ∀ c ∈ (root.prepared passes).children, c.IsBaked := isBaked_prepared hbakes
  rw [optimized_eq]
  split
  · exact rule.isBaked_children_merge hprepared
  · exact hprepared

theorem joinable_of_mem_optimizedBuckets
    (hwhole : ∀ p ∈ root.partsFor passes, ∀ mesh, p.shape = .mesh mesh → mesh.IsWhole)
    {b : List (Member α)} (hb : b ∈ root.optimizedBuckets rule passes)
    (hfits : vertexTotal (b.map Member.drawn) < UInt32.size) :
    Joinable (b.map Member.drawn) := by
  refine ⟨?_, hfits⟩
  intro d hd
  obtain ⟨m, hm, rfl⟩ := List.mem_map.1 hd
  rw [optimizedBuckets] at hb
  split at hb
  · obtain ⟨p, hp, hshape⟩ := rule.exists_part_of_mem_mergedBuckets hb hm [] none
    rw [parts_prepared] at hp
    exact hwhole p hp m.mesh hshape
  · cases hb

/-- Optimization keeps every triangle and vertex of a tree with its path and state set, and each
merged bucket takes as many drawables off the count as it has members but one. -/
theorem optimized_sameContents
    (hwhole : ∀ p ∈ root.partsFor passes, ∀ mesh, p.shape = .mesh mesh → mesh.IsWhole)
    (hfits : ∀ b ∈ root.optimizedBuckets rule passes,
      vertexTotal (b.map Member.drawn) < UInt32.size) :
    let result := root.optimized rule passes
    let change := root.optimizationChange rule passes
    SameContents (root.partsFor passes) (result.parts [] none) ∧
      (passes.bakes = true → ∀ c ∈ result.children, c.IsBaked) ∧
      change.before = (root.parts [] none).length ∧
      change.after = (result.parts [] none).length ∧
      change.before = change.after + MergeRule.saved (root.optimizedBuckets rule passes) := by
  intro result change
  have hcontents : SameContents (root.partsFor passes) (result.parts [] none) := by
    have hjoinable : ∀ b ∈ root.optimizedBuckets rule passes, Joinable (b.map Member.drawn) :=
      fun b hb => joinable_of_mem_optimizedBuckets hwhole hb (hfits b hb)
    rw [← parts_prepared, show result = _ from optimized_eq]
    rw [optimizedBuckets] at hjoinable
    split
    · next hmerges =>
      rw [if_pos hmerges] at hjoinable
      exact rule.sameContents_merge hjoinable [] none
    · exact .refl _
  have hcount : root.drawableCount = result.drawableCount +
      MergeRule.saved (root.optimizedBuckets rule passes) := by
    have hlength : (root.partsFor passes).length = root.drawableCount := length_partsFor
    rw [← hlength, ← parts_prepared, length_parts, show result = _ from optimized_eq,
      optimizedBuckets]
    split
    · exact rule.drawableCount_merge _
    · rfl
  exact ⟨hcontents, isBaked_optimized, (length_parts root [] none).symm,
    (length_parts result [] none).symm, hcount⟩

/-- A wall of two stones that was moved as a whole, and a lamp that is on or off. -/
def cottage : Node Float32 :=
  let stone : StateSet := ⟨0, "stone", false⟩
  let matrix := Matrix.ofPlacement 2 .identity ⟨8, 0, 0⟩
  .group [
    .branch { Attributes.fresh with state := some stone, variance := .static } (.transform matrix) [
      .drawable .fresh (.cuboid ⟨1, 1, 1⟩),
      .drawable { Attributes.fresh with state := some stone } (.cuboid ⟨1, 2, 1⟩)],
    .drawable { Attributes.fresh with state := some stone } (.cuboid ⟨3, 1, 1⟩),
    .branch .fresh (.switch [true, false]) [
      .drawable .fresh (.cuboid ⟨2, 2, 2⟩), .drawable .fresh (.cuboid ⟨3, 3, 3⟩)]]

theorem isWhole_of_mem_cottage :
    ∀ p ∈ cottage.partsFor .all, ∀ mesh, p.shape = .mesh mesh → mesh.IsWhole := by
  intro p hp mesh hmesh
  have hplaced (x : Matrix Float32) (half : Vec3 Float32) : ((Mesh.cuboid half).placed x).IsWhole :=
    Mesh.isWhole_placed_iff.2 (Mesh.isWhole_cuboid half)
  simp only [cottage, partsFor, Passes.all, if_true, group, flattenedParts, bakedPartsFrom,
    bakedParts, List.append_nil, List.cons_append, List.nil_append] at hp
  simp only [List.mem_cons, List.not_mem_nil, or_false] at hp
  rcases hp with rfl | rfl | rfl | rfl | rfl <;> cases hmesh <;> exact hplaced _ _

theorem fits_cottage : ∀ b ∈ cottage.optimizedBuckets ⟨none, false⟩ .all,
    vertexTotal (b.map Member.drawn) < UInt32.size := by
  decide +kernel

theorem cottage_sameContents :
    let rule : MergeRule Float32 := ⟨none, false⟩
    let result := cottage.optimized rule .all
    let change := cottage.optimizationChange rule .all
    SameContents (cottage.partsFor .all) (result.parts [] none) ∧
      (Passes.all.bakes = true → ∀ c ∈ result.children, c.IsBaked) ∧
      change.before = (cottage.parts [] none).length ∧
      change.after = (result.parts [] none).length ∧
      change.before = change.after + MergeRule.saved (cottage.optimizedBuckets rule .all) :=
  optimized_sameContents isWhole_of_mem_cottage fits_cottage

example : cottage.optimizationChange ⟨none, false⟩ .all = ⟨5, 3⟩ := by decide +kernel

end Node

end DistantChunks
