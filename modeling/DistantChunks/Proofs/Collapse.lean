import DistantChunks.Proofs.SynthesisDrawing

/-!
# The merge group is a row of drawables

What is merged starts as deep copies, which are made of anonymous groups, static transforms and
drawables. Baking leaves the groups and the drawables, lifting the drawables alone, and these are
all siblings, so that one round of merging leaves one drawable for each state set that may be
merged. Whatever a template looks like, nothing else is left of it in the merge group of a chunk.
-/

namespace DistantChunks

variable {α : Type}

/-- A static node that is known by nothing but its state set and its mask. -/
structure Attributes.IsAnonymous (a : Attributes) : Prop where
  name : a.name = ""
  callbacks : a.callbacks = []
  userData : a.userData = none
  variance : a.variance = .static

theorem Attributes.isAnonymous_stripped (a : Attributes) : a.stripped.IsAnonymous :=
  ⟨rfl, rfl, rfl, rfl⟩

theorem Branching.isAnonymous_copiedAttributes (b : Branching α) (a : Attributes) :
    (b.copiedAttributes a).IsAnonymous := by
  unfold copiedAttributes
  split
  · exact a.isAnonymous_stripped
  · exact ⟨rfl, rfl, rfl, rfl⟩

theorem Branching.isPlacing_copied (b : Branching α) : b.copied.isPlacing = true := by
  cases b <;> rfl

namespace Node

def IsLeaf : Node α → Prop
  | .drawable a _ => a.IsAnonymous
  | _ => False

/-- A tree of anonymous nodes that end in drawables and branch in no other way than `P` allows. -/
inductive IsBuilt (P : Branching α → Prop) : Node α → Prop where
  | branch {a : Attributes} {b : Branching α} {children : List (Node α)} (ha : a.IsAnonymous)
      (hb : P b) (hchildren : ∀ c ∈ children, IsBuilt P c) : IsBuilt P (.branch a b children)
  | drawable {a : Attributes} {mesh : Mesh α} (ha : a.IsAnonymous) : IsBuilt P (.drawable a mesh)

theorem IsLeaf.isDrawable {n : Node α} (h : n.IsLeaf) : n.isDrawable = true := by
  cases n with
  | drawable => rfl
  | branch | posed | particle => exact h.elim

theorem IsLeaf.withStateIfNone {n : Node α} (h : n.IsLeaf) (s : StateSet) :
    (n.withStateIfNone s).IsLeaf := by
  cases n with
  | drawable a mesh =>
    unfold Node.withStateIfNone
    split
    · exact ⟨h.name, h.callbacks, h.userData, h.variance⟩
    · exact h
  | branch | posed | particle => exact h.elim

theorem drawableCountAll_leaves {ns : List (Node α)} (h : ∀ n ∈ ns, n.IsLeaf) :
    drawableCountAll ns = ns.length := by
  induction ns with
  | nil => rfl
  | cons n ns ih =>
    obtain ⟨hn, hns⟩ := List.forall_mem_cons.1 h
    have hone : n.drawableCount = 1 := by
      cases n with
      | drawable => rfl
      | branch | posed | particle => exact hn.elim
    rw [drawableCountAll, hone, ih hns, List.length_cons, Nat.add_comm]

theorem IsLeaf.ofNode? {n : Node α} (h : n.IsLeaf) :
    ∃ m : Member α, Member.ofNode? n = some m ∧ m.attributes.IsAnonymous := by
  cases n with
  | drawable a mesh =>
    have hfree : (a.callbacks.isEmpty && a.variance != .dynamic) = true := by
      rw [h.callbacks, h.variance]
      decide
    exact ⟨⟨a, mesh⟩, if_pos hfree, h⟩
  | branch | posed | particle => exact h.elim

section Lifting

theorem isLeaf_of_mem_handDown {a : Attributes} {children : List (Node α)}
    (h : ∀ c ∈ children, c.IsLeaf) : ∀ c ∈ (handDown a children).2, c.IsLeaf := by
  unfold handDown
  split
  · exact h
  · split
    · intro c hc
      obtain ⟨d, hd, rfl⟩ := List.mem_map.1 hc
      exact (h d hd).withStateIfNone _
    · exact h

/-- A group of leaves has nothing left to say once its state set is handed down. -/
theorem isPlain_handDown {a : Attributes} {children : List (Node α)} (ha : a.IsAnonymous)
    (h : ∀ c ∈ children, c.IsLeaf) (hne : children ≠ []) :
    (handDown a children).1.isPlain = true := by
  have hall : (!children.isEmpty && children.all isDrawable) = true := by
    simpa [hne] using fun c hc => (h c hc).isDrawable
  cases hs : a.state with
  | none => simp [handDown, hs, Attributes.isPlain, ha.callbacks, ha.userData, ha.variance]
  | some s =>
    simp only [handDown, hs, if_pos hall]
    simp [Attributes.isPlain, ha.callbacks, ha.userData, ha.variance]

theorem isLeaf_of_mem_settledGroup {a : Attributes} {children : List (Node α)}
    (ha : a.IsAnonymous) (h : ∀ c ∈ children, c.IsLeaf) :
    ∀ c ∈ settledGroup a children, c.IsLeaf := by
  have hleaves := isLeaf_of_mem_handDown (a := a) h
  rcases eq_or_ne children [] with rfl | hne
  · have hnone : (handDown a ([] : List (Node α))).2 = [] := by
      unfold handDown
      split <;> rfl
    intro c hc
    simp [settledGroup, hnone] at hc
  · have hplain := isPlain_handDown ha h hne
    intro c hc
    simp only [settledGroup, hplain, if_true] at hc
    split at hc
    · cases hc
    · exact hleaves c hc

/-- Groups dissolve from the bottom up, and only leaves remain. -/
theorem IsBuilt.isLeaf_of_mem_lift {n : Node α} (h : n.IsBuilt (· = .group)) :
    ∀ m ∈ lift n, m.IsLeaf := by
  induction h with
  | @branch a b children ha hb _ ih =>
    subst hb
    have hlifted : ∀ c ∈ liftAll children, c.IsLeaf := by
      intro c hc
      rw [liftAll_eq] at hc
      obtain ⟨d, hd, hc⟩ := List.mem_flatMap.1 hc
      exact ih d hd c hc
    intro m hm
    rw [lift] at hm
    exact isLeaf_of_mem_settledGroup ha hlifted m hm
  | @drawable a mesh ha =>
    intro m hm
    rw [lift, List.mem_singleton] at hm
    · rw [hm]
      exact ha
    all_goals simp

end Lifting

variable [Scalar α]

theorem IsBuilt.bake {n : Node α} (h : n.IsBuilt (·.isPlacing = true)) (acc : Matrix α) :
    (n.bake acc).IsBuilt (· = .group) := by
  induction h generalizing acc with
  | @branch a b children ha hb _ ih =>
    have hall (acc : Matrix α) : ∀ c ∈ bakeAll acc children, c.IsBuilt (· = .group) := by
      intro c hc
      rw [bakeAll_eq] at hc
      obtain ⟨d, hd, rfl⟩ := List.mem_map.1 hc
      exact ih d hd acc
    cases b with
    | group =>
      rw [Node.bake]
      · exact .branch ha rfl (hall acc)
      · simp
    | transform m =>
      rw [Node.bake, if_pos ha.variance]
      exact .branch ha rfl (hall _)
    | switch | detail => cases hb
  | drawable ha => exact .drawable ha

/-- A deep copy shares no node with its template, and none that changes. -/
theorem isBuilt_of_staticCopy {distance : α} {n c : Node α}
    (h : n.staticCopy true distance = some c) : c.IsBuilt (·.isPlacing = true) := by
  induction n generalizing c with
  | branch a b children ih =>
    rw [staticCopy_branch, Option.some.injEq] at h
    subst h
    refine .branch (b.isAnonymous_copiedAttributes a) b.isPlacing_copied ?_
    intro c hc
    obtain ⟨d, hd, hc⟩ := List.mem_filterMap.1 hc
    exact ih d (Branching.mem_of_mem_shown hd) hc
  | drawable a mesh =>
    simp only [staticCopy, if_true, Option.some.injEq] at h
    subst h
    exact .drawable a.isAnonymous_stripped
  | posed a posing source ih => exact ih h
  | particle a role => cases h

theorem isLeaf_of_mem_lifted {ns : List (Node α)}
    (h : ∀ n ∈ ns, n.IsBuilt (·.isPlacing = true)) :
    ∃ leaves : List (Node α), (group ns).baked.lifted = .branch .fresh .group leaves ∧
      ∀ n ∈ leaves, n.IsLeaf := by
  refine ⟨liftAll (bakeAll .identity ns), rfl, ?_⟩
  intro n hn
  rw [liftAll_eq, bakeAll_eq] at hn
  obtain ⟨c, hc, hn⟩ := List.mem_flatMap.1 hn
  obtain ⟨d, hd, rfl⟩ := List.mem_map.1 hc
  exact ((h d hd).bake .identity).isLeaf_of_mem_lift n hn

end Node

namespace MergeRule

variable [Scalar α] (rule : MergeRule α)

theorem isLeaf_join {first : Member α} (h : first.attributes.IsAnonymous)
    (rest : List (Member α)) : (rule.join first rest).IsLeaf :=
  ⟨rfl, h.callbacks, h.userData, rfl⟩

theorem state_join (first : Member α) (rest : List (Member α)) :
    (rule.join first rest).state = first.attributes.state := rfl

omit [Scalar α] in
theorem state_of_ofNode? {n : Node α} {m : Member α} (h : Member.ofNode? n = some m) :
    n.state = m.attributes.state := by
  rw [Member.eq_toNode_of_ofNode? h]
  rfl

/-- Leaves that take the place of some siblings: they have no new state set, and no two of them have
one that the rule permits to merge. -/
structure Collapses (ns leaves : List (Node α)) : Prop where
  isLeaf : ∀ n ∈ leaves, n.IsLeaf
  state : ∀ n ∈ leaves, ∃ m ∈ ns, m.state = n.state
  apart : leaves.Pairwise fun m n => m.state = n.state → rule.permits m.state = false

variable {rule}

omit [Scalar α] in
theorem Collapses.cons {n leaf : Node α} {ns rest leaves : List (Node α)}
    (h : rule.Collapses rest leaves) (hrest : ∀ m ∈ rest, m ∈ ns) (hleaf : leaf.IsLeaf)
    (hstate : n.state = leaf.state)
    (hapart : ∀ m ∈ rest, leaf.state = m.state → rule.permits leaf.state = false) :
    rule.Collapses (n :: ns) (leaf :: leaves) where
  isLeaf := List.forall_mem_cons.2 ⟨hleaf, h.isLeaf⟩
  state := by
    refine List.forall_mem_cons.2 ⟨⟨n, List.mem_cons_self, hstate⟩, fun m hm => ?_⟩
    obtain ⟨r, hr, hsame⟩ := h.state m hm
    exact ⟨r, List.mem_cons_of_mem n (hrest r hr), hsame⟩
  apart := by
    refine List.pairwise_cons.2 ⟨fun m hm hsame => ?_, h.apart⟩
    obtain ⟨r, hr, hstate⟩ := h.state m hm
    exact hapart r hr (hsame.trans hstate.symm)

variable (rule)

theorem mergeSiblings_leaves {ns : List (Node α)} (h : ∀ n ∈ ns, n.IsLeaf) :
    rule.Collapses ns (rule.mergeSiblings ns) := by
  fun_induction mergeSiblings rule ns with
  | case1 => exact ⟨by simp, by simp, .nil⟩
  | case2 n rest hn ih =>
    obtain ⟨m, hm, -⟩ := (h n List.mem_cons_self).ofNode?
    rw [hn] at hm
    cases hm
  | case3 n rest first hn state hc ih =>
    obtain ⟨hleaf, hrest⟩ := List.forall_mem_cons.1 h
    refine (ih hrest).cons (fun m hm => hm) hleaf rfl fun m hm hsame => ?_
    -- A leaf with the same state set would be a companion.
    obtain ⟨member, hmember, -⟩ := (hrest m hm).ofNode?
    have hstate : member.attributes.state = state := by
      rw [← state_of_ofNode? hmember, ← hsame, state_of_ofNode? hn]
    have hin : member ∈ Member.companions state rest :=
      List.mem_filterMap.2 ⟨m, hm, by simp [hmember, hstate]⟩
    rw [hc] at hin
    cases hin
  | case4 n rest first hn state c cs hc hpermits ih =>
    obtain ⟨hleaf, hrest⟩ := List.forall_mem_cons.1 h
    obtain ⟨member, hmember, hanonymous⟩ := hleaf.ofNode?
    obtain rfl : first = member := by rw [hn] at hmember; exact Option.some.inj hmember
    have hothers : ∀ m ∈ Member.others state rest, m ∈ rest := fun m hm =>
      (List.mem_filter.1 hm).1
    refine (ih fun m hm => hrest m (hothers m hm)).cons hothers (rule.isLeaf_join hanonymous _)
      (state_of_ofNode? hn) fun m hm hsame => ?_
    obtain ⟨hm, hnot⟩ := List.mem_filter.1 hm
    obtain ⟨other, hother, -⟩ := (hrest m hm).ofNode?
    have hstate : other.attributes.state = state := by
      rw [← state_of_ofNode? hother, ← hsame, state_join]
    simp [Member.isCompanion, hother, hstate] at hnot
  | case5 n rest first hn state c cs hc hpermits ih =>
    obtain ⟨hleaf, hrest⟩ := List.forall_mem_cons.1 h
    refine (ih hrest).cons (fun m hm => hm) hleaf rfl fun m _ _ => ?_
    rw [state_of_ofNode? hn]
    simpa using hpermits

end MergeRule

namespace Synthesis

open Node

variable {config : PagingConfig} {v : ChunkView} {c : Collection}

/-- The instances of a chunk that are merged, as they are before they are optimized. -/
def mergedNodes (config : PagingConfig) (v : ChunkView) (c : Collection) : List (Node Float32) :=
  ((placeAll config v c).filter (·.placement.merged)).map (·.node)

theorem isBuilt_withoutUserData {n : Node Float32} (h : n.IsBuilt (·.isPlacing = true)) :
    (withoutUserData n).IsBuilt (·.isPlacing = true) := by
  cases h with
  | branch ha hb hchildren => exact .branch ⟨ha.name, ha.callbacks, rfl, ha.variance⟩ hb hchildren
  | drawable ha => exact .drawable ⟨ha.name, ha.callbacks, rfl, ha.variance⟩

theorem isBuilt_of_place? {middle eye : Vec3 Float32} {merged : Bool} {template : Template}
    {r : Reference} {p : Placed} (h : place? middle eye merged template r = some p)
    (hmerged : p.placement.merged = true) : p.node.IsBuilt (·.isPlacing = true) := by
  obtain ⟨copy, hcopy, rfl⟩ := Option.map_eq_some_iff.1 h
  obtain rfl : merged = true := hmerged
  have hbuilt := isBuilt_withoutUserData (isBuilt_of_staticCopy hcopy)
  refine .branch ⟨rfl, rfl, rfl, rfl⟩ rfl ?_
  intro d hd
  rw [List.mem_singleton.1 hd]
  exact hbuilt

theorem isBuilt_of_mem_mergedNodes {n : Node Float32} (hn : n ∈ mergedNodes config v c) :
    n.IsBuilt (·.isPlacing = true) := by
  obtain ⟨p, hp, rfl⟩ := List.mem_map.1 hn
  obtain ⟨hp, hmerged⟩ := List.mem_filter.1 hp
  obtain ⟨l, -, merged, r, hr⟩ := exists_place?_of_mem_placeAll hp
  exact isBuilt_of_place? hr hmerged

theorem permits_mergeRule (eye : Vec3 Float32) (group : Node Float32)
    (state : Option StateSet) : (mergeRule eye group).permits state =
      (!state.any (·.transparent) ||
        decide (group.bound.radiusSquared < (eye - group.bound.center).lengthSquared)) := by
  simp only [mergeRule]
  by_cases hfar :
      group.bound.radiusSquared < (eye - group.bound.center).lengthSquared
  · cases state <;> simp [hfar, MergeRule.permits]
  · cases state <;> simp [hfar, MergeRule.permits]

theorem mergeGroup?_eq_leaves (eye : Vec3 Float32) {nodes : List (Node Float32)}
    (hne : nodes ≠ []) (hbuilt : ∀ n ∈ nodes, n.IsBuilt (·.isPlacing = true)) :
    ∃ leaves : List (Node Float32), (∀ n ∈ leaves, n.IsLeaf) ∧
      leaves.Pairwise (fun m n =>
        m.state = n.state → (mergeRule eye (.group nodes)).permits m.state = false) ∧
      mergeGroup? eye nodes = some (.branch .fresh .group leaves,
        ⟨(Node.group nodes).drawableCount, leaves.length⟩) := by
  obtain ⟨parts, hlifted, hparts⟩ := isLeaf_of_mem_lifted hbuilt
  let rule := mergeRule eye (.group nodes)
  have hsame : MergeRule.mergeAll rule parts = parts := by
    rw [MergeRule.mergeAll_eq]
    refine (List.map_congr_left fun n hn => ?_).trans (List.map_id parts)
    cases n with
    | drawable => rfl
    | branch | posed | particle => exact (hparts _ hn).elim
  have hmerged : (Node.group nodes).optimized rule .all =
      .branch .fresh .group (rule.mergeSiblings parts) := by
    simp [optimized, Passes.all, hlifted, MergeRule.merge, Branching.isPlacing, hsame]
  have hcollapses := rule.mergeSiblings_leaves hparts
  refine ⟨rule.mergeSiblings parts, hcollapses.isLeaf, hcollapses.apart, ?_⟩
  have hcount : ((Node.group nodes).optimized rule .all).drawableCount =
      (rule.mergeSiblings parts).length := by
    rw [hmerged, drawableCount, drawableCountAll_leaves hcollapses.isLeaf]
  simp only [mergeGroup?, List.isEmpty_eq_false_iff.2 hne, Bool.false_eq_true, if_false]
  rw [hcount, hmerged]

/-- Siblings that cannot be merged any further, with `far` for an eye outside their bound: plain
drawables that are known by nothing, of which two share a state set only if it is transparent, and
then only if the eye is not far. -/
structure IsCollapsed (far : Prop) (siblings : List (Node Float32)) : Prop where
  plain : ∀ n ∈ siblings, ∃ (a : Attributes) (mesh : Mesh Float32), n = .drawable a mesh ∧
    a.name = "" ∧ a.callbacks = [] ∧ a.userData = none
  shared : siblings.Pairwise fun m n =>
    m.state = n.state → m.state.any (·.transparent) = true
  apart : far → siblings.Pairwise fun m n => m.state ≠ n.state

theorem isCollapsed_of_leaves {eye : Vec3 Float32} {group : Node Float32}
    {leaves : List (Node Float32)} (hleaves : ∀ n ∈ leaves, n.IsLeaf)
    (hpairs : leaves.Pairwise fun m n =>
      m.state = n.state → (mergeRule eye group).permits m.state = false) :
    IsCollapsed (group.bound.radiusSquared < (eye - group.bound.center).lengthSquared) leaves := by
  have hforbidden : leaves.Pairwise fun m n => m.state = n.state →
      m.state.any (·.transparent) = true ∧
        ¬ group.bound.radiusSquared < (eye - group.bound.center).lengthSquared := by
    refine hpairs.imp fun {m n} hkept hsame => ?_
    have hpermits := hkept hsame
    rw [permits_mergeRule, Bool.or_eq_false_iff] at hpermits
    exact ⟨by simpa using hpermits.1, of_decide_eq_false hpermits.2⟩
  refine ⟨?_, ?_, ?_⟩
  · intro n hn
    have hleaf := hleaves n hn
    cases n with
    | drawable a mesh => exact ⟨a, mesh, rfl, hleaf.name, hleaf.callbacks, hleaf.userData⟩
    | branch | posed | particle => exact hleaf.elim
  · exact hforbidden.imp fun h hsame => (h hsame).1
  · intro hfar
    exact hforbidden.imp fun h hsame => (h hsame).2 hfar

/-- A chunk with a merged placement ends in a collapsed group, and its change in drawables counts
what is left in that group. The eye is far if it is outside the bound that the group had before it
was optimized. -/
theorem ofCollection_collapses
    (h : ∃ p ∈ (ofCollection config v c).chunk.placements, p.merged = true) :
    let chunk := (ofCollection config v c).chunk
    let eye := v.eye - worldCenter v.center config.cellSize
    let bound := (Node.group (mergedNodes config v c)).bound
    ∃ (a : Attributes) (leaves : List (Node Float32)),
      chunk.root.children.getLast? = some (.branch a .group leaves) ∧
      IsCollapsed (bound.radiusSquared < (eye - bound.center).lengthSquared) leaves ∧
      chunk.mergeChange.map (·.after) = some leaves.length := by
  intro chunk eye bound
  obtain ⟨p, hp, hmerged⟩ := h
  obtain ⟨q, hq, rfl⟩ := List.mem_map.1 hp
  have hne : mergedNodes config v c ≠ [] :=
    List.ne_nil_of_mem (List.mem_map_of_mem (List.mem_filter.2 ⟨hq, hmerged⟩))
  obtain ⟨leaves, hleaves, hpairs, hgroup⟩ :=
    mergeGroup?_eq_leaves eye hne fun n hn => isBuilt_of_mem_mergedNodes hn
  have hroot : chunk.root.children =
      ((placeAll config v c).filter (!·.placement.merged)).map (·.node) ++
        ((mergeGroup? eye (mergedNodes config v c)).map (·.1)).toList := rfl
  have hchange : chunk.mergeChange = (mergeGroup? eye (mergedNodes config v c)).map (·.2) := rfl
  refine ⟨.fresh, leaves, ?_, isCollapsed_of_leaves hleaves hpairs, ?_⟩
  · rw [hroot, hgroup]
    simp
  · rw [hchange, hgroup]
    rfl

def iron : StateSet := ⟨0, "iron", false⟩

def glass : StateSet := ⟨1, "glass", true⟩

/-- An iron frame with a glass pane that swings, and a flame of which one of two shapes is shown. -/
def lantern : Shared Template :=
  ⟨0, .new "meshes/lantern.nif" <| .branch { Attributes.fresh with state := some iron } .group [
    .drawable { Attributes.fresh with name := "frame" } (.cuboid ⟨1, 1, 2⟩),
    .posed { Attributes.fresh with callbacks := ["swing"] } .rig
      (.drawable { Attributes.fresh with state := some glass } (.cuboid ⟨1, 1, 1⟩)),
    .branch .fresh (.switch [true, false]) [
      .drawable .fresh (.cuboid ⟨2, 2, 2⟩), .drawable .fresh (.cuboid ⟨3, 3, 3⟩)],
    .particle .fresh .system]⟩

def lanterns : Collection :=
  let (census, usage) := Census.take lantern.value.root .empty
  let place (index : UInt32) (x : Float32) : Reference :=
    .new ⟨0, index⟩ .static "lantern" ⟨x, 0, 0⟩
  ⟨[⟨lantern.value.path, lantern, census, [place 1 100, place 2 200]⟩], usage⟩

theorem exists_merged_lantern :
    let config : PagingConfig := { PagingConfig.standard with mergeFactor := 1000000 }
    let v : ChunkView := ⟨2, ⟨0, 0⟩, ⟨0, 0, 0⟩, false⟩
    ∃ p ∈ (ofCollection config v lanterns).chunk.placements, p.merged = true := by
  intro config v
  have hmerges : (Census.take lantern.value.root .empty).1.shouldMerge
      (Census.take lantern.value.root .empty).2 v.size config.mergeFactor = true := by
    decide
  exact ⟨_, List.mem_cons_self, hmerges⟩

theorem lanterns_collapse :
    let config : PagingConfig := { PagingConfig.standard with mergeFactor := 1000000 }
    let v : ChunkView := ⟨2, ⟨0, 0⟩, ⟨0, 0, 0⟩, false⟩
    let chunk := (ofCollection config v lanterns).chunk
    let eye := v.eye - worldCenter v.center config.cellSize
    let bound := (Node.group (mergedNodes config v lanterns)).bound
    (∃ p ∈ chunk.placements, p.merged = true) ∧
      ∃ (a : Attributes) (leaves : List (Node Float32)),
        chunk.root.children.getLast? = some (.branch a .group leaves) ∧
        IsCollapsed (bound.radiusSquared < (eye - bound.center).lengthSquared) leaves ∧
        chunk.mergeChange.map (·.after) = some leaves.length :=
  ⟨exists_merged_lantern, ofCollection_collapses exists_merged_lantern⟩

end Synthesis

end DistantChunks
