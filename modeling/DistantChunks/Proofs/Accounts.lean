import DistantChunks.Proofs.BuildSteps
import DistantChunks.Proofs.Collapse

/-!
# The accounts of a synthesis

A synthesis fills the placements of a chunk, the children of its root, its merge group and the
change in drawables from one run over the instances. All of them are read here off one list, the
instances that are kept with the copies made for them, so that they agree with each other whatever
is merged, left as it is or pruned. The list of templates does not depend on what is kept.
-/

namespace DistantChunks

namespace Node

variable {α : Type}

def leadsToParticles : Node α → Bool
  | .posed _ _ source => source.leadsToParticles
  | .particle _ _ => true
  | _ => false

/-- What is pruned does not depend on the distance nor on the kind of copy. -/
theorem staticCopy_eq_none_iff [Scalar α] {deep : Bool} {distance : α} {n : Node α} :
    n.staticCopy deep distance = none ↔ n.leadsToParticles = true := by
  induction n with
  | branch a b children ih => simp [staticCopy_branch, leadsToParticles]
  | drawable a mesh => simp [staticCopy, leadsToParticles]
  | posed a posing source ih => exact ih
  | particle a role => exact iff_of_true rfl rfl

theorem drawableCount_withAttributes (a : Attributes) (n : Node α) :
    (n.withAttributes a).drawableCount = n.drawableCount := by
  cases n <;> rfl

end Node

namespace Synthesis

open Node

/-- An instance with the copy made for it of the template of its list. -/
structure Kept where
  list : InstanceList
  reference : Reference
  copy : Node Float32

variable (config : PagingConfig) (v : ChunkView) (c : Collection)

def isMerged (l : InstanceList) : Bool := l.census.shouldMerge c.usage v.size config.mergeFactor

def copy? (l : InstanceList) (r : Reference) : Option (Node Float32) :=
  l.template.value.root.staticCopy (isMerged config v c l) (v.eye.distance r.position)

/-- The instances whose copies are not pruned, list by list. -/
def kept : List Kept :=
  c.lists.flatMap fun l => l.instances.filterMap fun r => (copy? config v c l r).map (Kept.mk l r)

namespace Kept

variable (k : Kept)

def isMerged : Bool := Synthesis.isMerged config v c k.list

def placement : Placement :=
  ⟨k.reference.number, k.list.template.value.path, k.isMerged config v c,
    k.reference.placement (worldCenter v.center config.cellSize)⟩

/-- A static transform by the matrix of the placement over the copy, which loses its user data. -/
def node : Node Float32 :=
  .branch { Attributes.fresh with variance := .static }
    (.transform (k.placement config v c).matrix)
    [k.copy.withAttributes { k.copy.attributes with userData := none }]

theorem drawableCount_node : (k.node config v c).drawableCount = k.copy.drawableCount :=
  drawableCount_withAttributes _ k.copy

theorem drawableCountAll_map_node (ks : List Kept) :
    drawableCountAll (ks.map (node config v c)) = drawableCountAll (ks.map (·.copy)) := by
  induction ks with
  | nil => rfl
  | cons k ks ih =>
    rw [List.map_cons, drawableCountAll, drawableCount_node, ih, List.map_cons, drawableCountAll]

end Kept

def IsNodeOf (p : Placement) (n : Node Float32) : Prop :=
  ∃ k ∈ kept config v c, k.placement config v c = p ∧ k.node config v c = n

/-- The accounts of a synthesis: what it holds for the instances that are kept, and what it holds
if some of them are merged. -/
structure Accounts (s : Synthesis) : Prop where
  pruned : ∀ l ∈ c.lists, ∀ r ∈ l.instances,
    copy? config v c l r = none ↔ l.template.value.root.leadsToParticles = true
  placements : s.chunk.placements = (kept config v c).map (Kept.placement config v c)
  children : ∃ unmerged, s.chunk.root.children = unmerged ++ s.mergeGroup.toList ∧
    (s.chunk.placements.filter (!·.merged)).Forall₂ (IsNodeOf config v c) unmerged
  mergeGroup : s.mergeGroup.isSome = s.chunk.placements.any (·.merged)
  isGroup : ∀ n ∈ s.mergeGroup, ∃ a parts, n = .branch a .group parts
  mergeChange : s.chunk.mergeChange.isSome = s.chunk.placements.any (·.merged)
  before : ∀ change ∈ s.chunk.mergeChange, change.before =
    drawableCountAll (((kept config v c).filter (Kept.isMerged config v c)).map (·.copy))
  bound : s.chunk.bound = s.chunk.root.bound
  templates : s.chunk.templates = c.lists.map (·.template)

theorem placeAll_eq_map_kept : placeAll config v c =
    (kept config v c).map fun k => ⟨k.placement config v c, k.node config v c⟩ := by
  rw [placeAll, kept, List.map_flatMap]
  refine List.flatMap_congr fun l _ => ?_
  rw [List.map_filterMap]
  refine List.filterMap_congr fun r _ => ?_
  rw [Option.map_map]
  rfl

theorem mergedNodes_eq_map_kept : mergedNodes config v c =
    ((kept config v c).filter (Kept.isMerged config v c)).map (Kept.node config v c) := by
  rw [mergedNodes, placeAll_eq_map_kept, List.filter_map, List.map_map]
  rfl

theorem drawableCount_mergedNodes : (Node.group (mergedNodes config v c)).drawableCount =
    drawableCountAll (((kept config v c).filter (Kept.isMerged config v c)).map (·.copy)) := by
  rw [Node.group, drawableCount, mergedNodes_eq_map_kept]
  exact Kept.drawableCountAll_map_node config v c _

theorem placements_eq_map_kept : (ofCollection config v c).chunk.placements =
    (kept config v c).map (Kept.placement config v c) := by
  rw [ofCollection, placeAll_eq_map_kept, List.map_map]
  rfl

theorem forall₂_unmerged :
    ((ofCollection config v c).chunk.placements.filter (!·.merged)).Forall₂ (IsNodeOf config v c)
      (((placeAll config v c).filter (!·.placement.merged)).map (·.node)) := by
  rw [placements_eq_map_kept, placeAll_eq_map_kept, List.filter_map, List.filter_map, List.map_map,
    List.forall₂_map_left_iff, List.forall₂_map_right_iff]
  exact List.forall₂_same.2 fun k hk => ⟨k, (List.mem_filter.1 hk).1, rfl, rfl⟩

theorem isSome_mergeGroup? (eye : Vec3 Float32) (nodes : List (Node Float32)) :
    (mergeGroup? eye nodes).isSome = !nodes.isEmpty := by
  unfold mergeGroup?
  cases nodes.isEmpty <;> rfl

theorem isEmpty_mergedNodes : (mergedNodes config v c).isEmpty =
    !(ofCollection config v c).chunk.placements.any (·.merged) := by
  rw [placements_eq_map_kept, mergedNodes_eq_map_kept, List.isEmpty_map, List.any_map,
    Bool.eq_iff_iff, List.isEmpty_iff, List.filter_eq_nil_iff, Bool.not_eq_true', List.any_eq_false]
  rfl

theorem of_mergeGroup?_mergedNodes {eye : Vec3 Float32} {group : Node Float32}
    {change : DrawableChange}
    (h : mergeGroup? eye (mergedNodes config v c) = some (group, change)) :
    (∃ a parts, group = .branch a .group parts) ∧
      change.before = (Node.group (mergedNodes config v c)).drawableCount := by
  have hne : mergedNodes config v c ≠ [] := by
    intro hnil
    rw [hnil] at h
    cases h
  obtain ⟨leaves, -, -, hgroup⟩ :=
    mergeGroup?_eq_leaves eye hne fun n hn => isBuilt_of_mem_mergedNodes hn
  rw [hgroup] at h
  cases h
  exact ⟨⟨_, leaves, rfl⟩, rfl⟩

theorem accounts : Accounts config v c (ofCollection config v c) := by
  let eye := v.eye - worldCenter v.center config.cellSize
  have hsome : (mergeGroup? eye (mergedNodes config v c)).isSome =
      (ofCollection config v c).chunk.placements.any (·.merged) := by
    rw [isSome_mergeGroup?, isEmpty_mergedNodes, Bool.not_not]
  refine {
    pruned := fun l _ r _ => staticCopy_eq_none_iff
    placements := placements_eq_map_kept config v c
    children := ⟨_, rfl, forall₂_unmerged config v c⟩
    mergeGroup := Option.isSome_map.trans hsome
    isGroup := fun n hn => ?_
    mergeChange := Option.isSome_map.trans hsome
    before := fun change hchange => ?_
    bound := rfl
    templates := rfl }
  · obtain ⟨⟨group, change⟩, h, rfl⟩ := Option.map_eq_some_iff.1 hn
    exact (of_mergeGroup?_mergedNodes config v c h).1
  · obtain ⟨⟨group, change⟩, h, rfl⟩ := Option.map_eq_some_iff.1 hchange
    rw [← drawableCount_mergedNodes]
    exact (of_mergeGroup?_mergedNodes config v c h).2

theorem pending_upload (s : Synthesis) (uploads : Bool) (cache : TemplateCache) :
    (s.upload v uploads cache).queue.pending =
      cache.queue.pending ++ if v.compile && uploads then s.mergeGroup.toList else [] := by
  unfold upload
  cases hgroup : s.mergeGroup <;> cases v.compile && uploads <;>
    simp [TemplateCache.enqueue, UploadQueue.enqueue]

/-- A synthesis accounts for every instance, and the queue receives its merge group, once, if the
view asks for it. A build puts into the queue what the synthesis of its groups does. -/
theorem ofCollection_accounts (config : PagingConfig) (v : ChunkView) (c : Collection) :
    Accounts config v c (ofCollection config v c) ∧
    (∀ uploads cache, ((ofCollection config v c).upload v uploads cache).queue.pending =
      cache.queue.pending ++
        if v.compile && uploads then (ofCollection config v c).mergeGroup.toList else []) ∧
    ∀ (s : Sources) (uploads : Bool) (cache : TemplateCache), s.config = config →
      (s.group v cache).1 = .ok c →
      (s.build v uploads cache).1.result = .ok (ofCollection config v c).chunk ∧
      (s.build v uploads cache).2 =
        (ofCollection config v c).upload v uploads (s.group v cache).2 := by
  refine ⟨accounts config v c, pending_upload v _, ?_⟩
  rintro s uploads cache rfl hok
  have hbuild := s.build_eq v uploads cache
  rcases hgroup : s.group v cache with ⟨result, grown⟩
  obtain rfl : result = .ok c := by rw [← hok, hgroup]
  rw [hgroup] at hbuild
  exact Prod.ext_iff.1 hbuild

end Synthesis

end DistantChunks
