import DistantChunks.Chunk.Synthesis
import DistantChunks.Proofs.MergeDrawing
import DistantChunks.Proofs.StaticDrawing

/-!
# Merging does not show in a chunk

The merge factor decides which instances are copied deeply, baked, lifted and merged, and which are
placed as shallow copies. Either way a chunk has the same triangles with the same state sets, as
long as the templates are whole and the vertices to merge can be numbered with 32 bits.
-/

namespace DistantChunks

/-- A placement apart from whether the instance was merged. -/
def Placement.unmerged (p : Placement) : Placement := { p with merged := false }

namespace Placed

def drawn (p : Placed) : List (Drawn Float32) := p.node.drawn .identity none

def faces (p : Placed) : List (Option StateSet × Triangle Float32) := p.drawn.flatMap Drawn.faces

end Placed

theorem isIdentity_identity : (Matrix.identity : Matrix Float32).isIdentity = true := by
  decide

namespace Node

variable {α : Type}

theorem meshes_withAttributes (a : Attributes) (n : Node α) :
    (n.withAttributes a).meshes = n.meshes := by
  cases n <;> simp [withAttributes, meshes]

theorem IsBakeable.withAttributes {n : Node α} (h : n.IsBakeable) {a : Attributes}
    (ha : a.variance = n.attributes.variance) : (n.withAttributes a).IsBakeable := by
  cases n with
  | branch b branching children =>
    cases branching with
    | transform m => exact ⟨ha.trans h.1, h.2⟩
    | group | switch | detail => exact h
  | drawable | posed | particle => exact h

end Node

namespace Synthesis

open Node

theorem drawn_staticTransform (m : Matrix Float32) (n : Node Float32) (x : Matrix Float32)
    (s : Option StateSet) :
    (staticTransform m (withoutUserData n)).drawn x s = n.drawn (x * m) s := by
  rw [staticTransform, drawn_branch, List.flatMap_singleton]
  exact drawn_withAttributes _ _ rfl

section Place

variable {middle eye : Vec3 Float32} {merged : Bool} {template : Template} {r : Reference}

theorem map_drawn_place? :
    (place? middle eye merged template r).map Placed.drawn =
      (place? middle eye false template r).map Placed.drawn := by
  simp only [place?, Option.map_map, Function.comp_def, Placed.drawn, drawn_staticTransform]
  exact drawn_staticCopy merged _ _ _ _

theorem map_placement_place? :
    (place? middle eye merged template r).map (·.placement.unmerged) =
      (place? middle eye false template r).map (·.placement.unmerged) := by
  have h := congrArg (Option.map fun _ => ())
    (drawn_staticCopy merged (eye.distance r.position) template.root .identity none)
  simp only [place?, Option.map_map, Function.comp_def, Placement.unmerged] at h ⊢
  cases hm : template.root.staticCopy merged (eye.distance r.position) <;>
    cases hf : template.root.staticCopy false (eye.distance r.position) <;> simp_all

theorem isBakeable_of_place? {p : Placed} (h : place? middle eye merged template r = some p) :
    p.node.IsBakeable := by
  obtain ⟨copy, hcopy, rfl⟩ := Option.map_eq_some_iff.1 h
  exact ⟨rfl, (isBakeable_of_staticCopy hcopy).withAttributes rfl, trivial⟩

theorem meshes_subset_of_place? {p : Placed} (h : place? middle eye merged template r = some p) :
    p.node.meshes ⊆ template.root.meshes := by
  obtain ⟨copy, hcopy, rfl⟩ := Option.map_eq_some_iff.1 h
  intro mesh hmesh
  simp only [staticTransform, meshes, meshesAll_eq, List.flatMap_singleton, withoutUserData,
    meshes_withAttributes] at hmesh
  exact meshes_subset_of_staticCopy hcopy hmesh

end Place

section Chunk

variable {config : PagingConfig} {v : ChunkView} {c : Collection}

theorem exists_place?_of_mem_placeAll {p : Placed} (h : p ∈ placeAll config v c) :
    ∃ l ∈ c.lists, ∃ merged r, place? (worldCenter v.center config.cellSize) v.eye merged
      l.template.value r = some p := by
  obtain ⟨l, hl, hp⟩ := List.mem_flatMap.1 h
  obtain ⟨r, -, hr⟩ := List.mem_filterMap.1 hp
  exact ⟨l, hl, _, r, hr⟩

/-- What does not depend on whether an instance is merged does not depend on the merge factor. -/
theorem map_placeAll {β : Type} {f : Placed → β}
    (hf : ∀ middle eye merged template r, (place? middle eye merged template r).map f =
      (place? middle eye false template r).map f) (config : PagingConfig) (v : ChunkView)
    (c : Collection) (factor factor' : Float32) :
    (placeAll { config with mergeFactor := factor } v c).map f =
      (placeAll { config with mergeFactor := factor' } v c).map f := by
  have hl (middle eye : Vec3 Float32) (merged : Bool) (template : Template)
      (rs : List Reference) : (rs.filterMap (place? middle eye merged template)).map f =
        rs.filterMap fun r => (place? middle eye false template r).map f := by
    rw [List.map_filterMap]
    exact List.filterMap_congr fun r _ => hf middle eye merged template r
  simp only [placeAll, List.map_flatMap, hl]

def mergedDrawn (config : PagingConfig) (v : ChunkView) (c : Collection) : List (Drawn Float32) :=
  ((placeAll config v c).filter (·.placement.merged)).flatMap Placed.drawn

/-- The templates have whole triangles, and the vertices to merge can be numbered. -/
structure IsMergeable (config : PagingConfig) (v : ChunkView) (c : Collection) : Prop where
  whole : ∀ l ∈ c.lists, ∀ mesh ∈ l.template.value.root.meshes, mesh.IsWhole
  fits : vertexTotal (mergedDrawn config v c) < UInt32.size

theorem IsMergeable.joinable (h : IsMergeable config v c) : Joinable (mergedDrawn config v c) where
  whole d hd := by
    obtain ⟨p, hp, hd⟩ := List.mem_flatMap.1 hd
    obtain ⟨l, hl, merged, r, hr⟩ := exists_place?_of_mem_placeAll (List.mem_filter.1 hp).1
    exact of_mem_drawn (fun _ _ => Mesh.isWhole_placed_iff.2)
      (fun mesh hm => h.whole l hl mesh (meshes_subset_of_place? hr hm)) hd
  fits := h.fits

/-- An optimized merge group shows the triangles of its nodes. -/
theorem redrawn_mergeGroup? (eye : Vec3 Float32) {nodes : List (Node Float32)}
    (hbakeable : ∀ n ∈ nodes, n.IsBakeable)
    (hd : Joinable (nodes.flatMap (drawn .identity none))) :
    Redrawn (nodes.flatMap (drawn .identity none))
      (((mergeGroup? eye nodes).map (·.1)).toList.flatMap (drawn .identity none)) := by
  unfold mergeGroup?
  split
  · rename_i hempty
    rw [List.isEmpty_iff.1 hempty]
    exact Redrawn.refl ⟨by simp, by simp⟩
  · have hsame : ((Node.group nodes).baked.lifted).drawn .identity none =
        nodes.flatMap (drawn .identity none) := by
      rw [drawn_lifted, drawn_baked isIdentity_identity hbakeable, Node.group, drawn_branch]
      rfl
    have hmerged := (mergeRule eye (.group nodes)).redrawn_merge (hsame ▸ hd)
    rw [hsame] at hmerged
    simpa [optimized, Passes.all] using hmerged

/-- A chunk draws its instances, each in its place. -/
theorem drawing_ofCollection (h : IsMergeable config v c) :
    (ofCollection config v c).chunk.root.drawing =
      ↑((placeAll config v c).flatMap Placed.faces) := by
  have hbakeable : ∀ n ∈ ((placeAll config v c).filter (·.placement.merged)).map (·.node),
      n.IsBakeable := by
    intro n hn
    obtain ⟨p, hp, rfl⟩ := List.mem_map.1 hn
    obtain ⟨l, -, merged, r, hr⟩ := exists_place?_of_mem_placeAll (List.mem_filter.1 hp).1
    exact isBakeable_of_place? hr
  have hgroup := redrawn_mergeGroup? (v.eye - worldCenter v.center config.cellSize)
    hbakeable (by rw [List.flatMap_map]; exact h.joinable)
  have hroot : (ofCollection config v c).chunk.root.drawn .identity none =
      ((placeAll config v c).filter (!·.placement.merged)).flatMap Placed.drawn ++
        ((mergeGroup? (v.eye - worldCenter v.center config.cellSize)
          (((placeAll config v c).filter (·.placement.merged)).map (·.node))).map
            (·.1)).toList.flatMap (drawn .identity none) := by
    simp only [ofCollection, drawn_branch, List.flatMap_append, List.flatMap_map]
    rfl
  rw [drawing, hroot, Multiset.coe_eq_coe, List.flatMap_append]
  refine (hgroup.faces.append_left _).trans ?_
  have hparts := (List.perm_append_comm.trans (List.filter_append_perm
    (·.placement.merged) (placeAll config v c))).flatMap_right Placed.faces
  rw [List.flatMap_map, List.flatMap_assoc, List.flatMap_assoc]
  rwa [List.flatMap_append] at hparts

/-- Chunks of one collection with different merge factors draw the same, and place the same
instances at the same places. -/
theorem drawing_ofCollection_mergeFactor {factor factor' : Float32}
    (h : IsMergeable { config with mergeFactor := factor } v c)
    (h' : IsMergeable { config with mergeFactor := factor' } v c) :
    (ofCollection { config with mergeFactor := factor } v c).chunk.root.drawing =
        (ofCollection { config with mergeFactor := factor' } v c).chunk.root.drawing ∧
      (ofCollection { config with mergeFactor := factor } v c).chunk.placements.map
          Placement.unmerged =
        (ofCollection { config with mergeFactor := factor' } v c).chunk.placements.map
          Placement.unmerged := by
  constructor
  · have hdrawn := map_placeAll (fun _ _ _ _ _ => map_drawn_place?) config v c factor factor'
    have hfaces (ps : List Placed) :
        ps.flatMap Placed.faces = (ps.map Placed.drawn).flatMap (·.flatMap Drawn.faces) := by
      rw [List.flatMap_map]
      rfl
    rw [drawing_ofCollection h, drawing_ofCollection h', hfaces, hfaces, hdrawn]
  · simp only [ofCollection, List.map_map]
    exact map_placeAll (fun _ _ _ _ _ => map_placement_place?) config v c factor factor'

def crate : Shared Template :=
  ⟨0, .new "meshes/crate.nif" (.drawable .fresh (.cuboid ⟨1, 1, 1⟩))⟩

def crates : Collection :=
  let (census, usage) := Census.take crate.value.root .empty
  let place (index : UInt32) (x : Float32) : Reference := .new ⟨0, index⟩ .static "crate" ⟨x, 0, 0⟩
  ⟨[⟨crate.value.path, crate, census, [place 1 100, place 2 200]⟩], usage⟩

theorem isMergeable_crates (config : PagingConfig) (v : ChunkView) :
    IsMergeable config v crates where
  whole l hl mesh hm := by
    rw [List.mem_singleton.1 hl] at hm
    rw [List.mem_singleton.1 hm]
    exact Mesh.isWhole_cuboid _
  fits := by
    simp only [mergedDrawn, placeAll, crates, List.flatMap_singleton]
    generalize Census.shouldMerge _ _ _ _ = merged
    cases merged
    · simp [place?, crate, Template.new, staticCopy]
    · simp [place?, crate, Template.new, staticCopy, List.flatMap_cons, Placed.drawn,
        drawn_staticTransform, Node.drawn, Mesh.vertexCount_cuboid, UInt32.size]

theorem drawing_crates_mergeFactor :
    let config : PagingConfig := { PagingConfig.standard with mergeFactor := 0 }
    let merging : PagingConfig := { PagingConfig.standard with mergeFactor := 1000000 }
    let v : ChunkView := ⟨2, ⟨0, 0⟩, ⟨0, 0, 0⟩, false⟩
    IsMergeable config v crates ∧ IsMergeable merging v crates ∧
      (ofCollection config v crates).chunk.root.drawing =
        (ofCollection merging v crates).chunk.root.drawing ∧
      (ofCollection config v crates).chunk.placements.map Placement.unmerged =
        (ofCollection merging v crates).chunk.placements.map Placement.unmerged :=
  ⟨isMergeable_crates _ _, isMergeable_crates _ _,
    drawing_ofCollection_mergeFactor (isMergeable_crates _ _) (isMergeable_crates _ _)⟩

end Chunk

end Synthesis

end DistantChunks
