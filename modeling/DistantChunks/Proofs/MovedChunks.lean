import DistantChunks.Proofs.MovedAxes

/-!
# Moved chunks

The geometry of a chunk is relative to its middle. A build in a moved world scans, groups and places
the moved references; it sees them from the same distances and puts them at the same places. So its
chunk shows the same, up to the signs of zeros: `Sources.outline_build_movedBy`. This takes that no
number is rounded on the way, and far from the origin the ends of a chunk may well be.
-/

namespace DistantChunks

open Unsigned (ofSingle isChange_ofSingle)

/-- What a chunk shows, without the signs of zeros. -/
structure Outline where
  root : Node Unsigned
  bound : Sphere Unsigned
  placements : List (RefNum × String × Bool × Matrix Unsigned)
  mergeChange : Option DrawableChange

def Placement.outline (p : Placement) : RefNum × String × Bool × Matrix Unsigned :=
  (p.number, p.template, p.merged, p.matrix.image ofSingle)

def Chunk.outline (c : Chunk) : Outline :=
  ⟨c.root.image ofSingle, c.bound.image ofSingle, c.placements.map Placement.outline,
    c.mergeChange⟩

def PagingConfig.shift (config : PagingConfig) (m n : Int32) : Shift := ⟨m, n, config.cellSize⟩

theorem Matrix.image_ofPlacement_congr {t t' : Vec3 Float32}
    (h : t.image ofSingle = t'.image ofSingle) (scale : Float32) (q : Quaternion Float32) :
    (ofPlacement scale q t).image ofSingle = (ofPlacement scale q t').image ofSingle := by
  simp only [Vec3.image, Vec3.mk.injEq] at h
  simp only [ofPlacement, image, Vec4.image, h]

namespace ChunkView

def xAxis (v : ChunkView) (config : PagingConfig) : Axis :=
  ⟨v.size, config.cellSize, v.center.x, v.eye.x⟩

def yAxis (v : ChunkView) (config : PagingConfig) : Axis :=
  ⟨v.size, config.cellSize, v.center.y, v.eye.y⟩

structure IsExactSquare (v : ChunkView) (config : PagingConfig) : Prop where
  x : (v.xAxis config).IsExactSquare
  y : (v.yAxis config).IsExactSquare

/-- Nothing is rounded when a view and some references are moved by numbers of cells, nor when a
build measures them before and after it. -/
structure IsExactMove (v : ChunkView) (config : PagingConfig) (m n : Int32)
    (refs : List Reference) : Prop where
  x : (v.xAxis config).IsExactMove m
  y : (v.yAxis config).IsExactMove n
  positionX : ∀ r ∈ refs, (v.xAxis config).IsExactMoveAt m r.position.x
  positionY : ∀ r ∈ refs, (v.yAxis config).IsExactMoveAt n r.position.y

instance (v : ChunkView) (config : PagingConfig) : Decidable (v.IsExactSquare config) :=
  decidable_of_iff (_ ∧ _) ⟨fun ⟨h, h'⟩ => ⟨h, h'⟩, fun h => ⟨h.x, h.y⟩⟩

instance (v : ChunkView) (config : PagingConfig) (m n : Int32) (refs : List Reference) :
    Decidable (v.IsExactMove config m n refs) :=
  decidable_of_iff (_ ∧ _ ∧ _ ∧ _)
    ⟨fun ⟨hx, hy, h, h'⟩ => ⟨hx, hy, h, h'⟩, fun h => ⟨h.x, h.y, h.positionX, h.positionY⟩⟩

variable {v : ChunkView} {config : PagingConfig} {m n : Int32} {refs : List Reference}
  {r : Reference}

namespace IsExactMove

theorem image_eye (h : v.IsExactMove config m n refs) :
    ((v.movedBy (config.shift m n)).eye -
        worldCenter (v.movedBy (config.shift m n)).center config.cellSize).image ofSingle =
      (v.eye - worldCenter v.center config.cellSize).image ofSingle :=
  Unsigned.image_eq_of_unsigned h.x.unsigned_eye h.y.unsigned_eye
    (Single.unsigned_sub_congr (Single.unsigned_add_zero v.eye.z) rfl)

theorem image_placement (h : v.IsExactMove config m n refs) (hr : r ∈ refs) :
    ((r.movedBy (config.shift m n)).placement
        (worldCenter (v.movedBy (config.shift m n)).center config.cellSize)).image ofSingle =
      (r.placement (worldCenter v.center config.cellSize)).image ofSingle := by
  have hplace : ((r.movedBy (config.shift m n)).position -
      worldCenter (v.movedBy (config.shift m n)).center config.cellSize).image ofSingle =
        (r.position - worldCenter v.center config.cellSize).image ofSingle :=
    Unsigned.image_eq_of_unsigned (h.x.unsigned_place (h.positionX r hr))
      (h.y.unsigned_place (h.positionY r hr))
      (Single.unsigned_sub_congr (Single.unsigned_add_zero r.position.z) rfl)
  have hscale : (r.movedBy (config.shift m n)).scale = r.scale := rfl
  have hrotation : (r.movedBy (config.shift m n)).rotation = r.rotation := rfl
  rw [Reference.placement, Reference.placement, hscale, Reference.rotationQuaternion,
    Reference.rotationQuaternion, hrotation]
  exact Matrix.image_ofPlacement_congr hplace _ _

theorem distance_eq (h : v.IsExactMove config m n refs) (hr : r ∈ refs) :
    (v.movedBy (config.shift m n)).eye.distance
        (r.movedBy (config.shift m n)).position = v.eye.distance r.position :=
  Unsigned.length_eq_of_image_eq <|
    Unsigned.image_eq_of_unsigned (h.x.unsigned_sight (h.positionX r hr))
      (h.y.unsigned_sight (h.positionY r hr))
      (Single.unsigned_sub_congr (Single.unsigned_add_zero v.eye.z)
        (Single.unsigned_add_zero r.position.z))

theorem isTooSmall_eq (h : v.IsExactMove config m n refs) (hr : r ∈ refs) (radius : Float32) :
    (v.movedBy (config.shift m n)).isTooSmall config radius
        (r.movedBy (config.shift m n)) = v.isTooSmall config radius r := by
  have hscale : (r.movedBy (config.shift m n)).scale = r.scale := rfl
  rw [isTooSmall, isTooSmall, h.distance_eq hr, hscale]

theorem admits_eq (h : v.IsExactMove config m n refs) (hr : r ∈ refs)
    (hsquare : v.IsExactSquare config)
    (hsquare' : (v.movedBy (config.shift m n)).IsExactSquare config) :
    (v.movedBy (config.shift m n)).admits config (r.movedBy (config.shift m n)) =
      v.admits config r := by
  have hholds (hsmall : v.size < 1) :
      Coverage.holds v.size (v.movedBy (config.shift m n)).center config.cellSize
          (r.movedBy (config.shift m n)).position =
        Coverage.holds v.size v.center config.cellSize r.position :=
    congrArg₂ and
      (h.x.holdsOnAxis_movedBy (h.positionX r hr) hsquare.x hsquare'.x hsmall)
      (h.y.holdsOnAxis_movedBy (h.positionY r hr) hsquare.y hsquare'.y hsmall)
  have hsize : (v.movedBy (config.shift m n)).size = v.size := rfl
  have hid : (r.movedBy (config.shift m n)).id = r.id := rfl
  rw [admits, admits, hsize, hid]
  by_cases hsmall : v.size < 1
  · rw [hholds hsmall]
  · simp only [decide_eq_false hsmall, Bool.not_false, Bool.true_or]

theorem cells_eq (h : v.IsExactMove config m n refs) (hsquare : v.IsExactSquare config)
    (hsquare' : (v.movedBy (config.shift m n)).IsExactSquare config) :
    Coverage.cells v.size (v.movedBy (config.shift m n)).center =
      (Coverage.cells v.size v.center).map (config.shift m n).cell := by
  have hx : Coverage.span v.size (v.movedBy (config.shift m n)).center.x = _ :=
    h.x.span_movedBy hsquare.x hsquare'.x
  have hy : Coverage.span v.size (v.movedBy (config.shift m n)).center.y = _ :=
    h.y.span_movedBy hsquare.y hsquare'.y
  rw [Coverage.cells_eq, Coverage.cells_eq, hx, hy, List.flatMap_map, List.map_flatMap]
  refine List.flatMap_congr fun a _ => ?_
  rw [List.map_map, List.map_map]
  rfl

end IsExactMove

end ChunkView

/-! ### Grouping -/

variable (d : Shift)

def InstanceList.movedBy (l : InstanceList) : InstanceList :=
  { l with instances := l.instances.map (Reference.movedBy d) }

def Collection.movedBy (c : Collection) : Collection :=
  { c with lists := c.lists.map (InstanceList.movedBy d) }

theorem Collection.add_movedBy (c : Collection) (path : String) (template : Shared Template)
    (r : Reference) :
    (c.movedBy d).add path template (r.movedBy d) = (c.add path template r).movedBy d := by
  have hany : (c.lists.map (InstanceList.movedBy d)).any (·.path == path) =
      c.lists.any (·.path == path) := List.any_map
  simp only [add, movedBy, hany]
  split
  · simp only [List.map_map]
    congr 1
    refine List.map_congr_left fun l _ => ?_
    by_cases hl : l.path = path <;> simp [InstanceList.movedBy, hl]
  · rw [List.map_append]
    rfl

namespace Grouping

variable {σ : Type} {v v' : ChunkView} {config : PagingConfig} (models : ModelResolver)
  (source : TemplateSource σ) {d}

theorem step_movedBy (hcompile : v'.compile = v.compile) {r : Reference}
    (hadmits : v'.admits config (r.movedBy d) = v.admits config r)
    (hsmall : ∀ radius, v'.isTooSmall config radius (r.movedBy d) = v.isTooSmall config radius r)
    (c : Collection) (s : σ) :
    step v' config models source (c.movedBy d) (r.movedBy d) s =
      ((step v config models source c r s).1.map (Collection.movedBy d),
        (step v config models source c r s).2) := by
  have hkind : (r.movedBy d).kind = r.kind := rfl
  have hid : (r.movedBy d).id = r.id := rfl
  simp only [step, hadmits, hkind, hid, hcompile, hsmall, Collection.add_movedBy]
  split
  · rfl
  · cases models r.kind (lowercase r.id) with
    | error e => rfl
    | ok model =>
      dsimp only
      split
      · rfl
      · rcases source (meshPath model) v.compile s with ⟨e | template, s⟩
        · rfl
        · dsimp only
          split <;> rfl

theorem run_movedBy (hcompile : v'.compile = v.compile) {rs : List Reference}
    (hadmits : ∀ r ∈ rs, v'.admits config (r.movedBy d) = v.admits config r)
    (hsmall : ∀ r ∈ rs, ∀ radius,
      v'.isTooSmall config radius (r.movedBy d) = v.isTooSmall config radius r)
    (c : Collection) (s : σ) :
    run v' config models source (c.movedBy d) (rs.map (Reference.movedBy d)) s =
      ((run v config models source c rs s).1.map (Collection.movedBy d),
        (run v config models source c rs s).2) := by
  induction rs generalizing c s with
  | nil => rfl
  | cons r rs ih =>
    obtain ⟨hr, hrs⟩ := List.forall_mem_cons.1 hadmits
    obtain ⟨hr', hrs'⟩ := List.forall_mem_cons.1 hsmall
    rw [List.map_cons]
    unfold run
    rw [step_movedBy models source hcompile hr hr' c s]
    rcases step v config models source c r s with ⟨e | c, s⟩
    · rfl
    · exact ih hrs hrs' c s

end Grouping

/-! ### Synthesis -/

def Placed.outline (p : Placed) : (RefNum × String × Bool × Matrix Unsigned) × Node Unsigned :=
  (p.placement.outline, p.node.image ofSingle)

namespace Synthesis

theorem image_staticTransform (m : Matrix Float32) (n : Node Float32) :
    (staticTransform m n).image ofSingle =
      .branch { Attributes.fresh with variance := .static } (.transform (m.image ofSingle))
        [n.image ofSingle] := Node.image_branch _ _ _

theorem outline_place?_movedBy {v : ChunkView} {config : PagingConfig} {m n : Int32}
    {refs : List Reference} (h : v.IsExactMove config m n refs) {r : Reference} (hr : r ∈ refs)
    (merged : Bool) (template : Template) :
    (place? (worldCenter (v.movedBy (config.shift m n)).center config.cellSize)
        (v.movedBy (config.shift m n)).eye merged template
        (r.movedBy (config.shift m n))).map Placed.outline =
      (place? (worldCenter v.center config.cellSize) v.eye merged template r).map
        Placed.outline := by
  rw [place?, place?, h.distance_eq hr, Option.map_map, Option.map_map]
  congr 1
  funext copy
  simp only [Function.comp_apply, Placed.outline, Placement.outline, image_staticTransform,
    h.image_placement hr]
  rfl

/-- The instances of a moved collection show what the old ones show. -/
theorem outline_placeAll_movedBy {v : ChunkView} {config : PagingConfig} {m n : Int32}
    {refs : List Reference} (h : v.IsExactMove config m n refs) {c : Collection}
    (hc : c.references ⊆ refs) :
    (placeAll config (v.movedBy (config.shift m n)) (c.movedBy (config.shift m n))).map
        Placed.outline = (placeAll config v c).map Placed.outline := by
  rw [placeAll, placeAll, Collection.movedBy, List.flatMap_map, List.map_flatMap,
    List.map_flatMap]
  refine List.flatMap_congr fun l hl => ?_
  rw [InstanceList.movedBy, List.filterMap_map, List.map_filterMap, List.map_filterMap]
  refine List.filterMap_congr fun r hr => ?_
  exact outline_place?_movedBy h (hc (List.mem_flatMap.2 ⟨l, hl, hr⟩)) _ _

theorem mergeRule_image (eye : Vec3 Float32) (group : Node Float32) :
    (mergeRule eye group).image ofSingle =
      if (group.image ofSingle).bound.radiusSquared <
          (eye.image ofSingle - (group.image ofSingle).bound.center).lengthSquared then
        ⟨some (eye.image ofSingle), true⟩
      else ⟨none, false⟩ := by
  have hbound := Node.bound_image isChange_ofSingle group
  have hradius := Sphere.radiusSquared_image isChange_ofSingle group.bound
  have hcenter : (group.bound.image ofSingle).center = group.bound.center.image ofSingle := rfl
  simp only [hbound, hradius, hcenter, ← Vec3.image_sub isChange_ofSingle,
    Vec3.lengthSquared_image isChange_ofSingle, isChange_ofSingle.lt, mergeRule,
    apply_ite (MergeRule.image ofSingle)]
  rfl

def mergeOutline (p : Node Float32 × DrawableChange) : Node Unsigned × DrawableChange :=
  (p.1.image ofSingle, p.2)

theorem mergeGroup?_congr {eye eye' : Vec3 Float32} {nodes nodes' : List (Node Float32)}
    (heye : eye.image ofSingle = eye'.image ofSingle)
    (hnodes : nodes.map (Node.image ofSingle) = nodes'.map (Node.image ofSingle)) :
    (mergeGroup? eye nodes).map mergeOutline = (mergeGroup? eye' nodes').map mergeOutline := by
  have hempty : nodes.isEmpty = nodes'.isEmpty := by
    rw [← List.isEmpty_map (f := Node.image ofSingle), hnodes, List.isEmpty_map]
  have hgroup : (Node.group nodes).image ofSingle = (Node.group nodes').image ofSingle := by
    rw [Node.group, Node.group, Node.image_branch, Node.image_branch, hnodes]
  have hoptimized :
      ((Node.group nodes).optimized (mergeRule eye (Node.group nodes)) .all).image ofSingle =
        ((Node.group nodes').optimized (mergeRule eye' (Node.group nodes')) .all).image
          ofSingle := by
    rw [← Node.optimized_image isChange_ofSingle, ← Node.optimized_image isChange_ofSingle,
      mergeRule_image, mergeRule_image, hgroup, heye]
  have hcount {n n' : Node Float32} (h : n.image ofSingle = n'.image ofSingle) :
      n.drawableCount = n'.drawableCount := by
    rw [← Node.drawableCount_image (f := ofSingle), h, Node.drawableCount_image]
  rw [mergeGroup?, mergeGroup?, hempty]
  split
  · rfl
  · simp only [Option.map_some, mergeOutline, hoptimized, hcount hgroup, hcount hoptimized]

theorem image_nodes (p : Bool → Bool) (ps : List Placed) :
    ((ps.filter fun a => p a.placement.merged).map (·.node)).map (Node.image ofSingle) =
      ((ps.map Placed.outline).filter fun a => p a.1.2.2.1).map (·.2) := by
  rw [List.filter_map, List.map_map, List.map_map]
  rfl

/-- The outline of a chunk from the outlines of what is placed and of the merge group. -/
def outlineOf (placed : List ((RefNum × String × Bool × Matrix Unsigned) × Node Unsigned))
    (group : Option (Node Unsigned × DrawableChange)) : Outline :=
  let children := (placed.filter (!·.1.2.2.1)).map (·.2) ++ (group.map (·.1)).toList
  let root := .branch { Attributes.fresh with mask := Attributes.maskStatic } .group children
  ⟨root, root.bound, placed.map (·.1), group.map (·.2)⟩

theorem outline_ofCollection (config : PagingConfig) (v : ChunkView) (c : Collection) :
    (ofCollection config v c).chunk.outline =
      outlineOf ((placeAll config v c).map Placed.outline)
        ((mergeGroup? (v.eye - worldCenter v.center config.cellSize)
          (((placeAll config v c).filter (·.placement.merged)).map (·.node))).map
            mergeOutline) := by
  simp only [ofCollection, Chunk.outline, outlineOf, ← Node.bound_image isChange_ofSingle,
    Node.image_branch, List.map_append, image_nodes (!·), List.map_map, Option.map_map]
  cases mergeGroup? _ _ <;> rfl

end Synthesis

theorem Synthesis.outline_ofCollection_movedBy {v : ChunkView} {config : PagingConfig}
    {m n : Int32} {refs : List Reference} (h : v.IsExactMove config m n refs) {c : Collection}
    (hc : c.references ⊆ refs) :
    (ofCollection config (v.movedBy (config.shift m n))
        (c.movedBy (config.shift m n))).chunk.outline =
      (ofCollection config v c).chunk.outline := by
  have hplaced := outline_placeAll_movedBy h hc
  have hmerged : (((placeAll config (v.movedBy (config.shift m n))
      (c.movedBy (config.shift m n))).filter (·.placement.merged)).map (·.node)).map
        (Node.image ofSingle) =
      (((placeAll config v c).filter (·.placement.merged)).map (·.node)).map
        (Node.image ofSingle) := by
    rw [image_nodes (·), image_nodes (·), hplaced]
  rw [outline_ofCollection, outline_ofCollection, hplaced, mergeGroup?_congr h.image_eye hmerged]

namespace Sources

def inWorld (s : Sources) (w : World) : Sources := { s with records := w.store }

/-- Chunks do not depend on where in the world they lie. -/
theorem outline_build_movedBy (s : Sources) (w : World) (v : ChunkView) (m n : Int32)
    (uploads : Bool) (cache : TemplateCache)
    (h : v.IsExactMove s.config m n ((s.inWorld w).refs v).values)
    (hsquare : v.IsExactSquare s.config)
    (hsquare' : (v.movedBy (s.config.shift m n)).IsExactSquare s.config) :
    ((s.inWorld (w.movedBy (s.config.shift m n))).build
        (v.movedBy (s.config.shift m n)) uploads cache).1.result.map Chunk.outline =
      ((s.inWorld w).build v uploads cache).1.result.map Chunk.outline := by
  have hvalues :
      ((s.inWorld (w.movedBy (s.config.shift m n))).refs
          (v.movedBy (s.config.shift m n))).values =
        ((s.inWorld w).refs v).values.map (Reference.movedBy (s.config.shift m n)) :=
    Scan.values_run_movedBy _ _ _ w (h.cells_eq hsquare hsquare')
  have hgroup :
      ((s.inWorld (w.movedBy (s.config.shift m n))).group
          (v.movedBy (s.config.shift m n)) cache).1 =
        ((s.inWorld w).group v cache).1.map
          (Collection.movedBy (s.config.shift m n)) := by
    have hcompile : (v.movedBy (s.config.shift m n)).compile = v.compile := rfl
    have hrun := Grouping.run_movedBy s.models TemplateCache.get hcompile
      (fun r hr => h.admits_eq hr hsquare hsquare') (fun r hr => h.isTooSmall_eq hr) .empty cache
    rw [group, Grouping.ofTable, hvalues]
    exact congrArg Prod.fst hrun
  rw [result_build, result_build, hgroup]
  cases hc : ((s.inWorld w).group v cache).1 with
  | error e => rfl
  | ok c =>
    have hsubset := Grouping.references_subset_of_run (Prod.ext hc rfl)
    have hempty : Collection.empty.references = [] := rfl
    rw [hempty, List.append_nil] at hsubset
    exact congrArg Except.ok (Synthesis.outline_ofCollection_movedBy h hsubset)

def cairn : Reference := .new ⟨0, 1⟩ .static "cairn" ⟨0, 4096, 0⟩

/-- A world where the cairn is in the record of one cell. -/
def heath (x : Int32) : World := ⟨[(Cell.new x 0).pushContext [cairn]], ∅⟩

def heathSources : Sources := ⟨(heath 0).store, fun _ _ => .ok "cairn", .empty, .standard⟩

def heathCache : TemplateCache :=
  .new (fun _ => .ok (.drawable .fresh (.cuboid ⟨256, 256, 256⟩))) false

def glance (size center : Float32) : ChunkView :=
  ⟨size, ⟨center, center⟩, ⟨0, 2048, 256⟩, false⟩

theorem outline_build_heath :
    ((glance 0.5 0.25).IsExactMove .standard 5 (-7)
        ((heathSources.inWorld (heath 0)).refs (glance 0.5 0.25)).values ∧
      (glance 0.5 0.25).IsExactSquare .standard ∧
      ((glance 0.5 0.25).movedBy (PagingConfig.standard.shift 5 (-7))).IsExactSquare .standard) ∧
    ((heathSources.inWorld ((heath 0).movedBy (PagingConfig.standard.shift 5 (-7)))).build
        ((glance 0.5 0.25).movedBy (PagingConfig.standard.shift 5 (-7))) false
        heathCache).1.result.map Chunk.outline =
      ((heathSources.inWorld (heath 0)).build (glance 0.5 0.25) false heathCache).1.result.map
        Chunk.outline := by
  have h : (glance 0.5 0.25).IsExactMove .standard 5 (-7)
      ((heathSources.inWorld (heath 0)).refs (glance 0.5 0.25)).values := by decide +kernel
  have hsquare : (glance 0.5 0.25).IsExactSquare .standard := by decide +kernel
  have hsquare' : ((glance 0.5 0.25).movedBy
      (PagingConfig.standard.shift 5 (-7))).IsExactSquare .standard := by decide +kernel
  exact ⟨⟨h, hsquare, hsquare'⟩,
    outline_build_movedBy heathSources (heath 0) (glance 0.5 0.25) 5 (-7) false heathCache h hsquare
      hsquare'⟩

theorem outline_ne_of_instanceCount_ne {a b : Except Failure Chunk}
    (h : a.map Chunk.instanceCount ≠ b.map Chunk.instanceCount) :
    a.map Chunk.outline ≠ b.map Chunk.outline := by
  have hcount (a : Except Failure Chunk) :
      a.map Chunk.instanceCount = (a.map Chunk.outline).map (·.placements.length) := by
    cases a with
    | error e => rfl
    | ok c => exact congrArg Except.ok (List.length_map _).symm
  intro heq
  rw [hcount, hcount, heq] at h
  exact h rfl

/-- Where the ends of a chunk are rounded, or lie beyond the whole numbers that single precision
holds without gaps, its place counts: half a cell grows to a whole one, and a column of cells is
left out. -/
theorem outline_build_heath_far :
    ((glance 0.5 0.5).IsExactMove .standard 4194304 0
        ((heathSources.inWorld (heath 0)).refs (glance 0.5 0.5)).values ∧
      ((heathSources.inWorld ((heath 0).movedBy (PagingConfig.standard.shift 4194304 0))).build
          ((glance 0.5 0.5).movedBy (PagingConfig.standard.shift 4194304 0)) false
          heathCache).1.result.map Chunk.outline ≠
        ((heathSources.inWorld (heath 0)).build (glance 0.5 0.5) false heathCache).1.result.map
          Chunk.outline) ∧
    (glance 4 2).IsExactMove .standard 16777216 0
        ((heathSources.inWorld (heath 3)).refs (glance 4 2)).values ∧
      ((heathSources.inWorld ((heath 3).movedBy (PagingConfig.standard.shift 16777216 0))).build
          ((glance 4 2).movedBy (PagingConfig.standard.shift 16777216 0)) false
          heathCache).1.result.map Chunk.outline ≠
        ((heathSources.inWorld (heath 3)).build (glance 4 2) false heathCache).1.result.map
          Chunk.outline := by
  refine ⟨⟨by decide +kernel, outline_ne_of_instanceCount_ne ?_⟩, by decide +kernel,
    outline_ne_of_instanceCount_ne ?_⟩
  · decide +kernel
  · decide +kernel

end Sources

end DistantChunks
