import DistantChunks.Proofs.CountedCopies
import DistantChunks.Proofs.Images
import DistantChunks.Proofs.RealGeometry

/-!
# Bounds enclose what is drawn

The points of a tree are the vertices of its drawables, moved by the transforms on their paths. With
exact arithmetic the bound of a tree is valid exactly if the tree has points, and contains all of
them if the matrices on the paths stretch no vector more than an axis. For every other matrix there
are two points that the bound of a transform does not contain.
-/

namespace DistantChunks

variable {α β : Type}

theorem Node.drawsSource_image {f : α → β} {n : Node α} (h : n.DrawsSource) :
    (n.image f).DrawsSource := by
  induction n with
  | posed a posing source ih =>
    obtain ⟨hdrawable, hsource⟩ := h
    exact ⟨(isDrawable_image source).trans hdrawable, ih hsource⟩
  | _ => trivial

theorem Node.preorder_image {f : α → β} (n : Node α) :
    (n.image f).preorder = n.preorder.map (image f) := by
  induction n with
  | branch a b children ih =>
    rw [image_branch, preorder, preorder, preorderAll_eq, preorderAll_eq, List.map_cons,
      image_branch, List.flatMap_map, List.map_flatMap]
    exact congrArg _ (List.flatMap_congr ih)
  | _ => rfl

theorem Node.HasDrawableSources.image {f : α → β} {n : Node α} (h : n.HasDrawableSources) :
    (n.image f).HasDrawableSources := by
  rw [HasDrawableSources, preorder_image, List.forall_mem_map]
  exact fun m hm => drawsSource_image (h m hm)

theorem Node.HasDrawableSources.source {a : Attributes} {posing : Posing} {source : Node α}
    (h : (Node.posed a posing source).HasDrawableSources) :
    source.isDrawable = true ∧ source.HasDrawableSources := by
  obtain ⟨hdrawable, hsource⟩ := h _ List.mem_cons_self
  refine ⟨hdrawable, fun m hm => ?_⟩
  cases source with
  | drawable | posed =>
    obtain rfl := List.mem_singleton.1 hm
    exact hsource
  | branch | particle => cases hdrawable

/-- The image of a point under the matrices of a path, the last of which acts first. -/
def moveAlong [Scalar α] (path : List (Matrix α)) (p : Vec3 α) : Vec3 α :=
  path.foldr Matrix.movePoint p

theorem moveAlong_nil [Scalar α] : moveAlong ([] : List (Matrix α)) = id := rfl

theorem moveAlong_append [Scalar α] (path rest : List (Matrix α)) :
    moveAlong (path ++ rest) = moveAlong path ∘ moveAlong rest :=
  funext fun _ => List.foldr_append

/-- The vertices of a drawable where the transforms on its path put them. -/
def Located.points [Scalar α] (l : Located α) : List (Vec3 α) :=
  (l.node.mesh?.toList.flatMap (·.vertices.toList)).map (moveAlong l.path)

namespace Node

theorem located_append (path rest : List (Matrix α)) (n : Node α) :
    n.located (path ++ rest) =
      (n.located rest).map fun l => { l with path := path ++ l.path } := by
  induction n generalizing rest with
  | branch a b children ih =>
    rw [located, located, locatedAll_eq, locatedAll_eq, List.map_flatMap, List.append_assoc]
    exact List.flatMap_congr fun c hc => ih c hc _
  | _ => rfl

theorem located_branch (a : Attributes) (b : Branching α) (children : List (Node α)) :
    (branch a b children).located [] = children.flatMap fun c =>
      (c.located []).map fun l => { l with path := b.matrices ++ l.path } := by
  rw [located, locatedAll_eq]
  refine List.flatMap_congr fun c _ => ?_
  rw [List.nil_append, ← located_append, List.append_nil]

variable [Scalar α]

/-- What is drawn below a node, or by it, in the space of its parent. -/
def points (n : Node α) : List (Vec3 α) := (n.located []).flatMap Located.points

theorem points_branch (a : Attributes) (b : Branching α) (children : List (Node α)) :
    (branch a b children).points = (children.flatMap points).map (moveAlong b.matrices) := by
  have hmoved (l : Located α) : Located.points { l with path := b.matrices ++ l.path } =
      l.points.map (moveAlong b.matrices) := by
    rw [Located.points, Located.points, List.map_map, moveAlong_append]
  rw [points, located_branch, List.flatMap_assoc, List.map_flatMap]
  refine List.flatMap_congr fun c _ => ?_
  rw [List.flatMap_map, points, List.map_flatMap]
  exact List.flatMap_congr fun l _ => hmoved l

theorem points_of_isDrawable {n : Node α} (h : n.isDrawable = true) :
    n.points = n.mesh?.toList.flatMap (·.vertices.toList) := by
  cases n with
  | drawable | posed => simp [points, located, Located.points, moveAlong_nil]
  | branch | particle => cases h

theorem points_posed {a : Attributes} {posing : Posing} {source : Node α}
    (h : source.isDrawable = true) : (posed a posing source).points = source.points := by
  rw [points_of_isDrawable rfl, points_of_isDrawable h, mesh?]

end Node

theorem Branching.isValid_place (b : Branching ℝ) (s : Sphere ℝ) :
    (b.place s).isValid = s.isValid := by
  cases b with
  | transform m => exact s.isValid_moved m
  | _ => rfl

theorem Branching.place_contains {b : Branching ℝ} {s : Sphere ℝ} {p : Vec3 ℝ}
    (hb : ∀ m ∈ b.matrices, m.StretchesAlongAxes) (hp : s.contains p = true) :
    (b.place s).contains (moveAlong b.matrices p) = true := by
  cases b with
  | transform m => exact Sphere.moved_contains (hb m (List.mem_singleton_self m)) hp
  | _ => exact hp

namespace Node

variable {n : Node ℝ}

theorem bound_branch (a : Attributes) (b : Branching ℝ) (children : List (Node ℝ)) :
    (branch a b children).bound = b.place (Sphere.enclosing (children.map bound)) := by
  rw [bound, bounds_eq]

theorem isValid_bound_iff (hsources : n.HasDrawableSources) :
    n.bound.isValid = true ↔ n.points ≠ [] := by
  induction n with
  | branch a b children ih =>
    rw [bound_branch, Branching.isValid_place, Sphere.isValid_enclosing_iff, points_branch]
    have hchildren : (∃ c ∈ children, c.bound.isValid = true) ↔ ∃ c ∈ children, c.points ≠ [] :=
      exists_congr fun c => and_congr_right fun hc =>
        ih c hc fun m hm => hsources m (preorder_subset_of_mem hc hm)
    simpa [List.flatMap_eq_nil_iff] using hchildren
  | drawable a mesh =>
    rw [bound, Mesh.bound, Sphere.isValid_ofBox_iff, points_of_isDrawable rfl]
    simp [mesh?]
  | posed a posing source ih =>
    obtain ⟨hdrawable, hsource⟩ := hsources.source
    rw [bound, ih hsource, points_posed hdrawable]
  | particle a role =>
    rw [bound, Sphere.isValid_empty]
    exact ⟨fun h => absurd h Bool.false_ne_true, fun h => absurd rfl h⟩

theorem bound_contains (hsources : n.HasDrawableSources)
    (hpaths : ∀ l ∈ n.located [], ∀ m ∈ l.path, m.StretchesAlongAxes) :
    ∀ p ∈ n.points, n.bound.contains p = true := by
  induction n with
  | branch a b children ih =>
    rw [points_branch, List.forall_mem_map]
    intro p hp
    obtain ⟨c, hc, hpc⟩ := List.mem_flatMap.1 hp
    obtain ⟨l, hl, -⟩ := List.mem_flatMap.1 hpc
    -- What lies on a path below the child lies on a path below the branching.
    have hbelow : ∀ l ∈ c.located [], ∀ m ∈ b.matrices ++ l.path, m.StretchesAlongAxes := by
      intro l hl
      refine hpaths { l with path := b.matrices ++ l.path } ?_
      rw [located_branch]
      exact List.mem_flatMap.2 ⟨c, hc, List.mem_map_of_mem hl⟩
    have hcontains : c.bound.contains p = true :=
      ih c hc (fun m hm => hsources m (preorder_subset_of_mem hc hm))
        (fun l hl m hm => hbelow l hl m (List.mem_append_right _ hm)) p hpc
    rw [bound_branch]
    exact Branching.place_contains (fun m hm => hbelow l hl m (List.mem_append_left _ hm))
      (Sphere.enclosing_contains (List.mem_map_of_mem hc) hcontains)
  | drawable a mesh =>
    intro p hp
    rw [points_of_isDrawable rfl, mesh?, Option.toList_some, List.flatMap_singleton] at hp
    exact Sphere.ofBox_contains hp
  | posed a posing source ih =>
    obtain ⟨hdrawable, hsource⟩ := hsources.source
    have hsourcePaths : ∀ l ∈ source.located [], l.path = [] := by
      cases source with
      | drawable | posed => simp [located]
      | branch | particle => cases hdrawable
    rw [points_posed hdrawable]
    refine ih hsource fun l hl m hm => ?_
    rw [hsourcePaths l hl] at hm
    cases hm
  | particle a role => exact fun p hp => absurd hp List.not_mem_nil

def pole [Scalar α] (m : Matrix α) (v : Vec3 α) : Node α :=
  .branch .fresh (.transform m) [.drawable .fresh ⟨#[v, 0], #[]⟩]

theorem image_pole [Scalar α] [Scalar β] {f : α → β} (hf : f 0 = 0) (m : Matrix α) (v : Vec3 α) :
    (pole m v).image f = pole (m.image f) (v.image f) := by
  have horigin : (0 : Vec3 α).image f = 0 := Vec3.eq_of_coordinates hf hf hf
  simp [pole, image_branch, image, Branching.image, Mesh.image, horigin]

theorem hasDrawableSources_pole [Scalar α] (m : Matrix α) (v : Vec3 α) :
    (pole m v).HasDrawableSources := by
  simp [pole, HasDrawableSources, preorder, preorderAll, DrawsSource]

theorem movePoint_mem_points_pole (m : Matrix ℝ) (v : Vec3 ℝ) :
    m.movePoint v ∈ (pole m v).points := by
  rw [pole, points_branch, List.flatMap_singleton, points_of_isDrawable rfl]
  exact List.mem_map_of_mem List.mem_cons_self

theorem contains_pole_iff (m : Matrix ℝ) {v : Vec3 ℝ} (hv : v.length ≤ Scalar.greatest) :
    (pole m v).bound.contains (m.movePoint v) = true ↔
      (m.moveOffset v).length ≤ v.length * m.longestAxis := by
  have hhalf : (0 : ℝ) < Scalar.half := by
    change (0 : ℝ) < 1 / 2
    norm_num
  let s : Sphere ℝ := ⟨v.scale Scalar.half, v.length * Scalar.half⟩
  have hvalid : s.isValid = true := (s.isValid_iff).2 (mul_nonneg v.length_nonneg hhalf.le)
  have hcenter : ∀ d, |s.center.along d| ≤ Scalar.greatest := by
    intro d
    have hscale : s.center.along d = v.along d * (1 / 2) := by cases d <;> rfl
    rw [hscale, abs_mul, abs_of_pos (by norm_num : (0 : ℝ) < 1 / 2)]
    linarith [abs_nonneg (v.along d), v.abs_along_le_length d]
  have hbound : (pole m v).bound = ⟨m.movePoint s.center, s.radius * m.longestAxis⟩ := by
    have hmesh : bound (drawable .fresh ⟨#[v, 0], #[]⟩) = s := Sphere.ofBox_pair v
    rw [pole, bound_branch, List.map_singleton, hmesh, Sphere.enclosing_singleton hvalid hcenter]
    exact Sphere.moved_eq hvalid
  have hoffset : v - v.scale Scalar.half = v.scale Scalar.half := by
    have hterm (a : ℝ) : a - a * (1 / 2) = a * (1 / 2) := by ring
    exact Vec3.eq_of_coordinates (hterm v.x) (hterm v.y) (hterm v.z)
  rw [hbound, Sphere.contains_iff, Matrix.movePoint_sub, hoffset, Matrix.moveOffset_scale,
    Vec3.length_scale _ hhalf.le, mul_right_comm]
  exact mul_le_mul_iff_of_pos_right hhalf

/-- The rule of the longest axis is right for no other matrices. -/
theorem exists_outside {m : Matrix ℝ} (hm : ¬ m.StretchesAlongAxes) :
    ∃ root : Node ℝ, root.HasDrawableSources ∧ (∀ l ∈ root.located [], l.path = [m]) ∧
      ∃ p ∈ root.points, root.bound.contains p = false := by
  obtain ⟨v, hshort, hlong⟩ := Matrix.exists_stretched hm
  have hgreatest : (1 : ℝ) ≤ Scalar.greatest := by norm_num [Scalar.greatest_eq]
  refine ⟨pole m v, hasDrawableSources_pole m v, ?_, _, movePoint_mem_points_pole m v, ?_⟩
  · simp [pole, located, locatedAll, Branching.matrices]
  · rw [← Bool.not_eq_true, contains_pole_iff m (hshort.trans hgreatest)]
    exact not_le.2 hlong

/-- Read exactly, the bound of a tree is valid if and only if something is drawn below, and it
encloses all of it wherever the transforms stretch no vector more than an axis. Over any other
matrix a bound can miss a point. -/
theorem bound_encloses (root : Node Float32) (hsources : root.HasDrawableSources) :
    let exact := root.image Single.toReal
    (exact.bound.isValid = false ↔ exact.points = []) ∧
    ((∀ l ∈ exact.located [], ∀ m ∈ l.path, m.StretchesAlongAxes) →
      ∀ p ∈ exact.points, exact.bound.contains p = true) ∧
    ∀ m : Matrix ℝ, ¬ m.StretchesAlongAxes →
      ∃ other : Node ℝ, other.HasDrawableSources ∧ (∀ l ∈ other.located [], l.path = [m]) ∧
        ∃ p ∈ other.points, other.bound.contains p = false := by
  intro exact
  refine ⟨?_, bound_contains hsources.image, fun m => exists_outside⟩
  rw [← Bool.not_eq_true, isValid_bound_iff hsources.image, not_not]

theorem toReal_eq_natCast {x : Float32} {k : ℕ} (h : Denotes x k) : Single.toReal x = k := by
  rw [h.toReal, Rat.cast_natCast]

def shed : Node Float32 :=
  .branch .fresh (.transform ⟨⟨2, 0, 0, 0⟩, ⟨0, 3, 0, 0⟩, ⟨0, 0, 1, 0⟩, ⟨10, 0, 0, 1⟩⟩)
    [.branch .fresh (.switch [false]) [.posed .fresh .rig (.drawable .fresh ⟨#[⟨1, 1, 1⟩], #[]⟩)],
      .particle .fresh .system]

theorem image_shed : shed.image Single.toReal =
    .branch .fresh (.transform ⟨⟨2, 0, 0, 0⟩, ⟨0, 3, 0, 0⟩, ⟨0, 0, 1, 0⟩, ⟨10, 0, 0, 1⟩⟩)
      [.branch .fresh (.switch [false])
        [.posed .fresh .rig (.drawable .fresh ⟨#[⟨1, 1, 1⟩], #[]⟩)], .particle .fresh .system] := by
  have h0 := toReal_eq_natCast (k := 0) (x := 0) (by decide)
  have h1 := toReal_eq_natCast (k := 1) (x := 1) (by decide +kernel)
  have h2 := toReal_eq_natCast (k := 2) (x := 2) (by decide +kernel)
  have h3 := toReal_eq_natCast (k := 3) (x := 3) (by decide +kernel)
  have h10 := toReal_eq_natCast (k := 10) (x := 10) (by decide +kernel)
  simp [shed, image, imageAll, Branching.image, Matrix.image, Vec4.image, Mesh.image, Vec3.image,
    h0, h1, h2, h3, h10]

theorem shed_encloses :
    shed.HasDrawableSources ∧ (shed.image Single.toReal).bound.contains ⟨12, 3, 1⟩ = true := by
  have hsources : shed.HasDrawableSources := by
    simp [shed, HasDrawableSources, preorder, preorderAll, DrawsSource, isDrawable]
  obtain ⟨-, hcontains, -⟩ := bound_encloses shed hsources
  refine ⟨hsources, hcontains ?_ ⟨12, 3, 1⟩ ?_⟩
  · rw [image_shed]
    simp only [located, locatedAll, Branching.matrices, List.append_nil, List.nil_append,
      List.forall_mem_singleton]
    refine Matrix.stretchesAlongAxes_of_dot ?_ ?_ ?_ <;> simp [Vec4.truncate, Vec3.dot]
  · rw [image_shed]
    simp only [points, located, locatedAll, Branching.matrices, List.append_nil, List.nil_append,
      List.flatMap_singleton, Located.points, mesh?, Option.toList_some, List.map_singleton,
      List.mem_singleton, moveAlong, List.foldr_cons, List.foldr_nil, Matrix.movePoint]
    norm_num

/-- An awning along the diagonal, which its matrix stretches seven times and its axes five times. -/
def awning : Node Float32 :=
  pole ⟨⟨4, 3, 0, 0⟩, ⟨3, 4, 0, 0⟩, ⟨0, 0, 1, 0⟩, ⟨0, 0, 0, 1⟩⟩ ⟨6, 8, 0⟩

theorem image_awning : awning.image Single.toReal =
    pole ⟨⟨4, 3, 0, 0⟩, ⟨3, 4, 0, 0⟩, ⟨0, 0, 1, 0⟩, ⟨0, 0, 0, 1⟩⟩ ⟨6, 8, 0⟩ := by
  have h0 := toReal_eq_natCast (k := 0) (x := 0) (by decide)
  have h1 := toReal_eq_natCast (k := 1) (x := 1) (by decide +kernel)
  have h3 := toReal_eq_natCast (k := 3) (x := 3) (by decide +kernel)
  have h4 := toReal_eq_natCast (k := 4) (x := 4) (by decide +kernel)
  have h6 := toReal_eq_natCast (k := 6) (x := 6) (by decide +kernel)
  have h8 := toReal_eq_natCast (k := 8) (x := 8) (by decide +kernel)
  rw [awning, image_pole (by rw [h0, Nat.cast_zero])]
  simp [Matrix.image, Vec4.image, Vec3.image, h0, h1, h3, h4, h6, h8]

/-- The bound ends at a distance of 25 from its center, the awning at more than 34. -/
theorem awning_not_enclosed :
    awning.HasDrawableSources ∧ ∃ p ∈ (awning.image Single.toReal).points,
      (awning.image Single.toReal).bound.contains p = false := by
  let m : Matrix ℝ := ⟨⟨4, 3, 0, 0⟩, ⟨3, 4, 0, 0⟩, ⟨0, 0, 1, 0⟩, ⟨0, 0, 0, 1⟩⟩
  let v : Vec3 ℝ := ⟨6, 8, 0⟩
  have hlength : v.length = 10 :=
    Vec3.length_eq_of_sq (by norm_num) (by norm_num [Vec3.lengthSquared_eq, v])
  have hrange : v.length ≤ Scalar.greatest := by
    rw [hlength, Scalar.greatest_eq]
    norm_num
  have hlongest : m.longestAxis = 5 := by
    have hx : m.x.truncate.length = 5 := Vec3.length_eq_of_sq (by norm_num) (by
      norm_num [Vec3.lengthSquared_eq, m, Vec4.truncate])
    have hy : m.y.truncate.length = 5 := Vec3.length_eq_of_sq (by norm_num) (by
      norm_num [Vec3.lengthSquared_eq, m, Vec4.truncate])
    have hz : m.z.truncate.length = 1 := Vec3.length_eq_of_sq (by norm_num) (by
      norm_num [Vec3.lengthSquared_eq, m, Vec4.truncate])
    rw [Matrix.longestAxis, hx, hy, hz]
    norm_num
  refine ⟨hasDrawableSources_pole _ _, m.movePoint v, ?_, ?_⟩
  · rw [image_awning]
    exact movePoint_mem_points_pole m v
  · rw [image_awning, ← Bool.not_eq_true, contains_pole_iff m hrange, hlength, hlongest,
      Vec3.length_le_iff (by norm_num)]
    norm_num [Vec3.lengthSquared_eq, Matrix.moveOffset, m, v]

end Node

end DistantChunks
