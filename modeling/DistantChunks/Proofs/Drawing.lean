import DistantChunks.Scene.Node
import Mathlib.Data.Multiset.Basic

/-!
# What a tree draws

Every drawable is drawn with the innermost state set on its path and in the space of the root, to
which the product of the matrices on its path moves it. `drawn` lists the drawables of a tree in
this way, in the order of the tree; `drawing` forgets their order and how the triangles are
distributed among them.
-/

namespace DistantChunks

variable {α : Type}

structure Triangle (α : Type) where
  a : Vec3 α
  b : Vec3 α
  c : Vec3 α
  deriving DecidableEq

def Triangle.map (f : Vec3 α → Vec3 α) (t : Triangle α) : Triangle α := ⟨f t.a, f t.b, f t.c⟩

namespace Triangle

def ofCorners : List (Vec3 α) → List (Triangle α)
  | a :: b :: c :: rest => ⟨a, b, c⟩ :: ofCorners rest
  | _ => []

theorem ofCorners_append {us : List (Vec3 α)} (h : 3 ∣ us.length) (vs : List (Vec3 α)) :
    ofCorners (us ++ vs) = ofCorners us ++ ofCorners vs := by
  induction us using ofCorners.induct with
  | case1 a b c rest ih =>
    have hrest : 3 ∣ rest.length := by
      simp only [List.length_cons] at h
      omega
    simp only [List.cons_append, ofCorners, ih hrest]
  | case2 us hus =>
    match us, hus with
    | [], _ => rfl
    | [_], _ => simp at h
    | [_, _], _ => simp at h
    | a :: b :: c :: rest, hus => exact absurd rfl (hus a b c rest)

theorem ofCorners_map (f : Vec3 α → Vec3 α) (us : List (Vec3 α)) :
    ofCorners (us.map f) = (ofCorners us).map (Triangle.map f) := by
  induction us using ofCorners.induct with
  | case1 a b c rest ih => simp only [List.map_cons, ofCorners, ih, Triangle.map]
  | case2 us hus =>
    match us, hus with
    | [], _ => rfl
    | [_], _ => rfl
    | [_, _], _ => rfl
    | a :: b :: c :: rest, hus => exact absurd rfl (hus a b c rest)

end Triangle

namespace Mesh

/-- The vertices that the indices name. -/
def corners (m : Mesh α) : List (Vec3 α) :=
  m.indices.toList.filterMap fun i => m.vertices[i.toNat]?

def triangles (m : Mesh α) : List (Triangle α) := Triangle.ofCorners m.corners

def IsIndexed (m : Mesh α) : Prop := ∀ i ∈ m.indices, i.toNat < m.vertices.size

/-- The indices name vertices of the mesh and form whole triangles. -/
structure IsWhole (m : Mesh α) : Prop where
  divides : 3 ∣ m.indices.size
  inRange : ∀ i ∈ m.indices, i.toNat < m.vertices.size

theorem isWhole_empty : (empty : Mesh α).IsWhole := ⟨by simp [empty], by simp [empty]⟩

theorem triangles_empty : (empty : Mesh α).triangles = [] := rfl

@[simp] theorem vertexCount_empty : (empty : Mesh α).vertexCount = 0 := rfl

theorem IsWhole.length_corners {m : Mesh α} (h : m.IsWhole) :
    m.corners.length = m.indices.size := by
  have hsome : ∀ i ∈ m.indices.toList, (m.vertices[i.toNat]?).isSome := by
    intro i hi
    simpa using h.inRange i (by simpa using hi)
  rw [corners, List.length_filterMap_eq_countP, List.countP_eq_length.2 hsome,
    Array.length_toList]

variable {a b : Mesh α}

theorem toNat_add_ofNat {i : UInt32} {n : Nat} (hfit : n + i.toNat < UInt32.size) :
    (i + UInt32.ofNat n).toNat = n + i.toNat := by
  rw [UInt32.toNat_add, UInt32.toNat_ofNat']
  simp only [UInt32.size] at hfit
  omega

/-- An index of the second mesh that has been moved behind the vertices of the first. -/
theorem toNat_rebased {i : UInt32} (hi : i.toNat < b.vertices.size)
    (hfit : a.vertexCount + b.vertexCount < UInt32.size) :
    (i + UInt32.ofNat a.vertices.size).toNat = a.vertices.size + i.toNat := by
  refine toNat_add_ofNat ?_
  simp only [vertexCount] at hfit
  omega

theorem vertexCount_append (a b : Mesh α) :
    (a.append b).vertexCount = a.vertexCount + b.vertexCount := by
  simp [append, vertexCount]

theorem corners_append (ha : a.IsIndexed) (hb : b.IsIndexed)
    (hfit : a.vertexCount + b.vertexCount < UInt32.size) :
    (a.append b).corners = a.corners ++ b.corners := by
  simp only [corners, append, Array.toList_append, Array.toList_map, List.filterMap_append,
    List.filterMap_map]
  congr 1
  · apply List.filterMap_congr
    intro i hi
    exact Array.getElem?_append_left (ha i (by simpa using hi))
  · apply List.filterMap_congr
    intro i hi
    have hi' := hb i (by simpa using hi)
    rw [Function.comp_apply, toNat_rebased hi' hfit, Array.getElem?_append_right (by omega),
      Nat.add_sub_cancel_left]

theorem IsIndexed.append (ha : a.IsIndexed) (hb : b.IsIndexed)
    (hfit : a.vertexCount + b.vertexCount < UInt32.size) : (a.append b).IsIndexed := by
  intro i hi
  simp only [Mesh.append, Array.mem_append, Array.mem_map, Array.size_append] at hi ⊢
  rcases hi with hi | ⟨j, hj, rfl⟩
  · have := ha i hi
    omega
  · have hj' := hb j hj
    rw [toNat_rebased hj' hfit]
    omega

theorem IsWhole.append (ha : a.IsWhole) (hb : b.IsWhole)
    (hfit : a.vertexCount + b.vertexCount < UInt32.size) : (a.append b).IsWhole where
  divides := by
    simpa [Mesh.append] using Nat.dvd_add ha.divides hb.divides
  inRange := IsIndexed.append ha.inRange hb.inRange hfit

theorem triangles_append (ha : a.IsWhole) (hb : b.IsWhole)
    (hfit : a.vertexCount + b.vertexCount < UInt32.size) :
    (a.append b).triangles = a.triangles ++ b.triangles := by
  have hdiv : 3 ∣ a.corners.length := ha.length_corners ▸ ha.divides
  rw [triangles, corners_append ha.inRange hb.inRange hfit, Triangle.ofCorners_append hdiv]
  rfl

variable [Scalar α]

@[simp] theorem vertexCount_moved (m : Mesh α) (x : Matrix α) :
    (m.moved x).vertexCount = m.vertexCount := by
  simp [moved, vertexCount]

theorem corners_moved (m : Mesh α) (x : Matrix α) :
    (m.moved x).corners = m.corners.map x.movePoint := by
  simp [corners, moved, List.map_filterMap]

theorem triangles_moved (m : Mesh α) (x : Matrix α) :
    (m.moved x).triangles = m.triangles.map (Triangle.map x.movePoint) := by
  rw [triangles, corners_moved, Triangle.ofCorners_map]
  rfl

theorem moved_append (a b : Mesh α) (x : Matrix α) :
    (a.append b).moved x = (a.moved x).append (b.moved x) := by
  simp [moved, append]

/-- A mesh below transforms with the product `x`. It is left alone if the product changes
nothing. -/
def placed (x : Matrix α) (m : Mesh α) : Mesh α := if x.isIdentity then m else m.moved x

@[simp] theorem vertexCount_placed (x : Matrix α) (m : Mesh α) :
    (m.placed x).vertexCount = m.vertexCount := by
  unfold placed
  split <;> simp

theorem isWhole_cuboid (half : Vec3 α) : (cuboid half).IsWhole :=
  ⟨⟨12, rfl⟩, by simp [cuboid]⟩

theorem vertexCount_cuboid (half : Vec3 α) : (cuboid half).vertexCount = 8 := rfl

theorem isWhole_placed_iff {x : Matrix α} {m : Mesh α} : (m.placed x).IsWhole ↔ m.IsWhole := by
  unfold placed
  split
  · rfl
  · exact ⟨fun h => ⟨h.divides, by simpa [moved] using h.inRange⟩,
      fun h => ⟨h.divides, by simpa [moved] using h.inRange⟩⟩

@[simp] theorem placed_empty (x : Matrix α) : (empty : Mesh α).placed x = empty := by
  simp [placed, moved, empty]

theorem placed_append (x : Matrix α) (a b : Mesh α) :
    (a.append b).placed x = (a.placed x).append (b.placed x) := by
  unfold placed
  split
  · rfl
  · exact moved_append a b x

end Mesh

namespace Node

/-- Induction over trees, where a branching may use the statement for each of its children. -/
@[elab_as_elim, induction_eliminator]
theorem induction {motive : Node α → Prop}
    (branch : ∀ a b children, (∀ c ∈ children, motive c) → motive (.branch a b children))
    (drawable : ∀ a mesh, motive (.drawable a mesh))
    (posed : ∀ a posing source, motive source → motive (.posed a posing source))
    (particle : ∀ a role, motive (.particle a role)) : (n : Node α) → motive n
  | .branch a b children =>
    branch a b children fun c _ => induction branch drawable posed particle c
  | .drawable a mesh => drawable a mesh
  | .posed a posing source =>
    posed a posing source (induction branch drawable posed particle source)
  | .particle a role => particle a role

end Node

/-- A drawable with the state set that it is drawn with and its mesh in its place. -/
structure Drawn (α : Type) where
  state : Option StateSet
  mesh : Mesh α

def Drawn.faces (d : Drawn α) : List (Option StateSet × Triangle α) :=
  d.mesh.triangles.map fun t => (d.state, t)

variable [Scalar α]

/-- The matrix for the children of a branching that is itself placed by `x`. -/
def Branching.below (x : Matrix α) : Branching α → Matrix α
  | .transform m => x * m
  | _ => x

namespace Node

mutual

/-- The drawables of a tree below transforms with the product `x` and the state set `s`. -/
def drawn (x : Matrix α) (s : Option StateSet) : Node α → List (Drawn α)
  | .branch a b children => drawnAll (b.below x) (a.state.or s) children
  | .drawable a mesh => [⟨a.state.or s, mesh.placed x⟩]
  | .posed a _ source => match source.mesh? with
    | some mesh => [⟨a.state.or s, mesh.placed x⟩]
    | none => []
  | .particle _ _ => []

def drawnAll (x : Matrix α) (s : Option StateSet) : List (Node α) → List (Drawn α)
  | [] => []
  | n :: rest => n.drawn x s ++ drawnAll x s rest

end

theorem drawnAll_eq (x : Matrix α) (s : Option StateSet) (ns : List (Node α)) :
    drawnAll x s ns = ns.flatMap (drawn x s) := by
  induction ns with
  | nil => rfl
  | cons n ns ih => simp only [drawnAll, List.flatMap_cons, ih]

@[simp] theorem drawn_branch (x : Matrix α) (s : Option StateSet) (a : Attributes)
    (b : Branching α) (children : List (Node α)) :
    (branch a b children).drawn x s = children.flatMap (drawn (b.below x) (a.state.or s)) := by
  rw [drawn, drawnAll_eq]

/-- What is drawn depends on no attribute of a node but its state set. -/
theorem drawn_withAttributes (x : Matrix α) (s : Option StateSet) {a : Attributes} {n : Node α}
    (h : a.state = n.state) : (n.withAttributes a).drawn x s = n.drawn x s := by
  cases n <;> simp_all [withAttributes, state, attributes, drawn, drawnAll_eq]

/-- The triangles of a tree, each with the state set that it is drawn with. -/
def drawing (n : Node α) : Multiset (Option StateSet × Triangle α) :=
  ↑((n.drawn .identity none).flatMap Drawn.faces)

end Node

end DistantChunks
