import DistantChunks.Proofs.Drawing
import DistantChunks.Scene.Baking
import DistantChunks.Scene.Lifting

/-!
# The parts of a tree

A part is a drawable with all that decides where, when and how it is shown: the matrices, switch
flags and detail ranges on its path, and the innermost state set. Baking reads a tree differently.
It multiplies the matrices of static transforms from the root down, moves the vertices of plain
drawables by the product, and leaves it to the next transform that may still change or to a posed
drawable as a matrix. `parts_baked` says that the baked tree has the parts that are read in this
way, and `isBaked_baked` that it has no static transform left for which the readings could differ.
-/

namespace DistantChunks

variable {α : Type}

/-- What a branching puts between itself and one of its children. -/
inductive Frame (α : Type) where
  | matrix (m : Matrix α)
  | flag (on : Option Bool)
  | range (distances : Option (DetailRange α))
  deriving DecidableEq

def Branching.frames (i : Nat) : Branching α → List (Frame α)
  | .group => []
  | .transform m => [.matrix m]
  | .switch flags => [.flag flags[i]?]
  | .detail ranges => [.range ranges[i]?]

inductive Shape (α : Type) where
  | mesh (mesh : Mesh α)
  | posed (posing : Posing) (source : Node α)

structure Part (α : Type) where
  path : List (Frame α)
  state : Option StateSet
  shape : Shape α

namespace Part

/-- The triangles of a plain drawable, each with its path and state set. -/
def faces (p : Part α) : List (List (Frame α) × Option StateSet × Triangle α) :=
  match p.shape with
  | .mesh mesh => mesh.triangles.map fun t => (p.path, p.state, t)
  | .posed _ _ => []

def points (p : Part α) : List (List (Frame α) × Option StateSet × Vec3 α) :=
  match p.shape with
  | .mesh mesh => mesh.vertices.toList.map fun v => (p.path, p.state, v)
  | .posed _ _ => []

def poses (p : Part α) : List (List (Frame α) × Option StateSet × Posing × Node α) :=
  match p.shape with
  | .mesh _ => []
  | .posed posing source => [(p.path, p.state, posing, source)]

end Part

namespace Node

mutual

/-- The parts of a tree below the frames `path` and the state set `s`. -/
def parts (path : List (Frame α)) (s : Option StateSet) : Node α → List (Part α)
  | .branch a b children => partsFrom (fun i => path ++ b.frames i) (a.state.or s) 0 children
  | .drawable a mesh => [⟨path, a.state.or s, .mesh mesh⟩]
  | .posed a posing source => [⟨path, a.state.or s, .posed posing source⟩]
  | .particle _ _ => []

def partsFrom (paths : Nat → List (Frame α)) (s : Option StateSet) (i : Nat) :
    List (Node α) → List (Part α)
  | [] => []
  | n :: rest => n.parts (paths i) s ++ partsFrom paths s (i + 1) rest

end

theorem partsFrom_const (path : List (Frame α)) (s : Option StateSet) (i : Nat)
    (ns : List (Node α)) : partsFrom (fun _ => path) s i ns = ns.flatMap (parts path s) := by
  induction ns generalizing i with
  | nil => rfl
  | cons n ns ih => rw [partsFrom, ih, List.flatMap_cons]

theorem parts_group (path : List (Frame α)) (s : Option StateSet) (a : Attributes)
    (children : List (Node α)) :
    (branch a .group children).parts path s = children.flatMap (parts path (a.state.or s)) := by
  rw [parts, ← partsFrom_const path _ 0]
  simp only [Branching.frames, List.append_nil]

theorem parts_transform (path : List (Frame α)) (s : Option StateSet) (a : Attributes)
    (m : Matrix α) (children : List (Node α)) :
    (branch a (.transform m) children).parts path s =
      children.flatMap (parts (path ++ [.matrix m]) (a.state.or s)) := by
  rw [parts]
  exact partsFrom_const (path ++ [.matrix m]) _ 0 children

theorem parts_withStateIfNone {n : Node α} (hn : n.isDrawable = true) (t : StateSet)
    (path : List (Frame α)) (s : Option StateSet) :
    (n.withStateIfNone t).parts path s = n.parts path (some t) := by
  cases n with
  | branch | particle => cases hn
  | drawable a mesh | posed a posing source =>
    cases h : a.state <;>
      simp [withStateIfNone, state, attributes, h, withState, withAttributes, parts]

theorem drawableCountAll_map {f : Node α → Node α} {ns : List (Node α)}
    (h : ∀ n ∈ ns, (f n).drawableCount = n.drawableCount) :
    drawableCountAll (ns.map f) = drawableCountAll ns := by
  induction ns with
  | nil => rfl
  | cons n ns ih =>
    rw [List.map_cons, drawableCountAll, drawableCountAll, h n List.mem_cons_self,
      ih fun m hm => h m (List.mem_cons_of_mem n hm)]

theorem length_partsFrom {ns : List (Node α)} {s : Option StateSet}
    (h : ∀ n ∈ ns, ∀ path, (n.parts path s).length = n.drawableCount)
    (paths : Nat → List (Frame α)) (i : Nat) :
    (partsFrom paths s i ns).length = drawableCountAll ns := by
  induction ns generalizing i with
  | nil => rfl
  | cons n ns ih =>
    rw [partsFrom, List.length_append, h n List.mem_cons_self,
      ih (fun m hm => h m (List.mem_cons_of_mem n hm)), drawableCountAll]

theorem length_parts (n : Node α) (path : List (Frame α)) (s : Option StateSet) :
    (n.parts path s).length = n.drawableCount := by
  induction n generalizing path s with
  | branch a b children ih =>
    rw [parts, drawableCount]
    exact length_partsFrom (fun c hc path => ih c hc path _) _ 0
  | drawable | posed | particle => rfl

mutual

/-- No transform in the tree is static. -/
def IsBaked : Node α → Prop
  | .branch a (.transform _) children => a.variance ≠ .static ∧ AreBaked children
  | .branch _ _ children => AreBaked children
  | .drawable _ _ | .posed _ _ _ | .particle _ _ => True

def AreBaked : List (Node α) → Prop
  | [] => True
  | n :: rest => n.IsBaked ∧ AreBaked rest

end

theorem areBaked_iff {ns : List (Node α)} : AreBaked ns ↔ ∀ n ∈ ns, n.IsBaked := by
  induction ns with
  | nil => simp [AreBaked]
  | cons n ns ih => simp [AreBaked, ih]

theorem IsBaked.children {a : Attributes} {b : Branching α} {children : List (Node α)}
    (h : (branch a b children).IsBaked) : ∀ c ∈ children, c.IsBaked := by
  cases b with
  | transform m => exact areBaked_iff.1 h.2
  | group | switch | detail => exact areBaked_iff.1 h

theorem IsBaked.branch {a : Attributes} {b : Branching α} {children others : List (Node α)}
    (h : (branch a b children).IsBaked) (ho : ∀ c ∈ others, c.IsBaked) :
    (Node.branch a b others).IsBaked := by
  cases b with
  | transform m => exact ⟨h.1, areBaked_iff.2 ho⟩
  | group | switch | detail => exact areBaked_iff.2 ho

variable [Scalar α]

mutual

/-- The parts of a tree below the frames `path`, the state set `s` and static transforms with the
product `acc`. -/
def bakedParts (acc : Matrix α) (path : List (Frame α)) (s : Option StateSet) :
    Node α → List (Part α)
  | .branch a (.transform m) children =>
    if a.variance = .static then bakedPartsFrom (acc * m) (fun _ => path) (a.state.or s) 0 children
    else bakedPartsFrom .identity (fun _ => path ++ [.matrix (acc * m)]) (a.state.or s) 0 children
  | .branch a b children =>
    bakedPartsFrom acc (fun i => path ++ b.frames i) (a.state.or s) 0 children
  | .drawable a mesh => [⟨path, a.state.or s, .mesh (mesh.placed acc)⟩]
  | .posed a posing source =>
    [⟨if acc.isIdentity then path else path ++ [.matrix acc], a.state.or s, .posed posing source⟩]
  | .particle _ _ => []

def bakedPartsFrom (acc : Matrix α) (paths : Nat → List (Frame α)) (s : Option StateSet) (i : Nat) :
    List (Node α) → List (Part α)
  | [] => []
  | n :: rest => n.bakedParts acc (paths i) s ++ bakedPartsFrom acc paths s (i + 1) rest

end

/-- The parts of a tree, all static transforms below its root multiplied. -/
def flattenedParts : Node α → List (Part α)
  | .branch a b children => bakedPartsFrom .identity (fun i => b.frames i) a.state 0 children
  | n => n.parts [] none

theorem partsFrom_bakeAll {acc : Matrix α} {s : Option StateSet} {ns : List (Node α)}
    (h : ∀ n ∈ ns, ∀ path, (bake acc n).parts path s = n.bakedParts acc path s)
    (paths : Nat → List (Frame α)) (i : Nat) :
    partsFrom paths s i (bakeAll acc ns) = bakedPartsFrom acc paths s i ns := by
  induction ns generalizing i with
  | nil => rfl
  | cons n ns ih =>
    rw [bakeAll, partsFrom, bakedPartsFrom, h n List.mem_cons_self,
      ih fun m hm => h m (List.mem_cons_of_mem n hm)]

theorem parts_wrapped (acc : Matrix α) (n : Node α) (path : List (Frame α))
    (s : Option StateSet) :
    (wrapped acc n).parts path s =
      n.parts (if acc.isIdentity then path else path ++ [.matrix acc]) s := by
  unfold wrapped
  split
  · rfl
  · rw [parts_transform, List.flatMap_singleton]
    rfl

theorem parts_bake (n : Node α) (acc : Matrix α) (path : List (Frame α)) (s : Option StateSet) :
    (bake acc n).parts path s = n.bakedParts acc path s := by
  induction n generalizing acc path s with
  | branch a b children ih =>
    have hall (acc : Matrix α) (paths : Nat → List (Frame α)) (s : Option StateSet) :
        partsFrom paths s 0 (bakeAll acc children) = bakedPartsFrom acc paths s 0 children :=
      partsFrom_bakeAll (fun c hc path => ih c hc acc path s) paths 0
    cases b with
    | transform m =>
      rw [bake, bakedParts]
      split
      · rw [parts_group, ← partsFrom_const path _ 0]
        exact hall _ _ _
      · exact hall _ _ _
    | group | switch | detail => exact hall _ _ _
  | drawable a mesh => rfl
  | posed a posing source _ => exact parts_wrapped acc _ path s
  | particle a role => exact parts_wrapped acc _ path s

/-- Baking leaves the parts that are read off the tree with its static transforms multiplied. -/
theorem parts_baked (root : Node α) : root.baked.parts [] none = root.flattenedParts := by
  cases root with
  | branch a b children =>
    rw [baked, parts, flattenedParts, Option.or_none]
    exact partsFrom_bakeAll (fun c _ path => parts_bake c .identity path _) _ 0
  | drawable | posed | particle => rfl

theorem isBaked_wrapped (acc : Matrix α) {n : Node α} (hn : n.IsBaked) :
    (wrapped acc n).IsBaked := by
  unfold wrapped
  split
  · exact hn
  · refine ⟨?_, hn, trivial⟩
    rw [Attributes.fresh]
    simp

theorem isBaked_bake (acc : Matrix α) (n : Node α) : (bake acc n).IsBaked := by
  induction n generalizing acc with
  | branch a b children ih =>
    have hall (acc : Matrix α) : AreBaked (bakeAll acc children) := by
      rw [bakeAll_eq, areBaked_iff]
      intro c hc
      obtain ⟨d, hd, rfl⟩ := List.mem_map.1 hc
      exact ih d hd acc
    cases b with
    | transform m =>
      rw [bake]
      split
      · exact hall _
      · exact ⟨‹_›, hall _⟩
    | group | switch | detail => exact hall acc
  | drawable a mesh => trivial
  | posed a posing source _ => exact isBaked_wrapped acc trivial
  | particle a role => exact isBaked_wrapped acc trivial

theorem isBaked_baked (root : Node α) : ∀ c ∈ root.baked.children, c.IsBaked := by
  intro c hc
  cases root with
  | branch a b children =>
    rw [baked, Node.children, bakeAll_eq] at hc
    obtain ⟨d, -, rfl⟩ := List.mem_map.1 hc
    exact isBaked_bake _ d
  | drawable | posed | particle => cases hc

/-- A count over trees that adds up over the children of whatever branches. Where a drawable lies
makes no difference. -/
structure IsTotal (count : Node α → Nat) : Prop where
  branch : ∀ (a a' : Attributes) (b b' : Branching α) (ns : List (Node α)) (f : Node α → Node α),
    (∀ n ∈ ns, count (f n) = count n) → count (.branch a b (ns.map f)) = count (.branch a' b' ns)
  singleton : ∀ a b n, count (.branch a b [n]) = count n
  moved : ∀ a mesh x, count (.drawable a (mesh.moved x)) = count (.drawable a mesh)

namespace IsTotal

variable {count : Node α → Nat}

theorem wrapped (h : IsTotal count) (acc : Matrix α) (n : Node α) :
    count (n.wrapped acc) = count n := by
  unfold Node.wrapped
  split
  · rfl
  · exact h.singleton _ _ n

theorem bake (h : IsTotal count) (n : Node α) (acc : Matrix α) : count (n.bake acc) = count n := by
  induction n generalizing acc with
  | branch a b children ih =>
    have hall (acc : Matrix α) (b' : Branching α) :
        count (.branch a b' (bakeAll acc children)) = count (.branch a b children) := by
      rw [bakeAll_eq]
      exact h.branch a a b' b children _ fun c hc => ih c hc acc
    cases b with
    | transform m =>
      rw [Node.bake]
      split
      · exact hall _ _
      · exact hall _ _
    | group | switch | detail => exact hall acc _
  | drawable a mesh =>
    rw [Node.bake]
    split
    · rfl
    · exact h.moved a mesh acc
  | posed a posing source _ => exact h.wrapped acc _
  | particle a role => exact h.wrapped acc _

theorem baked (h : IsTotal count) (root : Node α) : count root.baked = count root := by
  cases root with
  | branch a b children =>
    rw [Node.baked, bakeAll_eq]
    exact h.branch a a b b children _ fun c _ => h.bake c .identity
  | drawable | posed | particle => rfl

end IsTotal

theorem isTotal_drawableCount : IsTotal (drawableCount : Node α → Nat) where
  branch a a' b b' ns f hf := by
    rw [drawableCount, drawableCount]
    exact drawableCountAll_map hf
  singleton a b n := Nat.add_zero _
  moved a mesh x := rfl

theorem length_flattenedParts (root : Node α) :
    root.flattenedParts.length = root.drawableCount := by
  rw [← parts_baked, length_parts]
  exact isTotal_drawableCount.baked root

end Node

end DistantChunks
