import DistantChunks.Proofs.Accounts
import DistantChunks.Proofs.Positions

/-!
# Static copies draw what is active

At a distance the children of a switch that are on are active, and the children of a level of
detail whose range holds the distance. A static copy has the drawables that are reached through
active children and sources of posed nodes, in the same order and below the same matrices, and
nothing else. What it is made of stays as it is when it is copied once more.
-/

namespace DistantChunks

variable {α : Type}

theorem pick_eq_map_zip {β : Type} (flags : List Bool) (xs : List β) :
    pick flags xs = ((flags.zip xs).filter (·.1)).map (·.2) := by
  induction flags generalizing xs with
  | nil => rfl
  | cons flag flags ih =>
    cases xs with
    | nil => cases flag <;> rfl
    | cons x xs => cases flag <;> simp [pick, ih]

namespace Branching

def matrices : Branching α → List (Matrix α)
  | .transform m => [m]
  | _ => []

theorem copied_of_isPlacing {b : Branching α} (hb : b.isPlacing = true) : b.copied = b := by
  cases b with
  | group | transform => rfl
  | switch | detail => cases hb

variable [Scalar α]

theorem shown_of_isPlacing {β : Type} {b : Branching α} (hb : b.isPlacing = true) (distance : α)
    (xs : List β) : b.shown distance xs = xs := by
  cases b with
  | group | transform => rfl
  | switch | detail => cases hb

def active {β : Type} (distance : α) : Branching α → List β → List β
  | .group, xs | .transform _, xs => xs
  | .switch flags, xs => ((flags.zip xs).filter (·.1)).map (·.2)
  | .detail ranges, xs =>
    ((ranges.zip xs).filter fun c => c.1.near ≤ distance ∧ distance < c.1.far).map (·.2)

theorem shown_eq_active {β : Type} (distance : α) (b : Branching α) (xs : List β) :
    b.shown distance xs = b.active distance xs := by
  cases b with
  | group | transform => rfl
  | switch flags => exact pick_eq_map_zip flags xs
  | detail ranges =>
    rw [shown, pick_eq_map_zip, List.zip_map_left, List.filter_map, List.map_map, active]
    simp [DetailRange.holds, Function.comp_def]

end Branching

theorem Attributes.IsAnonymous.stripped_eq {a : Attributes} (h : a.IsAnonymous) :
    a.stripped = a := by
  obtain ⟨name, state, callbacks, userData, variance, mask⟩ := a
  obtain ⟨rfl, rfl, rfl, rfl⟩ := h
  rfl

/-- A drawable with the matrices of the transforms on its path, from the root down. -/
structure Located (α : Type) where
  path : List (Matrix α)
  node : Node α

namespace Located

def outline (l : Located α) : List (Matrix α) × Option (Array (Vec3 α) × Array UInt32) :=
  (l.path, l.node.mesh?.map fun mesh => (mesh.vertices, mesh.indices))

/-- The drawable in a copy; only a deep copy strips it. -/
def copied (deep : Bool) (l : Located α) : Located α :=
  if deep then { l with node := l.node.withAttributes l.node.attributes.stripped } else l

theorem outline_copied (deep : Bool) (l : Located α) : (l.copied deep).outline = l.outline := by
  obtain ⟨path, node⟩ := l
  cases deep with
  | false => rfl
  | true => cases node <;> rfl

end Located

namespace Node

mutual

def located (path : List (Matrix α)) : Node α → List (Located α)
  | .branch _ b children => locatedAll (path ++ b.matrices) children
  | .drawable a mesh => [⟨path, .drawable a mesh⟩]
  | .posed a posing source => [⟨path, .posed a posing source⟩]
  | .particle _ _ => []

def locatedAll (path : List (Matrix α)) : List (Node α) → List (Located α)
  | [] => []
  | n :: rest => n.located path ++ locatedAll path rest

end

theorem locatedAll_eq (path : List (Matrix α)) (ns : List (Node α)) :
    locatedAll path ns = ns.flatMap (located path) := by
  induction ns with
  | nil => rfl
  | cons n ns ih => rw [locatedAll, ih, List.flatMap_cons]

variable [Scalar α]

mutual

/-- The drawables that are active at a distance, from left to right. A posed node stands for its
source. -/
def active (distance : α) (path : List (Matrix α)) : Node α → List (Located α)
  | .branch _ b children =>
    (b.active distance (activeAll distance (path ++ b.matrices) children)).flatten
  | .drawable a mesh => [⟨path, .drawable a mesh⟩]
  | .posed _ _ source => source.active distance path
  | .particle _ _ => []

def activeAll (distance : α) (path : List (Matrix α)) : List (Node α) → List (List (Located α))
  | [] => []
  | n :: rest => n.active distance path :: activeAll distance path rest

end

theorem activeAll_eq (distance : α) (path : List (Matrix α)) (ns : List (Node α)) :
    activeAll distance path ns = ns.map (active distance path) := by
  induction ns with
  | nil => rfl
  | cons n ns ih => rw [activeAll, ih, List.map_cons]

theorem active_branch (distance : α) (path : List (Matrix α)) (a : Attributes) (b : Branching α)
    (children : List (Node α)) : (branch a b children).active distance path =
      (b.shown distance children).flatMap (active distance (path ++ b.matrices)) := by
  rw [active, activeAll_eq, ← Branching.shown_eq_active, Branching.shown_map, List.flatMap_def]

theorem located_staticCopy (deep : Bool) (distance : α) (n : Node α) (path : List (Matrix α)) :
    (n.staticCopy deep distance).toList.flatMap (located path) =
      (n.active distance path).map (Located.copied deep) := by
  induction n generalizing path with
  | branch a b children ih =>
    have hmatrices : b.copied.matrices = b.matrices := by cases b <;> rfl
    rw [staticCopy_branch, Option.toList_some, List.flatMap_singleton, located, locatedAll_eq,
      hmatrices, active_branch, List.filterMap_eq_flatMap_toList, List.flatMap_assoc,
      List.map_flatMap]
    exact List.flatMap_congr fun c hc => ih c (Branching.mem_of_mem_shown hc) _
  | drawable a mesh => cases deep <;> rfl
  | posed a posing source ih =>
    -- The copy of the source takes the place of the node, below the same matrices.
    exact ih path
  | particle a role => rfl

/-- A copy draws exactly the active geometry, and there is none only for a root that leads to
particles. -/
theorem staticCopy_draws_active (deep : Bool) (distance : α) (n : Node α) :
    ((n.staticCopy deep distance).toList.flatMap (located [])).map Located.outline =
        (n.active distance []).map Located.outline ∧
      (n.staticCopy deep distance = none ↔ n.leadsToParticles = true) := by
  refine ⟨?_, staticCopy_eq_none_iff⟩
  rw [located_staticCopy, List.map_map]
  exact List.map_congr_left fun l _ => l.outline_copied deep

section Still

omit [Scalar α] in
/-- A node that a copy may consist of. Only in a deep copy the drawables are anonymous too. -/
def IsStill (deep : Bool) : Node α → Prop
  | .branch a b _ => b.isPlacing = true ∧ a.IsAnonymous
  | .drawable a _ => deep = true → a.IsAnonymous
  | .posed _ _ _ | .particle _ _ => False

variable {deep : Bool} {distance : α} {n c : Node α}

theorem isStill_of_staticCopy (h : n.staticCopy deep distance = some c) :
    ∀ p x, c.at? p = some x → x.IsStill deep := by
  induction n generalizing c with
  | branch a b children ih =>
    rw [staticCopy_branch, Option.some.injEq] at h
    subst h
    refine forall_at?_iff.2 ⟨⟨b.isPlacing_copied, b.isAnonymous_copiedAttributes a⟩, fun d hd => ?_⟩
    obtain ⟨e, he, hcopy⟩ := List.mem_filterMap.1 hd
    exact ih e (Branching.mem_of_mem_shown he) hcopy
  | drawable a mesh =>
    simp only [staticCopy, Option.some.injEq] at h
    subst h
    refine forall_at?_iff.2 ⟨fun hdeep => ?_, by simp [children]⟩
    rw [if_pos hdeep]
    exact a.isAnonymous_stripped
  | posed a posing source ih => exact ih h
  | particle a role => cases h

theorem staticCopy_of_isStill (h : ∀ p x, n.at? p = some x → x.IsStill deep) (distance : α) :
    n.staticCopy deep distance = some n := by
  induction n with
  | branch a b children ih =>
    obtain ⟨⟨hb, ha⟩, hchildren⟩ := forall_at?_iff.1 h
    have hcopies : children.filterMap (staticCopy deep distance) = children := by
      rw [List.filterMap_congr fun c hc => ih c hc (hchildren c hc), List.filterMap_some]
    rw [staticCopy_branch, Branching.copiedAttributes, if_pos hb, ha.stripped_eq,
      Branching.copied_of_isPlacing hb, Branching.shown_of_isPlacing hb, hcopies]
  | drawable a mesh =>
    have ha : deep = true → a.IsAnonymous := (forall_at?_iff.1 h).1
    cases deep with
    | false => rfl
    | true => rw [staticCopy, if_pos rfl, (ha rfl).stripped_eq]
  | posed | particle => exact (forall_at?_iff.1 h).1.elim

/-- A copy consists of anonymous groups and transforms, of drawables that are anonymous in a deep
copy and the very ones of the template in a shallow one, and it is its own copy. -/
theorem staticCopy_settles (h : n.staticCopy deep distance = some c) (elsewhere : α) :
    (∀ p x, c.at? p = some x → x.IsStill deep) ∧
      (deep = false → c.located [] = n.active distance []) ∧
      c.staticCopy deep elsewhere = some c := by
  have hstill := isStill_of_staticCopy h
  refine ⟨hstill, ?_, staticCopy_of_isStill hstill elsewhere⟩
  rintro rfl
  have hlocated := located_staticCopy false distance n []
  rw [h, Option.toList_some, List.flatMap_singleton] at hlocated
  exact hlocated.trans (List.map_id _)

end Still

end Node

/-- Of a lantern its frame, the pane without its swing and the flame that is shown are copied. -/
theorem Synthesis.lantern_copy_settles :
    let root := lantern.value.root
    ∃ c, root.staticCopy false 0 = some c ∧ (c.located []).length = 3 ∧
      (∀ p x, c.at? p = some x → x.IsStill false) ∧ c.located [] = root.active 0 [] ∧
      c.staticCopy false 100 = some c := by
  intro root
  obtain ⟨c, hc⟩ : ∃ c, root.staticCopy false 0 = some c := ⟨_, rfl⟩
  obtain ⟨hstill, hlocated, hagain⟩ := Node.staticCopy_settles hc 100
  refine ⟨c, hc, ?_, hstill, hlocated rfl, hagain⟩
  rw [hlocated rfl]
  rfl

end DistantChunks
