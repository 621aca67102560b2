import DistantChunks.Proofs.Collapse

/-!
# Materials and masks of a static copy

A trail leads from the root of a tree to a drawable that is active at some distance, and passes the
sources of posed nodes on the way. A drawable is drawn with the innermost state set on its trail,
and a traversal comes to it with the bits that all masks on the trail share.

A copy makes fresh groups of switches and levels of detail, which loses their masks, and puts the
source in the place of a posed node, which loses its mask and its state set.
`looks_staticCopy_eq_iff` says that the copy looks like its template exactly when no trail misses
what is lost.
-/

namespace DistantChunks

variable {α : Type}

inductive Landmark where
  | placing (a : Attributes)
  | choosing (a : Attributes)
  | posing (a : Attributes)
  | drawing (a : Attributes)

/-- The state set and the mask with which a traversal arrives at a drawable. -/
structure Look where
  state : Option StateSet
  mask : UInt32
  deriving DecidableEq

namespace Look

def bare : Look := ⟨none, Attributes.maskAll⟩

def under (x : Look) (a : Attributes) : Look := ⟨a.state.or x.state, x.mask &&& a.mask⟩

def pass (x : Look) : Landmark → Look
  | .placing a | .choosing a | .posing a | .drawing a => x.under a

/-- What is left of a node in a copy. -/
def passCopied (x : Look) : Landmark → Look
  | .placing a | .drawing a => x.under a
  | .choosing a => ⟨a.state.or x.state, x.mask⟩
  | .posing _ => x

end Look

def Branching.landmark (b : Branching α) (a : Attributes) : Landmark :=
  if b.isPlacing then .placing a else .choosing a

theorem Look.pass_landmark_copied (x : Look) (a : Attributes) (b : Branching α) :
    x.pass (b.copied.landmark (b.copiedAttributes a)) = x.passCopied (b.landmark a) := by
  have hall : x.mask &&& Attributes.maskAll = x.mask := UInt32.and_neg_one
  rw [Branching.landmark, if_pos b.isPlacing_copied, Branching.landmark, Branching.copiedAttributes]
  cases hb : b.isPlacing with
  | true => rfl
  | false =>
    rw [if_neg (by simp), if_neg (by simp), Look.passCopied, Look.pass, Look.under]
    exact congrArg _ hall

theorem Look.map_foldl_cons (f : Look → Landmark → Look) (x : Look) (l : Landmark)
    (ts : List (List Landmark)) :
    (ts.map (l :: ·)).map (List.foldl f x) = ts.map (List.foldl f (f x l)) := by
  rw [List.map_map]
  rfl

namespace Node

variable [Scalar α]

mutual

/-- The trails to the drawables of a tree that are active at a distance, in the order of the
tree. -/
def trails (distance : α) : Node α → List (List Landmark)
  | .branch a b children =>
    (b.shown distance (trailsAll distance children)).flatten.map (b.landmark a :: ·)
  | .drawable a _ => [[.drawing a]]
  | .posed a _ source => (source.trails distance).map (.posing a :: ·)
  | .particle _ _ => []

def trailsAll (distance : α) : List (Node α) → List (List (List Landmark))
  | [] => []
  | n :: rest => n.trails distance :: trailsAll distance rest

end

theorem trailsAll_eq (distance : α) (ns : List (Node α)) :
    trailsAll distance ns = ns.map (trails distance) := by
  induction ns with
  | nil => rfl
  | cons n ns ih => rw [trailsAll, ih, List.map_cons]

theorem trails_branch (distance : α) (a : Attributes) (b : Branching α)
    (children : List (Node α)) : (branch a b children).trails distance =
      ((b.shown distance children).flatMap (trails distance)).map (b.landmark a :: ·) := by
  rw [trails, trailsAll_eq, Branching.shown_map, List.flatMap_def]

def looks (distance : α) (n : Node α) : List Look :=
  (n.trails distance).map (List.foldl Look.pass .bare)

theorem map_trails_staticCopy (deep : Bool) (distance elsewhere : α) (n : Node α) (x : Look) :
    ((n.staticCopy deep distance).toList.flatMap (trails elsewhere)).map (List.foldl Look.pass x) =
      (n.trails distance).map (List.foldl Look.passCopied x) := by
  induction n generalizing x with
  | branch a b children ih =>
    have hshown (ns : List (Node α)) : b.copied.shown elsewhere ns = ns := by
      cases b <;> rfl
    rw [staticCopy_branch, Option.toList_some, List.flatMap_singleton, trails_branch,
      trails_branch, hshown, Look.map_foldl_cons, Look.map_foldl_cons, Look.pass_landmark_copied,
      List.filterMap_eq_flatMap_toList, List.flatMap_assoc, List.map_flatMap, List.map_flatMap]
    exact List.flatMap_congr fun c hc => ih c (Branching.mem_of_mem_shown hc) _
  | drawable a mesh => cases deep <;> rfl
  | posed a posing source ih =>
    rw [trails, Look.map_foldl_cons]
    exact ih x
  | particle a role => rfl

/-- A copy shows its drawables with the state sets and masks of the template exactly when every
trail gives the same with what is left of its nodes. -/
theorem looks_staticCopy_eq_iff (deep : Bool) (distance elsewhere : α) (n : Node α) :
    (n.staticCopy deep distance).toList.flatMap (looks elsewhere) = n.looks distance ↔
      ∀ t ∈ n.trails distance, t.foldl Look.passCopied .bare = t.foldl Look.pass .bare := by
  have hcopy : (n.staticCopy deep distance).toList.flatMap (looks elsewhere) =
      (n.trails distance).map (List.foldl Look.passCopied .bare) := by
    rw [← map_trails_staticCopy deep distance elsewhere, List.map_flatMap]
    rfl
  rw [hcopy, looks]
  exact List.map_inj_left

def velvet : StateSet := ⟨0, "velvet", false⟩

/-- A banner of two cloths: one behind a switch that some traversals do not enter, one posed by a
rig that has the state set. -/
def banner : Node Float32 :=
  .group [
    .branch { Attributes.fresh with mask := 1 } (.switch [true])
      [.drawable .fresh (.cuboid ⟨1, 1, 1⟩)],
    .posed { Attributes.fresh with state := some velvet } .rig
      (.drawable .fresh (.cuboid ⟨1, 1, 1⟩))]

/-- In a copy of the banner the first cloth is seen by all and the second is without its state
set. -/
theorem looks_copied_banner :
    banner.looks 0 = [⟨none, 1⟩, ⟨some velvet, Attributes.maskAll⟩] ∧
      (banner.staticCopy true 0).toList.flatMap (looks 0) = [.bare, .bare] := by
  decide

end Node

end DistantChunks
