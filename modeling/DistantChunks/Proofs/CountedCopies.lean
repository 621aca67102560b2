import DistantChunks.Proofs.ActiveDrawables
import DistantChunks.Proofs.PreorderCensus
import Mathlib.Algebra.Order.BigOperators.Group.List
import Mathlib.Algebra.Order.Group.Nat
import Mathlib.Data.List.Flatten

/-!
# A census counts whatever a copy draws

A census counts the vertices and drawables of all children, whether they are shown or not, and
takes a posed node for the mesh of its source. A static copy takes over some children and the
sources themselves. The meshes that it draws are a sublist of the meshes that were counted, so a
census is at most too great, and it is exact where nothing is hidden. This needs sources that are
drawables: a source that branches may hold more than the one drawable that is counted for it.
-/

namespace DistantChunks

variable {α : Type}

namespace Tally

variable {κ : Type} [DecidableEq κ]

def total (t : Tally κ) : Nat := (t.entries.map (·.2)).sum

theorem total_add (t : Tally κ) (k : κ) : (t.add k).total = t.total + 1 := by
  obtain ⟨entries⟩ := t
  simp only [add, total]
  induction entries with
  | nil => rfl
  | cons e rest ih =>
    obtain ⟨l, n⟩ := e
    by_cases h : l = k
    · simp only [increment, if_pos h, List.map_cons, List.sum_cons]
      omega
    · simp only [increment, if_neg h, List.map_cons, List.sum_cons, ih]
      omega

end Tally

namespace Node

/-- The drawables of a tree; a posed node is one of them, whatever its source is. -/
def drawables (n : Node α) : List (Node α) := n.preorder.filter isDrawable

theorem drawables_branch (a : Attributes) (b : Branching α) (children : List (Node α)) :
    (branch a b children).drawables = children.flatMap drawables := by
  rw [drawables, preorder, List.filter_cons_of_neg (by simp [isDrawable]), preorderAll_eq,
    List.filter_flatMap]
  rfl

theorem map_node_located (n : Node α) (path : List (Matrix α)) :
    (n.located path).map (·.node) = n.drawables := by
  induction n generalizing path with
  | branch a b children ih =>
    rw [located, locatedAll_eq, List.map_flatMap, drawables_branch]
    exact List.flatMap_congr fun c hc => ih c hc _
  | drawable | posed | particle => rfl

/-- If the node is posed, its source is a drawable, and so on down to a mesh. -/
def DrawsSource : Node α → Prop
  | .posed _ _ source => source.isDrawable = true ∧ source.DrawsSource
  | .branch _ _ _ | .drawable _ _ | .particle _ _ => True

def HasDrawableSources (n : Node α) : Prop := ∀ m ∈ n.preorder, m.DrawsSource

theorem preorder_subset_of_mem {a : Attributes} {b : Branching α} {children : List (Node α)}
    {c : Node α} (hc : c ∈ children) : c.preorder ⊆ (branch a b children).preorder := by
  intro m hm
  rw [preorder, preorderAll_eq]
  exact List.mem_cons_of_mem _ (List.mem_flatMap.2 ⟨c, hc, hm⟩)

end Node

theorem pick_sublist {β : Type} (flags : List Bool) (xs : List β) : (pick flags xs).Sublist xs := by
  induction flags generalizing xs with
  | nil => exact List.nil_sublist xs
  | cons flag flags ih =>
    cases xs with
    | nil => cases flag <;> exact .slnil
    | cons x xs =>
      cases flag with
      | true => exact (ih xs).cons_cons x
      | false => exact (ih xs).cons x

theorem pick_replicate_true {β : Type} (xs : List β) :
    pick (List.replicate xs.length true) xs = xs := by
  induction xs with
  | nil => rfl
  | cons x xs ih => rw [List.length_cons, List.replicate_succ, pick, ih]

namespace Branching

variable [Scalar α] {β : Type}

theorem shown_sublist (distance : α) (b : Branching α) (xs : List β) :
    (b.shown distance xs).Sublist xs := by
  cases b with
  | group | transform => exact .refl xs
  | switch | detail => exact pick_sublist _ xs

/-- Each of `n` children has a flag that is on or a range that holds the distance. -/
def ShowsAll (distance : α) (n : Nat) : Branching α → Prop
  | .group | .transform _ => True
  | .switch flags => flags.length = n ∧ ∀ flag ∈ flags, flag = true
  | .detail ranges => ranges.length = n ∧ ∀ r ∈ ranges, r.near ≤ distance ∧ distance < r.far

theorem shown_of_showsAll {distance : α} {b : Branching α} {xs : List β}
    (h : b.ShowsAll distance xs.length) : b.shown distance xs = xs := by
  cases b with
  | group | transform => rfl
  | switch flags =>
    rw [shown, List.eq_replicate_of_mem h.2, h.1, pick_replicate_true]
  | detail ranges =>
    have hall : ∀ flag ∈ ranges.map (·.holds distance), flag = true := by
      intro flag hflag
      obtain ⟨r, hr, rfl⟩ := List.mem_map.1 hflag
      rw [DetailRange.holds, Bool.and_eq_true, decide_eq_true_eq, decide_eq_true_eq]
      exact h.2 r hr
    rw [shown, List.eq_replicate_of_mem hall, List.length_map, h.1, pick_replicate_true]

end Branching

namespace Node

variable [Scalar α]

def ShowsChildren (distance : α) : Node α → Prop
  | .branch _ b children => b.ShowsAll distance children.length
  | .drawable _ _ | .posed _ _ _ | .particle _ _ => True

def IsAllShown (distance : α) (n : Node α) : Prop := ∀ m ∈ n.preorder, m.ShowsChildren distance

theorem active_of_drawsSource {n : Node α} (hdrawable : n.isDrawable = true) (h : n.DrawsSource)
    (distance : α) (path : List (Matrix α)) :
    (n.active distance path).map (·.node.mesh?) = [n.mesh?] := by
  induction n with
  | branch | particle => cases hdrawable
  | drawable a mesh => rfl
  | posed a posing source ih => exact ih h.1 h.2

/-- The meshes of the active drawables are found among those of all drawables, in order. -/
theorem active_sublist {n : Node α} (h : n.HasDrawableSources) (distance : α)
    (path : List (Matrix α)) :
    ((n.active distance path).map (·.node.mesh?)).Sublist (n.drawables.map mesh?) := by
  induction n generalizing path with
  | branch a b children ih =>
    rw [active_branch, List.map_flatMap, drawables_branch, List.map_flatMap]
    exact ((b.shown_sublist distance children).flatMap _).trans <|
      List.Sublist.flatMap_right children fun c hc =>
        ih c hc (fun m hm => h m (preorder_subset_of_mem hc hm)) _
  | drawable a mesh => exact .refl _
  | posed a posing source _ =>
    have hsource : (posed a posing source).DrawsSource := h _ (List.mem_singleton_self _)
    rw [active_of_drawsSource rfl hsource]
    exact .refl _
  | particle a role => exact .slnil

theorem active_of_isAllShown {n : Node α} (h : n.HasDrawableSources) {distance : α}
    (hall : n.IsAllShown distance) (path : List (Matrix α)) :
    (n.active distance path).map (·.node.mesh?) = n.drawables.map mesh? := by
  induction n generalizing path with
  | branch a b children ih =>
    have hshown : b.shown distance children = children :=
      Branching.shown_of_showsAll (hall _ List.mem_cons_self)
    rw [active_branch, hshown, List.map_flatMap, drawables_branch, List.map_flatMap]
    refine List.flatMap_congr fun c hc => ?_
    have hsub := preorder_subset_of_mem (a := a) (b := b) hc
    exact ih c hc (fun m hm => h m (hsub hm)) (fun m hm => hall m (hsub hm)) _
  | drawable a mesh => rfl
  | posed a posing source _ =>
    exact active_of_drawsSource rfl (h _ (List.mem_singleton_self _)) distance path
  | particle a role => rfl

theorem map_mesh?_copied (deep : Bool) (distance : α) (n : Node α) :
    ((n.staticCopy deep distance).toList.flatMap drawables).map mesh? =
      (n.active distance []).map (·.node.mesh?) := by
  have hcopied := located_staticCopy deep distance n []
  have hmesh (l : Located α) : (l.copied deep).node.mesh? = l.node.mesh? := by
    obtain ⟨path, node⟩ := l
    cases deep with
    | false => rfl
    | true => cases node <;> rfl
  have hdrawables : (n.staticCopy deep distance).toList.flatMap drawables =
      ((n.active distance []).map (Located.copied deep)).map (·.node) := by
    rw [← hcopied, List.map_flatMap]
    exact List.flatMap_congr fun c _ => (map_node_located c []).symm
  rw [hdrawables, List.map_map, List.map_map]
  exact List.map_congr_left fun l _ => hmesh l

end Node

namespace Census

open Node

theorem total_foldl_pass (ns : List (Node α)) (w : Walk) :
    (ns.foldl Walk.pass w).census.counts.total =
      w.census.counts.total + (ns.filter isDrawable).length := by
  induction ns generalizing w with
  | nil => rfl
  | cons n ns ih =>
    rw [List.foldl_cons, ih, Walk.pass]
    cases hn : n.isDrawable with
    | false => rw [List.filter_cons_of_neg (by simp [hn]), if_neg Bool.false_ne_true,
        Walk.census_enter]
    | true =>
      rw [List.filter_cons_of_pos hn, if_pos rfl, Walk.addDrawable, Tally.total_add,
        Walk.census_enter, List.length_cons]
      omega

theorem total_take (root : Node α) (usage : StateTally) :
    (take root usage).1.counts.total = root.drawables.length := by
  change (visit (.start usage) root).census.counts.total = _
  rw [visit_eq_foldl, total_foldl_pass]
  exact Nat.zero_add _

theorem vertices_take (root : Node α) (usage : StateTally) :
    (take root usage).1.vertices = min (root.drawables.map vertexCount).sum greatestCount := by
  have hagrees := (Walk.Agrees.start usage).foldl root.preorder
  rw [← visit_eq_foldl, Reading.foldl_read_start] at hagrees
  exact hagrees.vertices

variable [Scalar α]

/-- A copy has at most the vertices and the drawables that are counted, and all of them if every
child is shown. -/
theorem copied_le_census {root : Node α} (hsources : root.HasDrawableSources) (deep : Bool)
    (distance : α) (usage : StateTally) :
    let copied := (root.staticCopy deep distance).toList.flatMap drawables
    let census := (take root usage).1
    (copied.map vertexCount).sum ≤ greatestCount →
      ((copied.map vertexCount).sum ≤ census.vertices ∧ copied.length ≤ census.counts.total) ∧
        (root.IsAllShown distance →
          (copied.map vertexCount).sum = census.vertices ∧
            copied.length = census.counts.total) := by
  intro copied census hfit
  let count (mesh : Option (Mesh α)) : Nat := (mesh.map Mesh.vertexCount).getD 0
  have hmeshes : copied.map mesh? = (root.active distance []).map (·.node.mesh?) :=
    map_mesh?_copied deep distance root
  have hvertices (ns : List (Node α)) : (ns.map mesh?).map count = ns.map vertexCount :=
    List.map_map
  have hsub : (copied.map mesh?).Sublist (root.drawables.map mesh?) :=
    hmeshes ▸ active_sublist hsources distance []
  have hsum : (copied.map vertexCount).sum ≤ (root.drawables.map vertexCount).sum := by
    rw [← hvertices, ← hvertices]
    exact (hsub.map count).sum_le_sum fun _ _ => Nat.zero_le _
  have hcensus : census.vertices = min (root.drawables.map vertexCount).sum greatestCount :=
    vertices_take root usage
  have htotal : census.counts.total = root.drawables.length := total_take root usage
  refine ⟨⟨hcensus ▸ le_min hsum hfit, ?_⟩, fun hall => ?_⟩
  · simpa [htotal] using hsub.length_le
  · have heq : copied.map mesh? = root.drawables.map mesh? :=
      hmeshes.trans (active_of_isAllShown hsources hall [])
    have hcounts : copied.map vertexCount = root.drawables.map vertexCount := by
      rw [← hvertices, heq, hvertices]
    rw [hcensus, htotal, ← hcounts, min_eq_left hfit]
    exact ⟨rfl, by simpa using congrArg List.length heq⟩

/-- A mill with a lamp that may be off, a wheel in two levels of detail, and sails that are
skinned and morphed. -/
def mill (lit : Bool) : Node Float32 :=
  .branch .fresh .group [
    .branch .fresh (.switch [true, lit]) [
      .drawable .fresh (.cuboid ⟨4, 4, 9⟩), .drawable .fresh (.cuboid ⟨1, 1, 1⟩)],
    .branch .fresh (.detail [⟨0, 100⟩, ⟨0, 200⟩]) [
      .drawable .fresh (.cuboid ⟨2, 1, 2⟩), .drawable .fresh (.cuboid ⟨3, 1, 3⟩)],
    .posed .fresh .rig (.posed .fresh .morph (.drawable .fresh (.cuboid ⟨8, 1, 1⟩))),
    .particle .fresh .system]

theorem hasDrawableSources_mill (lit : Bool) : (mill lit).HasDrawableSources := by
  simp [mill, HasDrawableSources, preorder, preorderAll, DrawsSource, isDrawable]

theorem isAllShown_mill : (mill true).IsAllShown 50 := by
  have hranges : ((0 : Float32) ≤ 50 ∧ (50 : Float32) < 100) ∧
      (0 : Float32) ≤ 50 ∧ (50 : Float32) < 200 := by decide
  simpa [mill, IsAllShown, preorder, preorderAll, ShowsChildren, Branching.ShowsAll] using hranges

/-- Without the lamp one of five drawables with eight vertices each is counted but not copied. -/
theorem mill_copied_le_census :
    let dark := ((mill false).staticCopy true 50).toList.flatMap drawables
    let bright := ((mill true).staticCopy true 50).toList.flatMap drawables
    (dark.length = 4 ∧ (dark.map vertexCount).sum ≤ (take (mill false) .empty).1.vertices ∧
      dark.length ≤ (take (mill false) .empty).1.counts.total) ∧
    bright.length = 5 ∧ (bright.map vertexCount).sum = (take (mill true) .empty).1.vertices ∧
      bright.length = (take (mill true) .empty).1.counts.total := by
  intro dark bright
  have hdark := copied_le_census (hasDrawableSources_mill false) true 50 .empty (by decide)
  have hbright := copied_le_census (hasDrawableSources_mill true) true 50 .empty (by decide)
  exact ⟨⟨by decide, hdark.1⟩, by decide, hbright.2 isAllShown_mill⟩

end Census

end DistantChunks
