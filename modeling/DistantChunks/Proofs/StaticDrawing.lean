import DistantChunks.Proofs.Drawing
import DistantChunks.Scene.Baking
import DistantChunks.Scene.Lifting
import DistantChunks.Scene.StaticCopy
import Mathlib.Data.List.Basic

/-!
# Copying, baking and lifting keep what is drawn

A deep copy draws the same as a shallow one, drawable by drawable. Baking keeps every drawable of a
tree in which all transforms are static and nothing draws from elsewhere, and lifting keeps every
drawable of any tree.
-/

namespace DistantChunks

variable {α : Type}

theorem mem_of_mem_pick {β : Type} {flags : List Bool} {xs : List β} {x : β}
    (h : x ∈ pick flags xs) : x ∈ xs := by
  induction flags generalizing xs with
  | nil => simp [pick] at h
  | cons flag flags ih => cases flag <;> cases xs <;> grind [pick]

namespace Branching

theorem copiedAttributes_variance (b : Branching α) (a : Attributes) :
    (b.copiedAttributes a).variance = .static := by
  unfold copiedAttributes
  split <;> rfl

variable [Scalar α]

theorem shown_map {β γ : Type} (f : β → γ) (b : Branching α) (distance : α) (xs : List β) :
    b.shown distance (xs.map f) = (b.shown distance xs).map f := by
  cases b <;> simp [shown, pick_map]

theorem mem_of_mem_shown {β : Type} {b : Branching α} {distance : α} {xs : List β} {x : β}
    (h : x ∈ b.shown distance xs) : x ∈ xs := by
  cases b with
  | group | transform => exact h
  | switch | detail => exact mem_of_mem_pick h

end Branching

namespace Node

mutual

def meshes : Node α → List (Mesh α)
  | .branch _ _ children => meshesAll children
  | .drawable _ mesh => [mesh]
  | .posed _ _ source => source.meshes
  | .particle _ _ => []

def meshesAll : List (Node α) → List (Mesh α)
  | [] => []
  | n :: rest => n.meshes ++ meshesAll rest

/-- All transforms are static, and nothing draws from elsewhere. -/
def IsBakeable : Node α → Prop
  | .branch a (.transform _) children => a.variance = .static ∧ AreBakeable children
  | .branch _ _ children => AreBakeable children
  | .drawable _ _ => True
  | .posed _ _ _ | .particle _ _ => False

def AreBakeable : List (Node α) → Prop
  | [] => True
  | n :: rest => n.IsBakeable ∧ AreBakeable rest

end

theorem meshesAll_eq (ns : List (Node α)) : meshesAll ns = ns.flatMap meshes := by
  induction ns with
  | nil => rfl
  | cons n ns ih => simp only [meshesAll, List.flatMap_cons, ih]

theorem areBakeable_iff {ns : List (Node α)} : AreBakeable ns ↔ ∀ n ∈ ns, n.IsBakeable := by
  induction ns with
  | nil => simp [AreBakeable]
  | cons n ns ih => simp [AreBakeable, ih]

theorem mem_meshes_of_mesh? {n : Node α} {mesh : Mesh α} (h : n.mesh? = some mesh) :
    mesh ∈ n.meshes := by
  induction n with
  | branch a b children _ => cases h
  | drawable a m => simpa [mesh?, meshes, eq_comm] using h
  | posed a posing source ih => exact ih h
  | particle a role => cases h

variable [Scalar α]

theorem staticCopy_branch (deep : Bool) (distance : α) (a : Attributes) (b : Branching α)
    (children : List (Node α)) :
    (branch a b children).staticCopy deep distance = some (.branch (b.copiedAttributes a) b.copied
      ((b.shown distance children).filterMap (staticCopy deep distance))) := by
  rw [staticCopy, staticCopies_eq, Branching.shown_map, List.filterMap_map]
  rfl

theorem flatMap_drawn_copies (deep : Bool) (distance : α) (x : Matrix α) (s : Option StateSet)
    (ns : List (Node α)) :
    (ns.filterMap (staticCopy deep distance)).flatMap (drawn x s) =
      ns.flatMap fun n => ((n.staticCopy deep distance).map (drawn x s)).getD [] := by
  rw [List.filterMap_eq_flatMap_toList, List.flatMap_assoc]
  apply List.flatMap_congr
  intro n _
  cases n.staticCopy deep distance <;> simp

/-- The depth of a copy does not show. -/
theorem drawn_staticCopy (deep : Bool) (distance : α) (n : Node α) (x : Matrix α)
    (s : Option StateSet) :
    (n.staticCopy deep distance).map (drawn x s) =
      (n.staticCopy false distance).map (drawn x s) := by
  induction n generalizing x s with
  | branch a b children ih =>
    simp only [staticCopy_branch, Option.map_some, drawn_branch, flatMap_drawn_copies]
    congr 1
    apply List.flatMap_congr
    intro c hc
    rw [ih c (Branching.mem_of_mem_shown hc)]
  | drawable a mesh => cases deep <;> rfl
  | posed a posing source ih => exact ih x s
  | particle a role => rfl

theorem meshes_subset_of_staticCopy {deep : Bool} {distance : α} {n c : Node α}
    (h : n.staticCopy deep distance = some c) : c.meshes ⊆ n.meshes := by
  induction n generalizing c with
  | branch a b children ih =>
    rw [staticCopy_branch, Option.some.injEq] at h
    subst h
    intro mesh hmesh
    simp only [meshes, meshesAll_eq, List.mem_flatMap, List.mem_filterMap] at hmesh ⊢
    obtain ⟨c, ⟨n, hn, hc⟩, hm⟩ := hmesh
    have hn' := Branching.mem_of_mem_shown hn
    exact ⟨n, hn', ih n hn' hc hm⟩
  | drawable a mesh =>
    simp only [staticCopy, Option.some.injEq] at h
    subst h
    exact List.Subset.refl _
  | posed a posing source ih => exact ih h
  | particle a role => cases h

theorem isBakeable_of_staticCopy {deep : Bool} {distance : α} {n c : Node α}
    (h : n.staticCopy deep distance = some c) : c.IsBakeable := by
  induction n generalizing c with
  | branch a b children ih =>
    rw [staticCopy_branch, Option.some.injEq] at h
    subst h
    have hchildren :
        AreBakeable ((b.shown distance children).filterMap (staticCopy deep distance)) := by
      rw [areBakeable_iff]
      intro c hc
      obtain ⟨n, hn, hc⟩ := List.mem_filterMap.1 hc
      exact ih n (Branching.mem_of_mem_shown hn) hc
    cases b with
    | transform => exact ⟨Branching.copiedAttributes_variance _ a, hchildren⟩
    | group | switch | detail => exact hchildren
  | drawable a mesh =>
    simp only [staticCopy, Option.some.injEq] at h
    subst h
    trivial
  | posed a posing source ih => exact ih h
  | particle a role => cases h

/-- What holds of all meshes of a tree, wherever they are placed, holds of all that it draws. -/
theorem of_mem_drawn {p : Mesh α → Prop} (hplaced : ∀ x mesh, p mesh → p (Mesh.placed x mesh))
    {n : Node α} (h : ∀ mesh ∈ n.meshes, p mesh) {x : Matrix α} {s : Option StateSet}
    {d : Drawn α} (hd : d ∈ n.drawn x s) : p d.mesh := by
  induction n generalizing x s with
  | branch a b children ih =>
    rw [drawn_branch, List.mem_flatMap] at hd
    obtain ⟨c, hc, hd⟩ := hd
    refine ih c hc (fun mesh hm => h mesh ?_) hd
    rw [meshes, meshesAll_eq]
    exact List.mem_flatMap.2 ⟨c, hc, hm⟩
  | drawable a mesh =>
    rw [drawn, List.mem_singleton] at hd
    subst hd
    exact hplaced x mesh (h mesh (by simp [meshes]))
  | posed a posing source _ =>
    cases hm : source.mesh? with
    | none => simp [drawn, hm] at hd
    | some mesh =>
      simp only [drawn, hm, List.mem_singleton] at hd
      subst hd
      exact hplaced x mesh (h mesh (mem_meshes_of_mesh? hm))
  | particle a role => cases hd

section Baking

variable (hone : (Matrix.identity : Matrix α).isIdentity = true)

include hone

theorem drawn_bake {n : Node α} (hn : n.IsBakeable) (x : Matrix α) (s : Option StateSet) :
    (bake x n).drawn .identity s = n.drawn x s := by
  induction n generalizing x s with
  | branch a b children ih =>
    have hall (hc : AreBakeable children) (y : Matrix α) :
        (bakeAll y children).flatMap (drawn .identity (a.state.or s)) =
          children.flatMap (drawn y (a.state.or s)) := by
      rw [bakeAll_eq, List.flatMap_map]
      exact List.flatMap_congr fun c hm => ih c hm (areBakeable_iff.1 hc c hm) y _
    cases b with
    | transform m =>
      rw [bake, if_pos hn.1, drawn_branch, drawn_branch]
      exact hall hn.2 (x * m)
    | group | switch | detail =>
      rw [bake, drawn_branch, drawn_branch]
      · exact hall hn x
      · intro m
        simp
  | drawable a mesh =>
    simp only [bake, drawn, Mesh.placed, hone, if_true]
  | posed a posing source _ => exact hn.elim
  | particle a role => exact hn.elim

/-- Baking moves every drawable to where it was drawn before. -/
theorem drawn_baked {children : List (Node α)} (h : ∀ c ∈ children, c.IsBakeable) :
    (group children).baked.drawn .identity none = (group children).drawn .identity none := by
  simp only [group, baked, drawn_branch, bakeAll_eq, List.flatMap_map]
  exact List.flatMap_congr fun c hc => drawn_bake hone (h c hc) _ _

end Baking

theorem drawn_withStateIfNone {n : Node α} (hn : n.isDrawable = true) (t : StateSet)
    (x : Matrix α) (s : Option StateSet) :
    (n.withStateIfNone t).drawn x s = n.drawn x (some t) := by
  cases n with
  | branch | particle => cases hn
  | drawable a mesh | posed a _ mesh =>
    cases h : a.state <;>
      simp [withStateIfNone, state, attributes, h, withState, withAttributes, drawn]

end Node

/-- A reading of trees that goes through groups and transforms, takes note of the matrices and hands
down the innermost state set. -/
structure ReadsThrough {κ β : Type} (read : κ → Option StateSet → Node α → List β)
    (moved : κ → Matrix α → κ) : Prop where
  group : ∀ k s a children, read k s (.branch a .group children) =
    children.flatMap (read k (a.state.or s))
  transform : ∀ k s a m children, read k s (.branch a (.transform m) children) =
    children.flatMap (read (moved k m) (a.state.or s))
  withStateIfNone : ∀ k s (t : StateSet) {n : Node α}, n.isDrawable = true →
    read k s (n.withStateIfNone t) = read k (some t) n

namespace ReadsThrough

open Node

variable {κ β : Type} {read : κ → Option StateSet → Node α → List β} {moved : κ → Matrix α → κ}

/-- Handing a state set down changes where it is written but not what it is in force for. -/
theorem handDown (h : ReadsThrough read moved) (a : Attributes) (children : List (Node α)) (k : κ)
    (s : Option StateSet) :
    (handDown a children).2.flatMap (read k ((Node.handDown a children).1.state.or s)) =
      children.flatMap (read k (a.state.or s)) := by
  cases ha : a.state with
  | none => simp [Node.handDown, ha]
  | some t =>
    by_cases hall : children.isEmpty = false ∧ children.all isDrawable = true
    · simp only [Node.handDown, ha, hall, Bool.not_false, Bool.and_self, if_true,
        List.flatMap_map, Option.none_or, Option.some_or]
      exact List.flatMap_congr fun c hc =>
        h.withStateIfNone k s t (List.all_eq_true.1 hall.2 c hc)
    · simp only [Node.handDown, ha]
      rw [if_neg (by simpa using hall), ha]

theorem settledGroup (h : ReadsThrough read moved) (a : Attributes) (children : List (Node α))
    (k : κ) (s : Option StateSet) :
    (settledGroup a children).flatMap (read k s) = children.flatMap (read k (a.state.or s)) := by
  rw [← h.handDown a children k s]
  simp only [Node.settledGroup]
  generalize Node.handDown a children = settled
  by_cases hempty : settled.2.isEmpty = true
  · rw [if_pos hempty, List.isEmpty_iff.1 hempty]
    rfl
  by_cases hplain : settled.1.isPlain = true
  · have hstate : settled.1.state = none := by
      simp only [Attributes.isPlain, Bool.and_eq_true, Option.isNone_iff_eq_none] at hplain
      exact hplain.1.1.1
    rw [if_neg hempty, if_pos hplain, hstate, Option.none_or]
  · rw [if_neg hempty, if_neg hplain, List.flatMap_singleton, h.group]

theorem lift (h : ReadsThrough read moved) (n : Node α) (k : κ) (s : Option StateSet) :
    (lift n).flatMap (read k s) = read k s n := by
  induction n generalizing k s with
  | branch a b children ih =>
    have hall (k : κ) (t : Option StateSet) :
        (liftAll children).flatMap (read k t) = children.flatMap (read k t) := by
      rw [liftAll_eq, List.flatMap_assoc]
      exact List.flatMap_congr fun c hc => ih c hc k t
    cases b with
    | group => rw [Node.lift, h.settledGroup, hall, h.group]
    | transform m =>
      rw [Node.lift, h.transform, ← hall]
      cases liftAll children with
      | nil => rfl
      | cons c cs => rw [List.flatMap_singleton, h.transform]
    | switch | detail => simp [Node.lift]
  | drawable | posed | particle => simp [Node.lift]

theorem lifted (h : ReadsThrough read moved) (n : Node α) (k : κ) (s : Option StateSet) :
    read k s n.lifted = read k s n := by
  cases n with
  | branch a b children =>
    have hall (k : κ) (t : Option StateSet) :
        (liftAll children).flatMap (read k t) = children.flatMap (read k t) := by
      rw [liftAll_eq, List.flatMap_assoc]
      exact List.flatMap_congr fun c _ => h.lift c k t
    cases b with
    | group => rw [Node.lifted, Branching.isPlacing, if_pos rfl, h.group, h.group, hall]
    | transform m =>
      rw [Node.lifted, Branching.isPlacing, if_pos rfl, h.transform, h.transform, hall]
    | switch | detail => rfl
  | drawable | posed | particle => rfl

end ReadsThrough

namespace Node

variable [Scalar α]

theorem readsThrough_drawn :
    ReadsThrough (drawn : Matrix α → Option StateSet → Node α → List (Drawn α)) (· * ·) where
  group x s a children := drawn_branch x s a .group children
  transform x s a m children := drawn_branch x s a (.transform m) children
  withStateIfNone x s t _ hn := drawn_withStateIfNone hn t x s

theorem drawn_lifted (n : Node α) (x : Matrix α) (s : Option StateSet) :
    n.lifted.drawn x s = n.drawn x s :=
  readsThrough_drawn.lifted n x s

end Node

end DistantChunks
