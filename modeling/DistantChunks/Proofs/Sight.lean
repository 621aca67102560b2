import DistantChunks.Proofs.Parts
import DistantChunks.Proofs.StaticDrawing

/-!
# Seeing a tree through a mask

A traversal with a mask enters only the nodes whose own mask shares a bit with it. `seen` is the
tree as such a traversal meets it. Baking leaves every node where it was with its mask, so that
`seenParts_baked` holds for every mask. Lifting asks for the state set, the callbacks, the user
data and the variance of a group, but not for its mask: `perm_seenParts_lifted` says that what a
traversal sees of the lifted tree is what it saw before and what lifting uncovers.
-/

namespace DistantChunks

variable {α : Type}

/-- Whether a traversal with the mask `m` enters a node. -/
def Attributes.isSeen (m : UInt32) (a : Attributes) : Bool := a.mask &&& m != 0

namespace Node

mutual

/-- The tree that a traversal meets. In the place of a node that it does not enter it meets
nothing, so that the other children keep their numbers. -/
def seen (m : UInt32) : Node α → Node α
  | .branch a b children => if a.isSeen m then .branch a b (seenAll m children) else .group []
  | n => if n.attributes.isSeen m then n else .group []

def seenAll (m : UInt32) : List (Node α) → List (Node α)
  | [] => []
  | n :: rest => n.seen m :: seenAll m rest

end

theorem seenAll_eq (m : UInt32) (ns : List (Node α)) : seenAll m ns = ns.map (seen m) := by
  induction ns with
  | nil => rfl
  | cons n ns ih => rw [seenAll, ih, List.map_cons]

def seenParts (m : UInt32) (path : List (Frame α)) (s : Option StateSet) (n : Node α) :
    List (Part α) :=
  (n.seen m).parts path s

variable {m : UInt32} {a : Attributes}

theorem seen_branch (ha : a.isSeen m = true) (b : Branching α) (children : List (Node α)) :
    (branch a b children).seen m = .branch a b (children.map (seen m)) := by
  rw [seen, if_pos ha, seenAll_eq]

theorem parts_empty (path : List (Frame α)) (s : Option StateSet) :
    (group []).parts path s = [] := rfl

theorem seen_of_not_isSeen (n : Node α) (hn : n.attributes.isSeen m = false) :
    n.seen m = .group [] := by
  have hnot : ¬ n.attributes.isSeen m = true := by simp [hn]
  cases n with
  | branch a b children => exact if_neg hnot
  | drawable | posed | particle => exact if_neg hnot

theorem seenParts_of_not_isSeen (n : Node α) (hn : n.attributes.isSeen m = false)
    (path : List (Frame α)) (s : Option StateSet) : n.seenParts m path s = [] := by
  rw [seenParts, seen_of_not_isSeen n hn, parts_empty]

theorem seenParts_group (ha : a.isSeen m = true) (path : List (Frame α)) (s : Option StateSet)
    (children : List (Node α)) :
    (branch a .group children).seenParts m path s =
      children.flatMap (seenParts m path (a.state.or s)) := by
  rw [seenParts, seen_branch ha, parts_group, List.flatMap_map]
  rfl

theorem seenParts_transform (ha : a.isSeen m = true) (path : List (Frame α))
    (s : Option StateSet) (x : Matrix α) (children : List (Node α)) :
    (branch a (.transform x) children).seenParts m path s =
      children.flatMap (seenParts m (path ++ [.matrix x]) (a.state.or s)) := by
  rw [seenParts, seen_branch ha, parts_transform, List.flatMap_map]
  rfl

theorem seenParts_placing (ha : a.isSeen m = true) {b : Branching α} (hb : b.isPlacing = true)
    (path : List (Frame α)) (s : Option StateSet) (children : List (Node α)) :
    (branch a b children).seenParts m path s =
      children.flatMap (seenParts m (path ++ b.frames 0) (a.state.or s)) := by
  cases b with
  | group => rw [seenParts_group ha, Branching.frames, List.append_nil]
  | transform x => exact seenParts_transform ha path s x children
  | switch | detail => cases hb

section Baking

variable [Scalar α]

theorem partsFrom_seen_bakeAll {acc : Matrix α} {s : Option StateSet} {ns : List (Node α)}
    (h : ∀ n ∈ ns, ∀ path, (bake acc n).seenParts m path s = (n.seen m).bakedParts acc path s)
    (paths : Nat → List (Frame α)) (i : Nat) :
    partsFrom paths s i ((bakeAll acc ns).map (seen m)) =
      bakedPartsFrom acc paths s i (ns.map (seen m)) := by
  induction ns generalizing i with
  | nil => rfl
  | cons n ns ih =>
    have hn := h n List.mem_cons_self (paths i)
    rw [seenParts] at hn
    rw [bakeAll, List.map_cons, List.map_cons, partsFrom, bakedPartsFrom, hn,
      ih fun c hc => h c (List.mem_cons_of_mem n hc)]

theorem attributes_bake_branch (acc : Matrix α) (a : Attributes) (b : Branching α)
    (children : List (Node α)) : (bake acc (.branch a b children)).attributes = a := by
  cases b with
  | transform =>
    rw [bake]
    split <;> rfl
  | group | switch | detail => rfl

theorem isSeen_fresh (ha : a.isSeen m = true) : Attributes.fresh.isSeen m = true := by
  have hm : m ≠ 0 := by
    rintro rfl
    simp [Attributes.isSeen] at ha
  have hall : Attributes.maskAll &&& m = m := by
    have := UInt32.neg_one_and (a := m)
    exact this
  simp [Attributes.isSeen, Attributes.fresh, hall, hm]

theorem seenParts_wrapped (acc : Matrix α) (n : Node α) (path : List (Frame α))
    (s : Option StateSet) : (wrapped acc n).seenParts m path s =
      n.seenParts m (if acc.isIdentity then path else path ++ [.matrix acc]) s := by
  unfold wrapped
  split
  · rfl
  · cases hn : n.attributes.isSeen m with
    | true =>
      rw [seenParts_transform (isSeen_fresh hn), List.flatMap_singleton]
      rfl
    | false =>
      rw [seenParts_of_not_isSeen n hn]
      cases hfresh : Attributes.fresh.isSeen m with
      | true =>
        rw [seenParts_transform hfresh, List.flatMap_singleton, seenParts_of_not_isSeen n hn]
      | false => exact seenParts_of_not_isSeen (.branch _ _ _) hfresh path s

theorem seenParts_bake (n : Node α) (acc : Matrix α) (path : List (Frame α))
    (s : Option StateSet) :
    (bake acc n).seenParts m path s = (n.seen m).bakedParts acc path s := by
  induction n generalizing acc path s with
  | branch a b children ih =>
    cases ha : a.isSeen m with
    | false =>
      have hbaked : (bake acc (.branch a b children)).attributes.isSeen m = false := by
        rw [attributes_bake_branch, ha]
      rw [seenParts_of_not_isSeen _ hbaked, seen_of_not_isSeen (.branch a b children) ha]
      rfl
    | true =>
      have hall (acc : Matrix α) (paths : Nat → List (Frame α)) (s : Option StateSet) :
          partsFrom paths s 0 ((bakeAll acc children).map (seen m)) =
            bakedPartsFrom acc paths s 0 (children.map (seen m)) :=
        partsFrom_seen_bakeAll (fun c hc path => ih c hc acc path s) paths 0
      rw [seen_branch ha]
      cases b with
      | transform x =>
        rw [bake, bakedParts]
        split
        · rw [seenParts, seen_branch ha, parts_group, ← partsFrom_const path _ 0]
          exact hall _ _ _
        · rw [seenParts, seen_branch ha]
          exact hall _ _ _
      | group | switch | detail =>
        rw [bake, seenParts, seen_branch ha]
        · exact hall _ _ _
        · simp
  | drawable a mesh =>
    cases ha : a.isSeen m with
    | false =>
      rw [seen_of_not_isSeen (.drawable a mesh) ha]
      exact seenParts_of_not_isSeen (.drawable a _) ha path s
    | true => simp only [seenParts, bake, seen, attributes, ha, if_true]; rfl
  | posed a posing source _ =>
    rw [bake, seenParts_wrapped]
    cases ha : a.isSeen m with
    | false =>
      rw [seen_of_not_isSeen (.posed a posing source) ha]
      exact seenParts_of_not_isSeen (.posed a posing source) ha _ s
    | true => simp only [seenParts, seen, attributes, ha, if_true]; rfl
  | particle a role =>
    rw [bake, seenParts_wrapped]
    cases ha : a.isSeen m with
    | false =>
      rw [seen_of_not_isSeen (.particle a role) ha]
      exact seenParts_of_not_isSeen (.particle a role) ha _ s
    | true => simp only [seenParts, seen, attributes, ha, if_true]; rfl

/-- What a traversal sees of the baked tree are the parts of what it sees of the tree, read with
the static transforms multiplied. -/
theorem seenParts_baked (root : Node α) :
    root.baked.seenParts m [] none = (root.seen m).flattenedParts := by
  cases root with
  | branch a b children =>
    cases ha : a.isSeen m with
    | false =>
      rw [seen_of_not_isSeen (.branch a b children) ha]
      exact seenParts_of_not_isSeen (.branch a b _) ha [] none
    | true =>
      rw [baked, seenParts, seen_branch ha, seen_branch ha, parts, flattenedParts, Option.or_none]
      exact partsFrom_seen_bakeAll (fun c _ path => seenParts_bake c .identity path _) _ 0
  | drawable a mesh | posed a posing source | particle a role =>
    simp only [baked, seenParts, seen]
    split <;> rfl

end Baking

section Lifting

mutual

/-- What lifting uncovers at a node. If the node is hidden, that is all that is seen of the nodes
that take its place, and otherwise what is uncovered below. -/
def uncovered (m : UInt32) (path : List (Frame α)) (s : Option StateSet) :
    Node α → List (Part α)
  | .branch a b children =>
    if a.isSeen m then
      if b.isPlacing then uncoveredAll m (path ++ b.frames 0) (a.state.or s) children else []
    else (lift (.branch a b children)).flatMap (seenParts m path s)
  | _ => []

def uncoveredAll (m : UInt32) (path : List (Frame α)) (s : Option StateSet) :
    List (Node α) → List (Part α)
  | [] => []
  | n :: rest => n.uncovered m path s ++ uncoveredAll m path s rest

end

theorem uncoveredAll_eq (m : UInt32) (path : List (Frame α)) (s : Option StateSet)
    (ns : List (Node α)) : uncoveredAll m path s ns = ns.flatMap (uncovered m path s) := by
  induction ns with
  | nil => rfl
  | cons n ns ih => rw [uncoveredAll, ih, List.flatMap_cons]

def uncoveredBelow (m : UInt32) : Node α → List (Part α)
  | .branch a b children =>
    if a.isSeen m && b.isPlacing then uncoveredAll m (b.frames 0) a.state children else []
  | _ => []

theorem seenParts_withStateIfNone {n : Node α} (hn : n.isDrawable = true) (t : StateSet)
    (path : List (Frame α)) (s : Option StateSet) :
    (n.withStateIfNone t).seenParts m path s = n.seenParts m path (some t) := by
  cases n with
  | branch | particle => cases hn
  | drawable a mesh | posed a posing source =>
    cases ha : a.isSeen m <;> cases hs : a.state <;>
      simp_all [withStateIfNone, state, attributes, withState, withAttributes, seenParts, seen,
        parts, Attributes.isSeen, parts_empty]

theorem isSeen_handDown (a : Attributes) (children : List (Node α)) :
    (handDown a children).1.isSeen m = a.isSeen m := by
  unfold handDown
  split
  · rfl
  · split <;> rfl

theorem seenParts_handDown (a : Attributes) (children : List (Node α)) (path : List (Frame α))
    (s : Option StateSet) :
    (handDown a children).2.flatMap (seenParts m path ((handDown a children).1.state.or s)) =
      children.flatMap (seenParts m path (a.state.or s)) := by
  cases ha : a.state with
  | none => simp [handDown, ha]
  | some t =>
    by_cases hall : children.isEmpty = false ∧ children.all isDrawable = true
    · simp only [handDown, ha, hall, Bool.not_false, Bool.and_self, if_true, List.flatMap_map,
        Option.none_or, Option.some_or]
      exact List.flatMap_congr fun c hc =>
        seenParts_withStateIfNone (List.all_eq_true.1 hall.2 c hc) t path s
    · simp only [handDown, ha]
      rw [if_neg (by simpa using hall), ha]

/-- A group that is seen shows its children, whether they take its place or not. -/
theorem seenParts_settledGroup (ha : a.isSeen m = true) (children : List (Node α))
    (path : List (Frame α)) (s : Option StateSet) :
    (settledGroup a children).flatMap (seenParts m path s) =
      children.flatMap (seenParts m path (a.state.or s)) := by
  rw [← seenParts_handDown a children path s]
  have hseen : (handDown a children).1.isSeen m = true := by rw [isSeen_handDown, ha]
  simp only [settledGroup]
  generalize handDown a children = settled at hseen ⊢
  by_cases hempty : settled.2.isEmpty = true
  · rw [if_pos hempty, List.isEmpty_iff.1 hempty]
    rfl
  by_cases hplain : settled.1.isPlain = true
  · have hstate : settled.1.state = none := by
      simp only [Attributes.isPlain, Bool.and_eq_true, Option.isNone_iff_eq_none] at hplain
      exact hplain.1.1.1
    rw [if_neg hempty, if_pos hplain, hstate, Option.none_or]
  · rw [if_neg hempty, if_neg hplain, List.flatMap_singleton, seenParts_group hseen]

theorem perm_seenParts_liftAll {ns : List (Node α)} {path : List (Frame α)}
    {s : Option StateSet}
    (h : ∀ n ∈ ns, ((lift n).flatMap (seenParts m path s)).Perm
      (n.seenParts m path s ++ n.uncovered m path s)) :
    ((liftAll ns).flatMap (seenParts m path s)).Perm
      (ns.flatMap (seenParts m path s) ++ uncoveredAll m path s ns) := by
  rw [liftAll_eq, List.flatMap_assoc, uncoveredAll_eq]
  exact (List.Perm.flatMap_left ns h).trans (List.flatMap_append_perm ns _ _).symm

/-- Of the nodes that take the place of a node a traversal sees what it saw of the node, and what
is uncovered. -/
theorem perm_seenParts_lift (n : Node α) (path : List (Frame α)) (s : Option StateSet) :
    ((lift n).flatMap (seenParts m path s)).Perm
      (n.seenParts m path s ++ n.uncovered m path s) := by
  induction n generalizing path s with
  | branch a b children ih =>
    have hall (path : List (Frame α)) (s : Option StateSet) :=
      perm_seenParts_liftAll fun c hc => ih c hc path s
    cases ha : a.isSeen m with
    | false =>
      rw [uncovered, seenParts_of_not_isSeen (.branch a b children) ha, if_neg (by simp [ha])]
      exact .refl _
    | true =>
      rw [uncovered, if_pos ha]
      cases b with
      | group =>
        rw [lift, seenParts_settledGroup ha, seenParts_group ha, Branching.isPlacing, if_pos rfl,
          Branching.frames, List.append_nil]
        exact hall _ _
      | transform x =>
        have hlift : (lift (.branch a (.transform x) children)).flatMap (seenParts m path s) =
            (liftAll children).flatMap
              (seenParts m (path ++ [.matrix x]) (a.state.or s)) := by
          rw [lift]
          cases liftAll children with
          | nil => rfl
          | cons c cs => rw [List.flatMap_singleton, seenParts_transform ha]
        rw [hlift, seenParts_transform ha, Branching.isPlacing, if_pos rfl]
        exact hall _ _
      | switch | detail => simp [lift, Branching.isPlacing]
  | drawable | posed | particle => simp [lift, uncovered]

theorem perm_seenParts_lifted (root : Node α) :
    (root.lifted.seenParts m [] none).Perm
      (root.seenParts m [] none ++ root.uncoveredBelow m) := by
  cases root with
  | branch a b children =>
    have hall (path : List (Frame α)) (s : Option StateSet) :=
      perm_seenParts_liftAll fun c (_ : c ∈ children) => perm_seenParts_lift (m := m) c path s
    cases ha : a.isSeen m with
    | false =>
      rw [lifted, uncoveredBelow, ha, seenParts_of_not_isSeen (.branch a b _) ha,
        seenParts_of_not_isSeen (.branch a b children) ha]
      exact .refl _
    | true =>
      rw [lifted, uncoveredBelow, ha, Bool.true_and]
      cases b with
      | group =>
        rw [Branching.isPlacing, if_pos rfl, if_pos rfl, seenParts_group ha, seenParts_group ha,
          Option.or_none]
        exact hall _ _
      | transform x =>
        rw [Branching.isPlacing, if_pos rfl, if_pos rfl, seenParts_transform ha,
          seenParts_transform ha, Option.or_none]
        exact hall _ _
      | switch | detail => simp [Branching.isPlacing]
  | drawable | posed | particle => simp [lifted, uncoveredBelow]

end Lifting

end Node

end DistantChunks
