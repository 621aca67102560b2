import DistantChunks.Proofs.Drawing
import DistantChunks.Scene.Merging

/-!
# Merging keeps what is drawn

Merging joins the meshes of siblings with one state set. As long as the indices of all meshes form
whole triangles and all vertices together can be numbered with 32 bits, the joined mesh has the
triangles of its members and no others, at whatever depth and in whatever order they are joined.
-/

namespace DistantChunks

variable {α : Type}

def vertexTotal : List (Drawn α) → Nat
  | [] => 0
  | d :: ds => d.mesh.vertexCount + vertexTotal ds

/-- Drawables whose meshes can be joined without a wrong index. -/
structure Joinable (ds : List (Drawn α)) : Prop where
  whole : ∀ d ∈ ds, d.mesh.IsWhole
  fits : vertexTotal ds < UInt32.size

/-- The drawables `es` show the triangles of `ds` and can be joined as well as these. -/
structure Redrawn (ds es : List (Drawn α)) : Prop where
  faces : (es.flatMap Drawn.faces).Perm (ds.flatMap Drawn.faces)
  whole : ∀ e ∈ es, e.mesh.IsWhole
  total : vertexTotal es = vertexTotal ds

@[simp] theorem vertexTotal_nil : vertexTotal ([] : List (Drawn α)) = 0 := rfl

@[simp] theorem vertexTotal_cons (d : Drawn α) (ds : List (Drawn α)) :
    vertexTotal (d :: ds) = d.mesh.vertexCount + vertexTotal ds := rfl

@[simp] theorem vertexTotal_append (ds es : List (Drawn α)) :
    vertexTotal (ds ++ es) = vertexTotal ds + vertexTotal es := by
  induction ds with
  | nil => simp
  | cons d ds ih =>
    rw [List.cons_append, vertexTotal_cons, vertexTotal_cons, ih]
    omega

theorem vertexTotal_perm {ds es : List (Drawn α)} (h : ds.Perm es) :
    vertexTotal ds = vertexTotal es := by
  induction h with
  | nil => rfl
  | cons d _ ih => rw [vertexTotal_cons, vertexTotal_cons, ih]
  | swap d e ds =>
    simp only [vertexTotal_cons]
    omega
  | trans _ _ ih ih' => exact ih.trans ih'

namespace Joinable

variable {ds es : List (Drawn α)}

theorem left (h : Joinable (ds ++ es)) : Joinable ds where
  whole d hd := h.whole d (List.mem_append_left es hd)
  fits := by
    have := h.fits
    rw [vertexTotal_append] at this
    omega

theorem right (h : Joinable (ds ++ es)) : Joinable es where
  whole d hd := h.whole d (List.mem_append_right ds hd)
  fits := by
    have := h.fits
    rw [vertexTotal_append] at this
    omega

theorem perm (h : Joinable ds) (hp : ds.Perm es) : Joinable es where
  whole d hd := h.whole d (hp.mem_iff.2 hd)
  fits := vertexTotal_perm hp ▸ h.fits

end Joinable

namespace Redrawn

variable {ds es fs ds' es' : List (Drawn α)}

theorem joinable (h : Redrawn ds es) (hd : Joinable ds) : Joinable es :=
  ⟨h.whole, h.total ▸ hd.fits⟩

theorem of_perm (hd : Joinable ds) (h : ds.Perm es) : Redrawn ds es where
  faces := h.symm.flatMap_right _
  whole := (hd.perm h).whole
  total := (vertexTotal_perm h).symm

theorem refl (hd : Joinable ds) : Redrawn ds ds := of_perm hd (.refl _)

theorem trans (h : Redrawn ds es) (h' : Redrawn es fs) : Redrawn ds fs where
  faces := h'.faces.trans h.faces
  whole := h'.whole
  total := h'.total.trans h.total

theorem append (h : Redrawn ds es) (h' : Redrawn ds' es') : Redrawn (ds ++ ds') (es ++ es') where
  faces := by
    simpa only [List.flatMap_append] using h.faces.append h'.faces
  whole e he := by
    rcases List.mem_append.1 he with he | he
    · exact h.whole e he
    · exact h'.whole e he
  total := by rw [vertexTotal_append, vertexTotal_append, h.total, h'.total]

theorem flatMap {β : Type} {f g : β → List (Drawn α)} {xs : List β}
    (h : ∀ x ∈ xs, Joinable (f x) → Redrawn (f x) (g x)) (hd : Joinable (xs.flatMap f)) :
    Redrawn (xs.flatMap f) (xs.flatMap g) := by
  induction xs with
  | nil => exact refl hd
  | cons x xs ih =>
    rw [List.flatMap_cons] at hd
    rw [List.flatMap_cons, List.flatMap_cons]
    exact (h x List.mem_cons_self hd.left).append
      (ih (fun y hy => h y (List.mem_cons_of_mem x hy)) hd.right)

/-- One mesh in the place of two with the same state set. -/
theorem append_meshes {s : Option StateSet} {a b : Mesh α} (hd : Joinable [⟨s, a⟩, ⟨s, b⟩]) :
    Redrawn [⟨s, a⟩, ⟨s, b⟩] [⟨s, a.append b⟩] := by
  have ha : a.IsWhole := hd.whole ⟨s, a⟩ (by simp)
  have hb : b.IsWhole := hd.whole ⟨s, b⟩ (by simp)
  have hfit : a.vertexCount + b.vertexCount < UInt32.size := by simpa using hd.fits
  refine ⟨?_, ?_, ?_⟩
  · simp [Drawn.faces, Mesh.triangles_append ha hb hfit]
  · intro e he
    rw [List.mem_singleton.1 he]
    exact ha.append hb hfit
  · simp [Mesh.vertexCount_append]

theorem cons_empty (s : Option StateSet) (hd : Joinable ds) : Redrawn ds (⟨s, .empty⟩ :: ds) where
  faces := by
    simp [Drawn.faces, Mesh.triangles_empty]
  whole e he := by
    rcases List.mem_cons.1 he with rfl | he
    · exact Mesh.isWhole_empty
    · exact hd.whole e he
  total := by simp

/-- One mesh in the place of several with the same state set. -/
theorem foldl_append {s : Option StateSet} {a : Mesh α} {meshes : List (Mesh α)}
    (hd : Joinable ((a :: meshes).map (Drawn.mk s))) :
    Redrawn ((a :: meshes).map (Drawn.mk s)) [⟨s, meshes.foldl Mesh.append a⟩] := by
  induction meshes generalizing a with
  | nil => exact refl hd
  | cons b meshes ih =>
    have hsplit : (a :: b :: meshes).map (Drawn.mk s) =
        [⟨s, a⟩, ⟨s, b⟩] ++ meshes.map (Drawn.mk s) := rfl
    rw [hsplit] at hd ⊢
    have hpair := hd.left
    have hrest := hd.right
    have hstep := (append_meshes hpair).append (refl hrest)
    exact hstep.trans (ih (hstep.joinable hd))

end Redrawn

namespace Member

def toNode (m : Member α) : Node α := .drawable m.attributes m.mesh

theorem eq_toNode_of_ofNode? {n : Node α} {m : Member α} (h : ofNode? n = some m) :
    n = m.toNode := by
  cases n with
  | drawable a mesh =>
    simp only [ofNode?] at h
    split at h
    · cases h
      rfl
    · cases h
  | branch | posed | particle => cases h

theorem isCompanion_eq (state : Option StateSet) (n : Node α) :
    isCompanion state n = ((ofNode? n).filter (·.attributes.state = state)).isSome := by
  cases h : ofNode? n with
  | none => simp [isCompanion, h]
  | some m => by_cases hs : m.attributes.state = state <;> simp [isCompanion, h, hs]

/-- Siblings are the companions of a state set and the others. -/
theorem perm_companions (state : Option StateSet) (ns : List (Node α)) :
    ns.Perm ((companions state ns).map toNode ++ others state ns) := by
  induction ns with
  | nil => exact .refl _
  | cons n ns ih =>
    cases h : (ofNode? n).filter (·.attributes.state = state) with
    | none =>
      rw [companions, List.filterMap_cons, h, others,
        List.filter_cons_of_pos (by simp [isCompanion_eq, h])]
      exact (ih.cons n).trans List.perm_middle.symm
    | some m =>
      rw [companions, List.filterMap_cons, h, others,
        List.filter_cons_of_neg (by simp [isCompanion_eq, h])]
      have hn : n = m.toNode := eq_toNode_of_ofNode? (Option.filter_eq_some_iff.1 h).1
      exact hn ▸ ih.cons n

theorem state_of_mem_companions {state : Option StateSet} {ns : List (Node α)} {m : Member α}
    (h : m ∈ companions state ns) : m.attributes.state = state := by
  obtain ⟨n, -, hn⟩ := List.mem_filterMap.1 h
  simpa using (Option.filter_eq_some_iff.1 hn).2

variable [Scalar α]

theorem flatMap_drawn_toNode {state : Option StateSet} {ms : List (Member α)}
    (h : ∀ m ∈ ms, m.attributes.state = state) (x : Matrix α) (s : Option StateSet) :
    (ms.map toNode).flatMap (Node.drawn x s) =
      (ms.map fun m => m.mesh.placed x).map (Drawn.mk (state.or s)) := by
  rw [List.flatMap_map, List.map_map, List.map_eq_flatMap]
  apply List.flatMap_congr
  intro m hm
  simp only [toNode, Node.drawn, h m hm, Function.comp_apply]

end Member

namespace MergeRule

variable [Scalar α] (rule : MergeRule α)

theorem order_perm (ms : List (Member α)) : (rule.order ms).Perm ms := by
  unfold order
  split
  · split
    · exact List.mergeSort_perm _ _
    · exact .refl _
  · exact .refl _

theorem placed_foldl_append (x : Matrix α) (a : Mesh α) (ms : List (Member α)) :
    (ms.foldl (fun mesh m => mesh.append m.mesh) a).placed x =
      (ms.map fun m => m.mesh.placed x).foldl Mesh.append (a.placed x) := by
  induction ms generalizing a with
  | nil => rfl
  | cons m ms ih => rw [List.foldl_cons, ih, Mesh.placed_append, List.map_cons, List.foldl_cons]

theorem redrawn_join {first : Member α} {more : List (Member α)}
    (h : ∀ m ∈ more, m.attributes.state = first.attributes.state) {x : Matrix α}
    {s : Option StateSet}
    (hd : Joinable (((first :: more).map Member.toNode).flatMap (Node.drawn x s))) :
    Redrawn (((first :: more).map Member.toNode).flatMap (Node.drawn x s))
      ((rule.join first more).drawn x s) := by
  have hall : ∀ m ∈ first :: more, m.attributes.state = first.attributes.state := by
    simpa using h
  rw [Member.flatMap_drawn_toNode hall] at hd ⊢
  have hperm : ((rule.order (first :: more)).map fun m => m.mesh.placed x).Perm
      ((first :: more).map fun m => m.mesh.placed x) := (rule.order_perm _).map _
  have hordered := Redrawn.of_perm hd (hperm.symm.map _)
  -- The fold starts with an empty mesh, so this is put in front of the members.
  have hstarted := hordered.trans
    (Redrawn.cons_empty (first.attributes.state.or s) (hordered.joinable hd))
  have hjoined := hstarted.trans (Redrawn.foldl_append (hstarted.joinable hd))
  simpa only [join, Node.drawn, placed_foldl_append, Mesh.placed_empty] using hjoined

theorem redrawn_mergeSiblings {ns : List (Node α)} {x : Matrix α} {s : Option StateSet}
    (hd : Joinable (ns.flatMap (Node.drawn x s))) :
    Redrawn (ns.flatMap (Node.drawn x s)) ((rule.mergeSiblings ns).flatMap (Node.drawn x s)) := by
  -- The induction follows the recursion: a sibling stays, or it is joined with its companions.
  have keep {n : Node α} {rest : List (Node α)}
      (hd : Joinable ((n :: rest).flatMap (Node.drawn x s)))
      (ih : Joinable (rest.flatMap (Node.drawn x s)) → Redrawn (rest.flatMap (Node.drawn x s))
        ((rule.mergeSiblings rest).flatMap (Node.drawn x s))) :
      Redrawn ((n :: rest).flatMap (Node.drawn x s))
        ((n :: rule.mergeSiblings rest).flatMap (Node.drawn x s)) := by
    rw [List.flatMap_cons] at hd
    rw [List.flatMap_cons, List.flatMap_cons]
    exact (Redrawn.refl hd.left).append (ih hd.right)
  fun_induction mergeSiblings rule ns with
  | case1 => exact Redrawn.refl hd
  | case2 n rest hn ih => exact keep hd ih
  | case3 n rest first hn state hc ih => exact keep hd ih
  | case4 n rest first hn state c cs hc hpermits ih =>
    have hperm : (n :: rest).Perm
        ((first :: c :: cs).map Member.toNode ++ Member.others state rest) := by
      rw [Member.eq_toNode_of_ofNode? hn, List.map_cons, List.cons_append, ← hc]
      exact (Member.perm_companions state rest).cons _
    have hparted := Redrawn.of_perm hd (hperm.flatMap_right (Node.drawn x s))
    rw [List.flatMap_append] at hparted
    have hstate : ∀ m ∈ c :: cs, m.attributes.state = first.attributes.state :=
      fun m hm => Member.state_of_mem_companions (hc ▸ hm)
    have hd' := hparted.joinable hd
    rw [List.flatMap_cons]
    exact hparted.trans ((rule.redrawn_join hstate hd'.left).append (ih hd'.right))
  | case5 n rest first hn state c cs hc hpermits ih => exact keep hd ih

theorem redrawn_merge {n : Node α} {x : Matrix α} {s : Option StateSet}
    (hd : Joinable (n.drawn x s)) : Redrawn (n.drawn x s) ((rule.merge n).drawn x s) := by
  induction n generalizing x s with
  | branch a b children ih =>
    rw [Node.drawn_branch] at hd
    rw [merge, Node.drawn_branch, Node.drawn_branch]
    split
    · have hchildren : Redrawn (children.flatMap (Node.drawn (b.below x) (a.state.or s)))
          ((mergeAll rule children).flatMap (Node.drawn (b.below x) (a.state.or s))) := by
        rw [mergeAll_eq, List.flatMap_map]
        exact Redrawn.flatMap (fun c hc hj => ih c hc hj) hd
      exact hchildren.trans (rule.redrawn_mergeSiblings (hchildren.joinable hd))
    · exact Redrawn.refl hd
  | drawable | posed | particle => exact Redrawn.refl hd

end MergeRule

end DistantChunks
