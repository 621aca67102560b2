import DistantChunks.Proofs.Drawing
import DistantChunks.Scene.Optimization

/-!
# Images under a change of numbers

Trees, bounds and matrices are made of numbers, which can be changed one by one. What only moves
nodes about does not look at numbers and commutes with every change. What computes with them
commutes with a change that keeps sums, products, roots and comparisons, `IsChange`: moving points,
bounding spheres, and in the end the whole optimization, `Node.optimized_image`.
-/

namespace DistantChunks

variable {α β : Type} {f : α → β}

def Vec3.image (f : α → β) (v : Vec3 α) : Vec3 β := ⟨f v.x, f v.y, f v.z⟩

def Vec4.image (f : α → β) (v : Vec4 α) : Vec4 β := ⟨f v.x, f v.y, f v.z, f v.w⟩

def Matrix.image (f : α → β) (m : Matrix α) : Matrix β :=
  ⟨m.x.image f, m.y.image f, m.z.image f, m.w.image f⟩

def Box.image (f : α → β) (b : Box α) : Box β := ⟨b.min.image f, b.max.image f⟩

def Sphere.image (f : α → β) (s : Sphere α) : Sphere β := ⟨s.center.image f, f s.radius⟩

def Mesh.image (f : α → β) (m : Mesh α) : Mesh β := ⟨m.vertices.map (Vec3.image f), m.indices⟩

def DetailRange.image (f : α → β) (r : DetailRange α) : DetailRange β := ⟨f r.near, f r.far⟩

def Branching.image (f : α → β) : Branching α → Branching β
  | .group => .group
  | .transform m => .transform (m.image f)
  | .switch flags => .switch flags
  | .detail ranges => .detail (ranges.map (DetailRange.image f))

def Member.image (f : α → β) (m : Member α) : Member β := ⟨m.attributes, m.mesh.image f⟩

def MergeRule.image (f : α → β) (r : MergeRule α) : MergeRule β :=
  ⟨r.eye.map (Vec3.image f), r.mergesTransparent⟩

theorem Vec4.truncate_image (v : Vec4 α) : (v.image f).truncate = v.truncate.image f := rfl

namespace Mesh

theorem image_empty : image f empty = empty := by
  simp [image, empty]

theorem image_append (a b : Mesh α) : (a.append b).image f = (a.image f).append (b.image f) := by
  simp only [append, image, Array.map_append, Array.size_map]

end Mesh

theorem Branching.isPlacing_image (b : Branching α) : (b.image f).isPlacing = b.isPlacing := by
  cases b <;> rfl

namespace Node

mutual

def image (f : α → β) : Node α → Node β
  | .branch a b children => .branch a (b.image f) (imageAll f children)
  | .drawable a mesh => .drawable a (mesh.image f)
  | .posed a posing source => .posed a posing (source.image f)
  | .particle a role => .particle a role

def imageAll (f : α → β) : List (Node α) → List (Node β)
  | [] => []
  | n :: rest => n.image f :: imageAll f rest

end

theorem imageAll_eq (ns : List (Node α)) : imageAll f ns = ns.map (image f) := by
  induction ns with
  | nil => rfl
  | cons n ns ih => rw [imageAll, ih, List.map_cons]

theorem image_branch (a : Attributes) (b : Branching α) (children : List (Node α)) :
    (branch a b children).image f = .branch a (b.image f) (children.map (image f)) := by
  rw [image, imageAll_eq]

theorem image_withAttributes (n : Node α) (a : Attributes) :
    (n.withAttributes a).image f = (n.image f).withAttributes a := by
  cases n <;> simp only [withAttributes, image]

theorem attributes_image (n : Node α) : (n.image f).attributes = n.attributes := by
  cases n <;> simp only [attributes, image]

theorem state_image (n : Node α) : (n.image f).state = n.state := by
  rw [state, attributes_image, state]

theorem isDrawable_image (n : Node α) : (n.image f).isDrawable = n.isDrawable := by
  cases n <;> simp only [isDrawable, image]

theorem drawableCount_image (n : Node α) : (n.image f).drawableCount = n.drawableCount := by
  induction n with
  | branch a b children ih =>
    rw [image_branch, drawableCount, drawableCount]
    induction children with
    | nil => rfl
    | cons c rest ihrest =>
      obtain ⟨hc, hrest⟩ := List.forall_mem_cons.1 ih
      rw [List.map_cons, drawableCountAll, drawableCountAll, hc, ihrest hrest]
  | _ => simp only [image, drawableCount]

/-! ### Lifting -/

theorem image_withStateIfNone (s : StateSet) (n : Node α) :
    (withStateIfNone s n).image f = withStateIfNone s (n.image f) := by
  simp only [withStateIfNone, withState, state_image, attributes_image, apply_ite (image f),
    image_withAttributes]

theorem handDown_image (a : Attributes) (children : List (Node α)) :
    handDown a (children.map (image f)) =
      ((handDown a children).1, (handDown a children).2.map (image f)) := by
  rw [handDown, handDown]
  cases a.state with
  | none => rfl
  | some s =>
    have hdrawables : (children.map (image f)).all isDrawable = children.all isDrawable := by
      rw [List.all_map]
      simp only [Function.comp_def, isDrawable_image]
    simp only [List.isEmpty_map, hdrawables]
    split
    · simp only [List.map_map, Function.comp_def, image_withStateIfNone]
    · rfl

theorem settledGroup_image (a : Attributes) (children : List (Node α)) :
    settledGroup a (children.map (image f)) = (settledGroup a children).map (image f) := by
  rw [settledGroup, settledGroup, handDown_image]
  simp only [List.isEmpty_map]
  split
  · rfl
  · split
    · rfl
    · rw [List.map_singleton, image_branch]
      rfl

theorem lift_image (n : Node α) : lift (n.image f) = (lift n).map (image f) := by
  induction n with
  | branch a b children ih =>
    have hall : liftAll (children.map (image f)) = (liftAll children).map (image f) := by
      rw [liftAll_eq, liftAll_eq, List.flatMap_map, List.map_flatMap]
      exact List.flatMap_congr ih
    rw [image_branch]
    cases b with
    | group =>
      rw [Branching.image, lift, hall, settledGroup_image, lift]
    | transform m =>
      rw [Branching.image, lift, hall, lift]
      cases liftAll children with
      | nil => rfl
      | cons c cs =>
        rw [List.map_singleton, image_branch]
        rfl
    | _ => simp only [Branching.image, lift, List.map_singleton, image_branch]
  | _ => simp only [image, lift, List.map_singleton]

theorem liftAll_image (ns : List (Node α)) :
    liftAll (ns.map (image f)) = (liftAll ns).map (image f) := by
  rw [liftAll_eq, liftAll_eq, List.flatMap_map, List.map_flatMap]
  exact List.flatMap_congr fun n _ => lift_image n

theorem lifted_image (n : Node α) : (n.image f).lifted = n.lifted.image f := by
  cases n with
  | branch a b children =>
    rw [image_branch, lifted, lifted, image_branch, Branching.isPlacing_image, liftAll_image]
    split <;> rfl
  | _ => simp only [image, lifted]

end Node

variable [Scalar α] [Scalar β]

/-- Zero and the lengths of vectors, which is all that is ever sorted. -/
inductive IsLength : α → Prop
  | zero : IsLength 0
  | length (v : Vec3 α) : IsLength v.length

/-- A change of numbers that keeps sums, products, roots and comparisons. Division and rounding are
left out, and the sorting order has to be kept on lengths only. -/
structure IsChange (f : α → β) : Prop where
  zero : f 0 = 0
  one : f 1 = 1
  add (a b : α) : f (a + b) = f a + f b
  sub (a b : α) : f (a - b) = f a - f b
  mul (a b : α) : f (a * b) = f a * f b
  neg (a : α) : f (-a) = -f a
  sqrt (a : α) : f (Scalar.sqrt a) = Scalar.sqrt (f a)
  half : f Scalar.half = Scalar.half
  greatest : f Scalar.greatest = Scalar.greatest
  lt (a b : α) : f a < f b ↔ a < b
  le (a b : α) : f a ≤ f b ↔ a ≤ b
  same (a b : α) : Scalar.same (f a) (f b) = Scalar.same a b
  precedes {a b : α} (ha : IsLength a) (hb : IsLength b) :
    Scalar.precedes (f a) (f b) = Scalar.precedes a b

namespace IsChange

theorem least (h : IsChange f) (a b : α) : f (Scalar.least a b) = Scalar.least (f a) (f b) := by
  simp only [Scalar.least, h.lt, h.le, apply_ite f]

theorem most (h : IsChange f) (a b : α) : f (Scalar.most a b) = Scalar.most (f a) (f b) := by
  simp only [Scalar.most, h.lt, h.le, apply_ite f]

theorem foldl_most (h : IsChange f) (as : List α) :
    (as.map f).foldl Scalar.most 0 = f (as.foldl Scalar.most 0) := by
  rw [List.foldl_map, ← h.zero]
  exact List.foldl_hom f fun a b => (h.most a b).symm

end IsChange

namespace Vec3

theorem image_zero (h : IsChange f) : image f 0 = 0 := by
  change (⟨f 0, f 0, f 0⟩ : Vec3 β) = ⟨0, 0, 0⟩
  rw [h.zero]

theorem image_add (h : IsChange f) (v w : Vec3 α) : (v + w).image f = v.image f + w.image f := by
  change image f (zipWith (· + ·) v w) = zipWith (· + ·) (v.image f) (w.image f)
  simp only [zipWith, image, h.add]

theorem image_sub (h : IsChange f) (v w : Vec3 α) : (v - w).image f = v.image f - w.image f := by
  change image f (zipWith (· - ·) v w) = zipWith (· - ·) (v.image f) (w.image f)
  simp only [zipWith, image, h.sub]

theorem image_scale (h : IsChange f) (v : Vec3 α) (a : α) :
    (v.scale a).image f = (v.image f).scale (f a) := by
  simp only [scale, map, image, h.mul]

theorem lengthSquared_image (h : IsChange f) (v : Vec3 α) :
    (v.image f).lengthSquared = f v.lengthSquared := by
  simp only [lengthSquared, dot, image, h.add, h.mul]

theorem length_image (h : IsChange f) (v : Vec3 α) : (v.image f).length = f v.length := by
  rw [length, lengthSquared_image h, length, h.sqrt]

end Vec3

namespace Vec4

theorem image_add (h : IsChange f) (v w : Vec4 α) : (v + w).image f = v.image f + w.image f := by
  change image f (zipWith (· + ·) v w) = zipWith (· + ·) (v.image f) (w.image f)
  simp only [zipWith, image, h.add]

theorem image_scale (h : IsChange f) (v : Vec4 α) (a : α) :
    (v.scale a).image f = (v.image f).scale (f a) := by
  simp only [scale, image, h.mul]

theorem same_image (h : IsChange f) (v w : Vec4 α) : (v.image f).same (w.image f) = v.same w := by
  simp only [same, image, h.same]

end Vec4

namespace Matrix

theorem image_identity (h : IsChange f) : image f identity = identity := by
  simp only [identity, image, Vec4.image, h.zero, h.one]

theorem isIdentity_image (h : IsChange f) (m : Matrix α) :
    (m.image f).isIdentity = m.isIdentity := by
  rw [isIdentity, ← image_identity h]
  simp only [isIdentity, same, image, Vec4.same_image h]

theorem apply_image (h : IsChange f) (m : Matrix α) (v : Vec4 α) :
    (m.image f).apply (v.image f) = (m.apply v).image f := by
  simp only [apply, Vec4.image_add h, Vec4.image_scale h]
  rfl

theorem image_mul (h : IsChange f) (a b : Matrix α) : (a * b).image f = a.image f * b.image f := by
  change (mul a b).image f = mul (a.image f) (b.image f)
  simp only [mul, image, ← apply_image h]

theorem movePoint_image (h : IsChange f) (m : Matrix α) (p : Vec3 α) :
    (m.image f).movePoint (p.image f) = (m.movePoint p).image f := by
  simp only [movePoint, image, Vec4.image, Vec3.image, h.add, h.mul]

end Matrix

namespace Box

theorem image_empty (h : IsChange f) : image f empty = empty := by
  simp only [empty, image, Vec3.image, Vec3.splat, h.neg, h.greatest]

theorem image_expand (h : IsChange f) (b : Box α) (p : Vec3 α) :
    (b.expand p).image f = (b.image f).expand (p.image f) := by
  simp only [expand, image, Vec3.image, Vec3.zipWith, h.least, h.most]

theorem image_ofPoints (h : IsChange f) (points : List (Vec3 α)) :
    (ofPoints points).image f = ofPoints (points.map (Vec3.image f)) := by
  rw [ofPoints, ofPoints, List.foldl_map, ← image_empty h]
  exact (List.foldl_hom (image f) fun b p => (image_expand h b p).symm).symm

theorem isValid_image (h : IsChange f) (b : Box α) : (b.image f).isValid = b.isValid := by
  simp only [isValid, image, Vec3.image, h.le]

theorem center_image (h : IsChange f) (b : Box α) : (b.image f).center = b.center.image f := by
  rw [center, center, Vec3.image_scale h, Vec3.image_add h, h.half]
  rfl

theorem size_image (h : IsChange f) (b : Box α) : (b.image f).size = b.size.image f :=
  (Vec3.image_sub h b.max b.min).symm

end Box

namespace Sphere

theorem image_empty (h : IsChange f) : image f empty = empty := by
  simp only [empty, image, Vec3.image_zero h, h.neg, h.one]

theorem isValid_image (h : IsChange f) (s : Sphere α) : (s.image f).isValid = s.isValid := by
  simp only [isValid, image, ← h.zero, h.le]

theorem radiusSquared_image (h : IsChange f) (s : Sphere α) :
    (s.image f).radiusSquared = f s.radiusSquared := (h.mul s.radius s.radius).symm

theorem image_ofBox (h : IsChange f) (b : Box α) : (ofBox b).image f = ofBox (b.image f) := by
  simp only [ofBox, Box.isValid_image h, apply_ite (image f), image_empty h]
  simp only [image, Box.center_image h, Box.size_image h, Vec3.length_image h, h.mul, h.half]

theorem image_moved (h : IsChange f) (s : Sphere α) (m : Matrix α) :
    (s.moved m).image f = (s.image f).moved (m.image f) := by
  simp only [moved, isValid_image h, apply_ite (image f)]
  simp only [image, ← Matrix.movePoint_image h, h.mul, h.most]
  simp only [Matrix.image, Vec4.truncate_image, Vec3.length_image h]

theorem image_enclosing (h : IsChange f) (spheres : List (Sphere α)) :
    (enclosing spheres).image f = enclosing (spheres.map (image f)) := by
  have hvalid : (spheres.map (image f)).filter isValid =
      (spheres.filter isValid).map (image f) := by
    rw [List.filter_map]
    simp only [Function.comp_def, isValid_image h]
  rw [enclosing, enclosing, hvalid]
  cases spheres.filter isValid with
  | nil => exact image_empty h
  | cons s rest =>
    have hcenter : (Box.ofPoints (((s :: rest).map (image f)).map (·.center))).center =
        (Box.ofPoints ((s :: rest).map (·.center))).center.image f := by
      rw [← Box.center_image h, Box.image_ofPoints h, List.map_map, List.map_map]
      rfl
    have hreach (center : Vec3 α) :
        ((s :: rest).map (image f)).map (fun s => (s.center - center.image f).length + s.radius) =
          ((s :: rest).map fun s => (s.center - center).length + s.radius).map f := by
      rw [List.map_map, List.map_map]
      refine List.map_congr_left fun t _ => ?_
      simp only [Function.comp_apply, image, ← Vec3.image_sub h, Vec3.length_image h, h.add]
    simp only [List.map_cons] at hcenter hreach ⊢
    simp only [hcenter, hreach]
    rw [image, ← h.foldl_most, List.map_cons]

end Sphere

namespace Mesh

theorem image_moved (h : IsChange f) (m : Mesh α) (x : Matrix α) :
    (m.moved x).image f = (m.image f).moved (x.image f) := by
  simp only [moved, image, Array.map_map, Function.comp_def, Matrix.movePoint_image h]

theorem bound_image (h : IsChange f) (m : Mesh α) : (m.image f).bound = m.bound.image f := by
  rw [bound, bound, Sphere.image_ofBox h, Box.image_ofPoints h, image, Array.toList_map]

end Mesh

namespace Node

theorem place_image (h : IsChange f) (b : Branching α) (s : Sphere α) :
    (b.image f).place (s.image f) = (b.place s).image f := by
  cases b with
  | transform m => exact (Sphere.image_moved h s m).symm
  | _ => rfl

theorem bound_image (h : IsChange f) (n : Node α) : (n.image f).bound = n.bound.image f := by
  induction n with
  | branch a b children ih =>
    have hbounds : (children.map (image f)).map bound =
        (children.map bound).map (Sphere.image f) := by
      rw [List.map_map, List.map_map]
      exact List.map_congr_left ih
    rw [image_branch, bound, bound, bounds_eq, bounds_eq, hbounds, ← Sphere.image_enclosing h,
      place_image h]
  | drawable a mesh => exact Mesh.bound_image h mesh
  | posed a posing source ih => exact ih
  | particle a role => exact (Sphere.image_empty h).symm

theorem image_wrapped (h : IsChange f) (acc : Matrix α) (n : Node α) :
    (wrapped acc n).image f = wrapped (acc.image f) (n.image f) := by
  rw [wrapped, wrapped, Matrix.isIdentity_image h]
  split
  · rfl
  · rw [image_branch, List.map_singleton]
    rfl

theorem image_bake (h : IsChange f) (n : Node α) (acc : Matrix α) :
    (bake acc n).image f = bake (acc.image f) (n.image f) := by
  induction n generalizing acc with
  | branch a b children ih =>
    have hall (acc : Matrix α) : (bakeAll acc children).map (image f) =
        bakeAll (acc.image f) (children.map (image f)) := by
      rw [bakeAll_eq, bakeAll_eq, List.map_map, List.map_map]
      exact List.map_congr_left fun c hc => ih c hc acc
    rw [image_branch]
    cases b with
    | transform m =>
      rw [Branching.image, bake, bake, ← Matrix.image_mul h, ← hall, ← Matrix.image_identity h,
        ← hall]
      split
      · exact image_branch _ _ _
      · exact image_branch _ _ _
    | _ => simp only [Branching.image, bake, image_branch, hall]
  | drawable a mesh =>
    simp only [bake, image, Matrix.isIdentity_image h]
    split
    · rfl
    · rw [Mesh.image_moved h]
  | posed a posing source ih =>
    rw [bake, image_wrapped h, image, bake]
  | particle a role => rw [bake, image_wrapped h, image, bake]

theorem baked_image (h : IsChange f) (n : Node α) : (n.image f).baked = n.baked.image f := by
  cases n with
  | branch a b children =>
    rw [image_branch, baked, baked, image_branch, ← Matrix.image_identity h, bakeAll_eq, bakeAll_eq,
      List.map_map, List.map_map]
    congr 1
    exact List.map_congr_left fun c _ => (image_bake h c .identity).symm
  | _ => simp only [image, baked]

end Node

namespace Member

omit [Scalar α] [Scalar β] in
theorem ofNode?_image (n : Node α) : ofNode? (n.image f) = (ofNode? n).map (image f) := by
  cases n with
  | drawable a mesh =>
    simp only [Node.image, ofNode?]
    split <;> rfl
  | _ => simp only [Node.image, ofNode?, Option.map_none]

omit [Scalar α] [Scalar β] in
theorem companions_image (state : Option StateSet) (ns : List (Node α)) :
    companions state (ns.map (Node.image f)) = (companions state ns).map (image f) := by
  rw [companions, companions, List.filterMap_map, List.map_filterMap]
  refine List.filterMap_congr fun n _ => ?_
  simp only [Function.comp_apply, ofNode?_image]
  cases ofNode? n with
  | none => rfl
  | some m =>
    simp only [Option.map_some, Option.filter, image]
    split <;> rfl

omit [Scalar α] [Scalar β] in
theorem others_image (state : Option StateSet) (ns : List (Node α)) :
    others state (ns.map (Node.image f)) = (others state ns).map (Node.image f) := by
  rw [others, others, List.filter_map]
  congr 1
  refine List.filter_congr fun n _ => ?_
  simp only [Function.comp_apply, isCompanion, ofNode?_image]
  cases ofNode? n <;> rfl

theorem distance_image (h : IsChange f) (eye : Vec3 α) (m : Member α) :
    (m.image f).distance (eye.image f) = f (m.distance eye) := by
  simp only [distance, image, Mesh.bound_image h, Sphere.isValid_image h, apply_ite f, h.zero]
  simp only [Sphere.image, ← Vec3.image_sub h, Vec3.length_image h]

theorem isLength_distance (eye : Vec3 α) (m : Member α) : IsLength (m.distance eye) := by
  simp only [distance]
  split
  · exact .length _
  · exact .zero

end Member

namespace MergeRule

variable {rule : MergeRule α}

theorem order_image (h : IsChange f) (ms : List (Member α)) :
    (rule.image f).order (ms.map (Member.image f)) = (rule.order ms).map (Member.image f) := by
  cases ms with
  | nil => rfl
  | cons m ms =>
    obtain ⟨eye, mergesTransparent⟩ := rule
    cases eye with
    | none => rfl
    | some eye =>
      simp only [order, image, Option.map_some, List.map_cons]
      rw [← List.map_cons]
      have hstate : (m.image f).attributes = m.attributes := rfl
      rw [hstate]
      split
      · refine (List.map_mergeSort fun a _ b _ => ?_).symm
        simp only [Member.distance_image h]
        exact (h.precedes (b.isLength_distance eye) (a.isLength_distance eye)).symm
      · rfl

omit [Scalar α] [Scalar β] in
theorem foldl_append_image (mesh : Mesh α) (ms : List (Member α)) :
    (ms.map (Member.image f)).foldl (fun mesh m => mesh.append m.mesh) (mesh.image f) =
      (ms.foldl (fun mesh m => mesh.append m.mesh) mesh).image f := by
  rw [List.foldl_map]
  exact List.foldl_hom (Mesh.image f) fun a m => (Mesh.image_append a m.mesh).symm

theorem join_image (h : IsChange f) (first : Member α) (rest : List (Member α)) :
    (rule.image f).join (first.image f) (rest.map (Member.image f)) =
      (rule.join first rest).image f := by
  rw [join, join, Node.image, ← List.map_cons, order_image h, ← Mesh.image_empty,
    foldl_append_image]
  rfl

theorem mergeSiblings_image (h : IsChange f) (ns : List (Node α)) :
    (rule.image f).mergeSiblings (ns.map (Node.image f)) =
      (rule.mergeSiblings ns).map (Node.image f) := by
  have hfirst {n : Node α} {m : Member α} (hn : Member.ofNode? n = some m) :
      Member.ofNode? (n.image f) = some (m.image f) := by
    rw [Member.ofNode?_image, hn]
    rfl
  have hcompanions {m : Member α} {ns : List (Node α)} {ms : List (Member α)}
      (hms : Member.companions m.attributes.state ns = ms) :
      Member.companions (m.image f).attributes.state (ns.map (Node.image f)) =
        ms.map (Member.image f) := hms ▸ Member.companions_image _ ns
  fun_induction mergeSiblings rule ns with
  | case1 => rw [List.map_nil, mergeSiblings]
  | case2 n rest hn ih =>
    have hnone : Member.ofNode? (n.image f) = none := by
      rw [Member.ofNode?_image, hn]
      rfl
    rw [List.map_cons, List.map_cons, mergeSiblings]
    simp only [hnone, ih]
  | case3 n rest first hn state hc ih =>
    rw [List.map_cons, List.map_cons, mergeSiblings]
    simp only [hfirst hn, hcompanions hc, List.map_nil, ih]
  | case4 n rest first hn state c cs hc hpermits ih =>
    have hpermits' : (rule.image f).permits (first.image f).attributes.state = true := hpermits
    rw [List.map_cons, List.map_cons, mergeSiblings]
    simp only [hfirst hn, hcompanions hc, hpermits', List.map_cons, if_true]
    rw [← List.map_cons, join_image h, Member.others_image]
    exact congrArg _ ih
  | case5 n rest first hn state c cs hc hpermits ih =>
    have hpermits' : ¬ (rule.image f).permits (first.image f).attributes.state = true := hpermits
    rw [List.map_cons, List.map_cons, mergeSiblings]
    simp only [hfirst hn, hcompanions hc, hpermits', List.map_cons, ih]
    rfl

theorem merge_image (h : IsChange f) (n : Node α) :
    (rule.image f).merge (n.image f) = (rule.merge n).image f := by
  induction n with
  | branch a b children ih =>
    have hall : mergeAll (rule.image f) (children.map (Node.image f)) =
        (mergeAll rule children).map (Node.image f) := by
      rw [mergeAll_eq, mergeAll_eq, List.map_map, List.map_map]
      exact List.map_congr_left ih
    rw [Node.image_branch, merge, merge, Node.image_branch, Branching.isPlacing_image, hall,
      mergeSiblings_image h]
    split <;> rfl
  | _ => simp only [Node.image, merge]

end MergeRule

/-- Optimization commutes with a change of numbers. -/
theorem Node.optimized_image (h : IsChange f) (rule : MergeRule α) (passes : Passes) (n : Node α) :
    (n.image f).optimized (rule.image f) passes = (n.optimized rule passes).image f := by
  simp only [optimized, apply_ite (image f), ← MergeRule.merge_image h, ← lifted_image,
    ← baked_image h]

end DistantChunks
