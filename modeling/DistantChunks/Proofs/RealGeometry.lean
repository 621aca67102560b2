import DistantChunks.Proofs.TightBoxes
import DistantChunks.Space.Sphere
import Mathlib.Analysis.InnerProductSpace.PiL2

/-!
# Exact geometry

The geometry read over the reals, with exact roots. A sphere contains a point if it is not farther
from the center than the radius. Boxes contain their points, the sphere around a box contains the
box, and an enclosing sphere contains what its spheres contain. A sphere that follows a matrix is
scaled by the longest axis, which is enough exactly if the matrix stretches no vector more than
that, `Matrix.StretchesAlongAxes`; axes at right angles are such a case.
-/

namespace DistantChunks

noncomputable section

/-- Exact arithmetic. An empty box starts where it does in single precision. -/
instance : Scalar ℝ where
  zero := 0
  one := 1
  decLt := inferInstance
  decLe := inferInstance
  same a b := decide (a = b)
  half := 1 / 2
  sqrt := Real.sqrt
  greatest := (2 ^ 24 - 1) * 2 ^ 104
  floor a := ⌊a⌋
  ofInt n := n
  toInt a := if 0 ≤ a then ⌊a⌋ else ⌈a⌉
  precedes a b := decide (a ≤ b)

theorem Scalar.greatest_eq : (Scalar.greatest : ℝ) = (2 ^ 24 - 1) * 2 ^ 104 := rfl

/-- The real that a number stands for; infinities and nan are read as zero. -/
def Single.toReal (x : Float32) : ℝ := ((number? x.toModel.unpack).getD 0 : ℚ)

theorem Denotes.toReal {x : Float32} {q : ℚ} (h : Denotes x q) : Single.toReal x = q := by
  rw [Single.toReal, h, Option.getD_some]

namespace Scalar

theorem least_eq_min (a b : ℝ) : least a b = min a b := by
  unfold least
  split
  · next h => exact (min_eq_right h.le).symm
  · next h =>
    rw [if_pos le_rfl]
    exact (min_eq_left (not_lt.1 h)).symm

theorem most_eq_max (a b : ℝ) : most a b = max a b := by
  unfold most
  split
  · next h => exact (max_eq_right h.le).symm
  · next h =>
    rw [if_pos le_rfl]
    exact (max_eq_left (not_lt.1 h)).symm

end Scalar

namespace Vec3

theorem eq_of_coordinates {α : Type} {v w : Vec3 α} (hx : v.x = w.x) (hy : v.y = w.y)
    (hz : v.z = w.z) : v = w := by
  obtain ⟨x, y, z⟩ := v
  rw [Vec3.mk.injEq]
  exact ⟨hx, hy, hz⟩

variable (u v w : Vec3 ℝ)

def euclid : EuclideanSpace ℝ (Fin 3) := !₂[v.x, v.y, v.z]

theorem length_eq_norm : v.length = ‖v.euclid‖ := by
  rw [EuclideanSpace.norm_eq, Fin.sum_univ_three]
  change Real.sqrt (v.x * v.x + v.y * v.y + v.z * v.z) = _
  simp [euclid, sq]

theorem length_nonneg : 0 ≤ v.length := Real.sqrt_nonneg _

theorem length_add_le : (v + w).length ≤ v.length + w.length := by
  have heuclid : (v + w).euclid = v.euclid + w.euclid := by
    ext i
    fin_cases i <;> rfl
  rw [length_eq_norm, length_eq_norm, length_eq_norm, heuclid]
  exact norm_add_le _ _

theorem length_sub_le : (u - w).length ≤ (u - v).length + (v - w).length := by
  have hsplit : u - w = (u - v) + (v - w) :=
    eq_of_coordinates (sub_add_sub_cancel u.x v.x w.x).symm (sub_add_sub_cancel u.y v.y w.y).symm
      (sub_add_sub_cancel u.z v.z w.z).symm
  rw [hsplit]
  exact length_add_le _ _

theorem lengthSquared_eq : v.lengthSquared = v.x ^ 2 + v.y ^ 2 + v.z ^ 2 := by
  change v.x * v.x + v.y * v.y + v.z * v.z = _
  ring

theorem lengthSquared_nonneg : 0 ≤ v.lengthSquared := by
  rw [lengthSquared_eq]
  positivity

theorem sq_length : v.length ^ 2 = v.lengthSquared := Real.sq_sqrt (lengthSquared_nonneg v)

theorem length_scale {t : ℝ} (ht : 0 ≤ t) : (v.scale t).length = v.length * t := by
  have hsquared : (v.scale t).lengthSquared = v.lengthSquared * t ^ 2 := by
    rw [lengthSquared_eq, lengthSquared_eq]
    change (v.x * t) ^ 2 + (v.y * t) ^ 2 + (v.z * t) ^ 2 = _
    ring
  change Real.sqrt (v.scale t).lengthSquared = Real.sqrt v.lengthSquared * t
  rw [hsquared, Real.sqrt_mul (lengthSquared_nonneg v), Real.sqrt_sq ht]

theorem abs_along_le_length (d : Direction) : |v.along d| ≤ v.length := by
  rw [← Real.sqrt_sq_eq_abs]
  refine Real.sqrt_le_sqrt ?_
  rw [lengthSquared_eq]
  cases d with
  | x => change v.x ^ 2 ≤ _; nlinarith [sq_nonneg v.y, sq_nonneg v.z]
  | y => change v.y ^ 2 ≤ _; nlinarith [sq_nonneg v.x, sq_nonneg v.z]
  | z => change v.z ^ 2 ≤ _; nlinarith [sq_nonneg v.x, sq_nonneg v.y]

variable {v w}

theorem length_le_iff {r : ℝ} (hr : 0 ≤ r) : v.length ≤ r ↔ v.lengthSquared ≤ r ^ 2 :=
  Real.sqrt_le_left hr

theorem length_eq_of_sq {r : ℝ} (hr : 0 ≤ r) (h : v.lengthSquared = r ^ 2) : v.length = r := by
  change Real.sqrt v.lengthSquared = r
  rw [h, Real.sqrt_sq hr]

theorem length_le_mul_half (hx : |v.x| ≤ w.x / 2) (hy : |v.y| ≤ w.y / 2) (hz : |v.z| ≤ w.z / 2) :
    v.length ≤ w.length * Scalar.half := by
  have hhalf : (Scalar.half : ℝ) = 1 / 2 := rfl
  rw [length_le_iff (mul_nonneg (length_nonneg w) (by rw [hhalf]; norm_num)), mul_pow, sq_length,
    lengthSquared_eq, lengthSquared_eq, hhalf]
  have hsquare {a b : ℝ} (h : |a| ≤ b / 2) : a ^ 2 ≤ b ^ 2 / 4 := by
    calc a ^ 2 = |a| ^ 2 := (sq_abs a).symm
      _ ≤ (b / 2) ^ 2 := pow_le_pow_left₀ (abs_nonneg a) h 2
      _ = b ^ 2 / 4 := by ring
  linarith [hsquare hx, hsquare hy, hsquare hz]

end Vec3

namespace Sphere

variable {s : Sphere ℝ} {p : Vec3 ℝ}

theorem isValid_iff (s : Sphere ℝ) : s.isValid = true ↔ 0 ≤ s.radius := decide_eq_true_iff

theorem contains_iff (s : Sphere ℝ) (p : Vec3 ℝ) :
    s.contains p = true ↔ (p - s.center).length ≤ s.radius := by
  have hsquared : s.radiusSquared = s.radius ^ 2 := (sq s.radius).symm
  rw [contains, Bool.and_eq_true, isValid_iff, decide_eq_true_iff, hsquared]
  constructor
  · rintro ⟨hr, hle⟩
    exact (Vec3.length_le_iff hr).2 hle
  · intro hle
    have hr : 0 ≤ s.radius := (Vec3.length_nonneg _).trans hle
    exact ⟨hr, (Vec3.length_le_iff hr).1 hle⟩

theorem isValid_empty : (empty : Sphere ℝ).isValid = false := by
  rw [← Bool.not_eq_true, isValid_iff]
  change ¬ (0 : ℝ) ≤ -1
  norm_num

theorem isValid_of_contains (h : s.contains p = true) : s.isValid = true :=
  (Bool.and_eq_true_iff.1 h).1

end Sphere

/-! ### Boxes -/

/-- A row of choices ends before its start and before every number of the row. -/
theorem foldl_before (before : ℝ → ℝ → Prop) [IsPreorder ℝ before] {op : ℝ → ℝ → ℝ}
    (hop : ∀ a b, before (op a b) a ∧ before (op a b) b) (start : ℝ) (xs : List ℝ) :
    before (xs.foldl op start) start ∧ ∀ x ∈ xs, before (xs.foldl op start) x := by
  induction xs generalizing start with
  | nil => exact ⟨refl start, fun _ hx => absurd hx List.not_mem_nil⟩
  | cons y xs ih =>
    obtain ⟨hstart, hxs⟩ := ih (op start y)
    rw [List.foldl_cons, List.forall_mem_cons]
    have hbefore {a : ℝ} (ha : before (op start y) a) : before (xs.foldl op (op start y)) a :=
      IsTrans.trans _ _ _ hstart ha
    exact ⟨hbefore (hop start y).1, hbefore (hop start y).2, hxs⟩

theorem foldl_least_le (start : ℝ) (xs : List ℝ) : ∀ x ∈ xs, xs.foldl Scalar.least start ≤ x :=
  (foldl_before (· ≤ ·) (fun a b => by simp [Scalar.least_eq_min]) start xs).2

theorem le_foldl_most (start : ℝ) (xs : List ℝ) :
    start ≤ xs.foldl Scalar.most start ∧ ∀ x ∈ xs, x ≤ xs.foldl Scalar.most start :=
  foldl_before (· ≥ ·) (fun a b => by simp [Scalar.most_eq_max]) start xs

namespace Box

variable {points : List (Vec3 ℝ)} {p : Vec3 ℝ}

theorem along_bounds (hp : p ∈ points) (d : Direction) :
    (ofPoints points).min.along d ≤ p.along d ∧ p.along d ≤ (ofPoints points).max.along d := by
  have hd : p.along d ∈ points.map (·.along d) := List.mem_map_of_mem hp
  rw [along_min_ofPoints, along_max_ofPoints]
  exact ⟨foldl_least_le _ _ _ hd, (le_foldl_most _ _).2 _ hd⟩

theorem isValid_ofPoints_iff (points : List (Vec3 ℝ)) :
    (ofPoints points).isValid = true ↔ points ≠ [] := by
  rw [isValid_iff]
  constructor
  · rintro h rfl
    have hx : (Scalar.greatest : ℝ) ≤ -Scalar.greatest := h .x
    norm_num [Scalar.greatest_eq] at hx
  · intro hne d
    obtain ⟨p, hp⟩ := List.exists_mem_of_ne_nil points hne
    exact (along_bounds hp d).1.trans (along_bounds hp d).2

end Box

namespace Sphere

variable {s : Sphere ℝ} {p : Vec3 ℝ}

theorem ofBox_contains {points : List (Vec3 ℝ)} (hp : p ∈ points) :
    (ofBox (Box.ofPoints points)).contains p = true := by
  have hvalid := (Box.isValid_ofPoints_iff points).2 (List.ne_nil_of_mem hp)
  rw [contains_iff, ofBox, if_pos hvalid]
  have hmiddle {a b c : ℝ} (h : a ≤ c ∧ c ≤ b) : |c - (a + b) * (1 / 2)| ≤ (b - a) / 2 :=
    abs_le.2 ⟨by linarith, by linarith⟩
  have hbounds := Box.along_bounds hp
  exact Vec3.length_le_mul_half (hmiddle (hbounds .x)) (hmiddle (hbounds .y)) (hmiddle (hbounds .z))

theorem isValid_ofBox_iff (points : List (Vec3 ℝ)) :
    (ofBox (Box.ofPoints points)).isValid = true ↔ points ≠ [] := by
  constructor
  · rintro h rfl
    have hempty : ¬ (Box.ofPoints ([] : List (Vec3 ℝ))).isValid = true := fun hvalid =>
      (Box.isValid_ofPoints_iff []).1 hvalid rfl
    rw [ofBox, if_neg hempty, isValid_empty] at h
    cases h
  · intro hne
    obtain ⟨p, hp⟩ := List.exists_mem_of_ne_nil points hne
    exact isValid_of_contains (ofBox_contains hp)

/-! ### Enclosing spheres -/

theorem isValid_enclosing_iff (spheres : List (Sphere ℝ)) :
    (enclosing spheres).isValid = true ↔ ∃ s ∈ spheres, s.isValid = true := by
  have hmem : (∃ s ∈ spheres, s.isValid = true) ↔ spheres.filter isValid ≠ [] := by
    simp [List.filter_eq_nil_iff]
  rw [hmem, enclosing]
  split
  · next hnil => simp [isValid_empty, hnil]
  · next hne =>
    rw [isValid_iff]
    exact ⟨fun _ => hne, fun _ => (le_foldl_most 0 _).1⟩

theorem enclosing_contains {spheres : List (Sphere ℝ)} (hs : s ∈ spheres)
    (hp : s.contains p = true) : (enclosing spheres).contains p = true := by
  have hmem : s ∈ spheres.filter isValid := List.mem_filter.2 ⟨hs, isValid_of_contains hp⟩
  rw [contains_iff] at hp ⊢
  rw [enclosing]
  split
  · next hnil =>
    rw [hnil] at hmem
    cases hmem
  · set center := (Box.ofPoints ((spheres.filter isValid).map (·.center))).center
    have hreach := (le_foldl_most 0 _).2 _ (List.mem_map_of_mem
      (f := fun s : Sphere ℝ => (s.center - center).length + s.radius) hmem)
    calc (p - center).length ≤ (p - s.center).length + (s.center - center).length :=
          Vec3.length_sub_le _ _ _
      _ ≤ (s.center - center).length + s.radius := by linarith
      _ ≤ _ := hreach

end Sphere

/-! ### Spheres that follow a matrix -/

namespace Matrix

variable (m : Matrix ℝ)

/-- What a matrix does to the offset between two points. -/
def moveOffset (v : Vec3 ℝ) : Vec3 ℝ where
  x := m.x.x * v.x + m.y.x * v.y + m.z.x * v.z
  y := m.x.y * v.x + m.y.y * v.y + m.z.y * v.z
  z := m.x.z * v.x + m.y.z * v.y + m.z.z * v.z

theorem movePoint_sub (p q : Vec3 ℝ) : m.movePoint p - m.movePoint q = m.moveOffset (p - q) := by
  have hterm (a b c d px py pz qx qy qz : ℝ) :
      d + (c * pz + (b * py + a * px)) - (d + (c * qz + (b * qy + a * qx))) =
        a * (px - qx) + b * (py - qy) + c * (pz - qz) := by ring
  exact Vec3.eq_of_coordinates (hterm ..) (hterm ..) (hterm ..)

theorem moveOffset_scale (v : Vec3 ℝ) (t : ℝ) :
    m.moveOffset (v.scale t) = (m.moveOffset v).scale t := by
  have hterm (a b c x y z : ℝ) :
      a * (x * t) + b * (y * t) + c * (z * t) = (a * x + b * y + c * z) * t := by ring
  exact Vec3.eq_of_coordinates (hterm ..) (hterm ..) (hterm ..)

/-- The length of the longest axis. -/
def longestAxis : ℝ := max (max m.x.truncate.length m.y.truncate.length) m.z.truncate.length

theorem longestAxis_nonneg : 0 ≤ m.longestAxis :=
  (Vec3.length_nonneg m.z.truncate).trans (le_max_right _ _)

/-- No vector is stretched more than the longest axis. -/
def StretchesAlongAxes : Prop :=
  ∀ v : Vec3 ℝ, (m.moveOffset v).length ≤ v.length * m.longestAxis

variable {m}

/-- A vector that is stretched more may be chosen as short as one likes. -/
theorem exists_stretched (h : ¬ m.StretchesAlongAxes) :
    ∃ v : Vec3 ℝ, v.length ≤ 1 ∧ v.length * m.longestAxis < (m.moveOffset v).length := by
  rw [StretchesAlongAxes, not_forall] at h
  obtain ⟨v, hv⟩ := h
  rw [not_le] at hv
  have hpos : 0 < 1 + v.length := by linarith [v.length_nonneg]
  have ht : 0 < (1 + v.length)⁻¹ := inv_pos.2 hpos
  refine ⟨v.scale (1 + v.length)⁻¹, ?_, ?_⟩
  · rw [Vec3.length_scale v ht.le, mul_inv_le_iff₀ hpos]
    linarith
  · rw [moveOffset_scale, Vec3.length_scale v ht.le, Vec3.length_scale _ ht.le, mul_right_comm]
    exact mul_lt_mul_of_pos_right hv ht

theorem stretchesAlongAxes_of_dot (hxy : m.x.truncate.dot m.y.truncate = 0)
    (hxz : m.x.truncate.dot m.z.truncate = 0) (hyz : m.y.truncate.dot m.z.truncate = 0) :
    m.StretchesAlongAxes := by
  intro v
  have hlong := m.longestAxis_nonneg
  have hsquared {a : Vec3 ℝ} (ha : a.length ≤ m.longestAxis) :
      a.lengthSquared ≤ m.longestAxis ^ 2 := (Vec3.length_le_iff hlong).1 ha
  have hx := hsquared ((le_max_left _ _).trans (le_max_left _ _) : m.x.truncate.length ≤ _)
  have hy := hsquared ((le_max_right _ _).trans (le_max_left _ _) : m.y.truncate.length ≤ _)
  have hz := hsquared (le_max_right _ _ : m.z.truncate.length ≤ _)
  have hexpand : (m.moveOffset v).lengthSquared = v.x ^ 2 * m.x.truncate.lengthSquared +
      v.y ^ 2 * m.y.truncate.lengthSquared + v.z ^ 2 * m.z.truncate.lengthSquared := by
    change m.x.x * m.y.x + m.x.y * m.y.y + m.x.z * m.y.z = 0 at hxy
    change m.x.x * m.z.x + m.x.y * m.z.y + m.x.z * m.z.z = 0 at hxz
    change m.y.x * m.z.x + m.y.y * m.z.y + m.y.z * m.z.z = 0 at hyz
    simp only [Vec3.lengthSquared_eq, moveOffset, Vec4.truncate]
    linear_combination 2 * v.x * v.y * hxy + 2 * v.x * v.z * hxz + 2 * v.y * v.z * hyz
  rw [Vec3.length_le_iff (mul_nonneg (Vec3.length_nonneg v) hlong), mul_pow, Vec3.sq_length,
    hexpand, Vec3.lengthSquared_eq v, add_mul, add_mul]
  gcongr

/-- A placement turns, scales and shifts. -/
theorem stretchesAlongAxes_ofPlacement (scale : ℝ) {q : Quaternion ℝ} (t : Vec3 ℝ)
    (hq : q.x ^ 2 + q.y ^ 2 + q.z ^ 2 + q.w ^ 2 = 1) :
    (ofPlacement scale q t).StretchesAlongAxes := by
  refine stretchesAlongAxes_of_dot ?_ ?_ ?_
  · simp only [ofPlacement, Vec4.scale, Vec4.truncate, Vec3.dot]
    linear_combination (-4 * q.x * q.y * scale ^ 2) * hq
  · simp only [ofPlacement, Vec4.scale, Vec4.truncate, Vec3.dot]
    linear_combination (-4 * q.x * q.z * scale ^ 2) * hq
  · simp only [ofPlacement, Vec4.scale, Vec4.truncate, Vec3.dot]
    linear_combination (-4 * q.y * q.z * scale ^ 2) * hq

end Matrix

namespace Sphere

variable {s : Sphere ℝ} {p : Vec3 ℝ} {m : Matrix ℝ}

theorem moved_eq (h : s.isValid = true) :
    s.moved m = ⟨m.movePoint s.center, s.radius * m.longestAxis⟩ := by
  rw [moved, if_pos h, Scalar.most_eq_max, Scalar.most_eq_max, Matrix.longestAxis]

theorem isValid_moved (s : Sphere ℝ) (m : Matrix ℝ) : (s.moved m).isValid = s.isValid := by
  cases h : s.isValid with
  | true =>
    rw [moved_eq h, isValid_iff]
    exact mul_nonneg ((isValid_iff s).1 h) m.longestAxis_nonneg
  | false => rw [moved, h, if_neg Bool.false_ne_true, h]

theorem moved_contains (hm : m.StretchesAlongAxes) (hp : s.contains p = true) :
    (s.moved m).contains (m.movePoint p) = true := by
  rw [moved_eq (isValid_of_contains hp), contains_iff, Matrix.movePoint_sub]
  calc (m.moveOffset (p - s.center)).length ≤ (p - s.center).length * m.longestAxis := hm _
    _ ≤ s.radius * m.longestAxis :=
      mul_le_mul_of_nonneg_right ((contains_iff s p).1 hp) m.longestAxis_nonneg

/-- The sphere around a point and the origin. -/
theorem ofBox_pair (v : Vec3 ℝ) :
    ofBox (Box.ofPoints [v, 0]) = ⟨v.scale Scalar.half, v.length * Scalar.half⟩ := by
  have hgreatest : (0 : ℝ) ≤ Scalar.greatest := by norm_num [Scalar.greatest_eq]
  have hmin (a : ℝ) : Scalar.least (Scalar.least Scalar.greatest a) 0 = min a 0 := by
    rw [Scalar.least_eq_min, Scalar.least_eq_min, min_assoc,
      min_eq_right ((min_le_right a 0).trans hgreatest)]
  have hmax (a : ℝ) : Scalar.most (Scalar.most (-Scalar.greatest) a) 0 = max a 0 := by
    rw [Scalar.most_eq_max, Scalar.most_eq_max, max_assoc,
      max_eq_right ((neg_nonpos.2 hgreatest).trans (le_max_right a 0))]
  have hbox : Box.ofPoints [v, 0] =
      ⟨⟨min v.x 0, min v.y 0, min v.z 0⟩, ⟨max v.x 0, max v.y 0, max v.z 0⟩⟩ := by
    change Box.mk (Vec3.mk _ _ _) (Vec3.mk _ _ _) = _
    rw [← hmin, ← hmin, ← hmin, ← hmax, ← hmax, ← hmax]
    rfl
  have hvalid := (Box.isValid_ofPoints_iff [v, 0]).2 (List.cons_ne_nil _ _)
  have hcenter (a : ℝ) : (min a 0 + max a 0) * Scalar.half = a * Scalar.half := by
    rw [min_add_max, add_zero]
  have hsize (a : ℝ) : max a 0 - min a 0 = |a| := by rw [max_sub_min_eq_abs', sub_zero]
  have hlength : Vec3.length ⟨|v.x|, |v.y|, |v.z|⟩ = v.length := by
    change Real.sqrt (Vec3.lengthSquared _) = Real.sqrt (Vec3.lengthSquared _)
    rw [Vec3.lengthSquared_eq, Vec3.lengthSquared_eq, sq_abs, sq_abs, sq_abs]
  rw [ofBox, if_pos hvalid, hbox]
  change Sphere.mk ⟨(min v.x 0 + max v.x 0) * Scalar.half, (min v.y 0 + max v.y 0) * Scalar.half,
    (min v.z 0 + max v.z 0) * Scalar.half⟩
    (Vec3.length ⟨max v.x 0 - min v.x 0, max v.y 0 - min v.y 0, max v.z 0 - min v.z 0⟩ *
      Scalar.half) = _
  rw [hcenter, hcenter, hcenter, hsize, hsize, hsize, hlength]
  rfl

/-- A single sphere is enclosed by itself, unless its center is beyond the greatest number. -/
theorem enclosing_singleton (hs : s.isValid = true)
    (hcenter : ∀ d, |s.center.along d| ≤ Scalar.greatest) : enclosing [s] = s := by
  have hmiddle {a : ℝ} (ha : |a| ≤ Scalar.greatest) :
      (Scalar.least Scalar.greatest a + Scalar.most (-Scalar.greatest) a) * Scalar.half = a := by
    obtain ⟨hlow, hhigh⟩ := abs_le.1 ha
    rw [Scalar.least_eq_min, Scalar.most_eq_max, min_eq_right hhigh, max_eq_right hlow]
    change (a + a) * (1 / 2) = a
    ring
  have hbox : (Box.ofPoints [s.center]).center = s.center := by
    exact Vec3.eq_of_coordinates (hmiddle (hcenter .x)) (hmiddle (hcenter .y))
      (hmiddle (hcenter .z))
  have hself : (s.center - s.center).length = 0 := by
    change Real.sqrt (Vec3.lengthSquared _) = 0
    rw [Vec3.lengthSquared_eq, Real.sqrt_eq_zero (by positivity)]
    change (s.center.x - s.center.x) ^ 2 + (s.center.y - s.center.y) ^ 2 +
      (s.center.z - s.center.z) ^ 2 = 0
    ring
  have hreach : Scalar.most 0 ((s.center - s.center).length + s.radius) = s.radius := by
    rw [hself, zero_add, Scalar.most_eq_max, max_eq_right ((isValid_iff s).1 hs)]
  rw [enclosing, List.filter_cons_of_pos hs, List.filter_nil]
  change Sphere.mk (Box.ofPoints [s.center]).center
    (Scalar.most 0 ((s.center - (Box.ofPoints [s.center]).center).length + s.radius)) = s
  rw [hbox, hreach]

end Sphere

end

end DistantChunks
