import DistantChunks.Proofs.ZeroSigns
import DistantChunks.Space.Box

/-!
# Tight boxes

A box is grown from its points by choosing, on each axis, the least and the greatest coordinate.
The bounds of an axis are read off the coordinates on it that are numbers, `Box.numbers`, so nan
shows on no axis; and where these are finite, the bounds are the least and the greatest of them,
whatever their order and however often each of them occurs.
-/

namespace DistantChunks

open Float.Model Float.Model.UnpackedFloat

inductive Direction
  | x
  | y
  | z
  deriving DecidableEq, Repr

def Vec3.along {α : Type} (v : Vec3 α) : Direction → α
  | .x => v.x
  | .y => v.y
  | .z => v.z

theorem Vec3.along_zipWith {α : Type} [Scalar α] (f : α → α → α) (v w : Vec3 α) (d : Direction) :
    (v.zipWith f w).along d = f (v.along d) (w.along d) := by
  cases d <;> rfl

theorem Vec3.along_splat {α : Type} [Scalar α] (a : α) (d : Direction) :
    (Vec3.splat a).along d = a := by
  cases d <;> rfl

namespace Single

theorem isNaN_iff_unpack (x : Float32) : x.isNaN = true ↔ x.toModel.unpack = .notANumber := by
  change x.toModel.unpack.isNaN = true ↔ _
  cases x.toModel.unpack <;> simp [UnpackedFloat.isNaN]

theorem exists_denotes {x : Float32} (h : x.isFinite = true) : ∃ q, Denotes x q := by
  change x.toModel.unpack.isFinite = true at h
  simp only [Denotes]
  cases hx : x.toModel.unpack with
  | zero s => exact ⟨0, rfl⟩
  | finite s m e hm => exact ⟨_, rfl⟩
  | infinity | notANumber =>
    rw [hx] at h
    cases h

theorem le_self_iff (x : Float32) : x ≤ x ↔ x.isNaN = false := by
  rw [le_iff_compare, ← Bool.not_eq_true, isNaN_iff_unpack]
  cases x.toModel.unpack with
  | zero s => simp [UnpackedFloat.compare]
  | infinity s => cases s <;> simp [UnpackedFloat.compare] <;> rfl
  | finite s m e hm => cases s <;> simp [UnpackedFloat.compare]
  | notANumber => simp [UnpackedFloat.compare]

theorem isNaN_of_lt {x y : Float32} (h : x < y) : x.isNaN = false ∧ y.isNaN = false := by
  rw [lt_iff_compare] at h
  simp only [← Bool.not_eq_true, isNaN_iff_unpack]
  constructor
  · intro hx
    rw [hx] at h
    cases h
  · intro hy
    rw [hy] at h
    cases hx : x.toModel.unpack <;> rw [hx] at h <;> cases h

end Single

namespace Denotes

variable {x y : Float32} {p q : ℚ}

theorem beq_iff (hx : Denotes x p) (hy : Denotes y q) : (x == y) = true ↔ p = q := by
  change (x.toModel.unpack.compare y.toModel.unpack == some .eq) = true ↔ _
  rw [hx.compare_eq hy, beq_iff_eq, Option.some.injEq, compare_eq_iff_eq]

theorem isNaN_eq (hx : Denotes x p) : x.isNaN = false :=
  (Single.le_self_iff x).1 ((hx.le_iff hx).2 le_rfl)

end Denotes

namespace Single

def limit : ℚ := (2 ^ 24 - 1) * 2 ^ 104

theorem denotes_greatest : Denotes Scalar.greatest limit := by decide +kernel

theorem abs_le_limit {x : Float32} {q : ℚ} (h : Denotes x q) : |q| ≤ limit := by
  rcases h.unpack_cases with ⟨s, -, rfl⟩ | ⟨s, m, e, hm, -, rfl⟩
  · rw [abs_zero, limit]
    norm_num
  · have hmantissa : (m : ℚ) ≤ 2 ^ 24 - 1 := by
      have hle : (m : ℚ) + 1 ≤ 2 ^ 24 := by exact_mod_cast hm.lt
      linarith
    have hplace : (2 : ℚ) ^ e ≤ 2 ^ (104 : ℤ) := zpow_le_zpow_right₀ one_le_two hm.exponent_le
    rw [abs_apply_mul, limit]
    calc (m : ℚ) * 2 ^ e ≤ (2 ^ 24 - 1) * 2 ^ (104 : ℤ) := by gcongr
      _ = (2 ^ 24 - 1) * 2 ^ 104 := by norm_cast

end Single

/-- The operation picks the first of two numbers in an order of the rationals they stand for, and of
a number and nan the number. -/
structure Picks (op : Float32 → Float32 → Float32) (before : ℚ → ℚ → Prop) : Prop where
  refl : ∀ p, before p p
  trans : ∀ {p q r}, before p q → before q r → before p r
  antisymm : ∀ {p q}, before p q → before q p → p = q
  exists_denotes : ∀ {x y p q}, Denotes x p → Denotes y q →
    ∃ r, Denotes (op x y) r ∧ (r = p ∨ r = q) ∧ before r p ∧ before r q
  isNaN_eq : ∀ {x y}, x.isNaN = false → (op x y).isNaN = false
  eq_left : ∀ {x y}, x.isNaN = false → y.isNaN = true → op x y = x

namespace Picks

theorem least : Picks Scalar.least (· ≤ ·) where
  refl := le_refl
  trans := le_trans
  antisymm := le_antisymm
  exists_denotes {_ _ p q} hx hy :=
    ⟨min p q, hx.least hy, min_choice p q, min_le_left p q, min_le_right p q⟩
  isNaN_eq {x y} hx := by
    unfold Scalar.least
    split
    · next hlt => exact (Single.isNaN_of_lt hlt).1
    · rwa [if_pos ((Single.le_self_iff x).2 hx)]
  eq_left {x y} hx hy := by
    have hlt : ¬ y < x := fun hlt => Bool.false_ne_true ((Single.isNaN_of_lt hlt).1.symm.trans hy)
    rw [Scalar.least, if_neg hlt, if_pos ((Single.le_self_iff x).2 hx)]

theorem most : Picks Scalar.most (· ≥ ·) where
  refl := le_refl
  trans := ge_trans
  antisymm := fun h h' => le_antisymm h' h
  exists_denotes {_ _ p q} hx hy :=
    ⟨max p q, hx.most hy, max_choice p q, le_max_left p q, le_max_right p q⟩
  isNaN_eq {x y} hx := by
    unfold Scalar.most
    split
    · next hlt => exact (Single.isNaN_of_lt hlt).2
    · rwa [if_pos ((Single.le_self_iff x).2 hx)]
  eq_left {x y} hx hy := by
    have hlt : ¬ x < y := fun hlt => Bool.false_ne_true ((Single.isNaN_of_lt hlt).2.symm.trans hy)
    rw [Scalar.most, if_neg hlt, if_pos ((Single.le_self_iff x).2 hx)]

variable {op : Float32 → Float32 → Float32} {before : ℚ → ℚ → Prop} {start : Float32} {p : ℚ}

theorem foldl_filter (h : Picks op before) (xs : List Float32) (hstart : start.isNaN = false) :
    (xs.filter (!·.isNaN)).foldl op start = xs.foldl op start := by
  induction xs generalizing start with
  | nil => rfl
  | cons x xs ih =>
    rw [List.foldl_cons]
    cases hx : x.isNaN with
    | true =>
      rw [List.filter_cons_of_neg (by rw [hx]; decide), h.eq_left hstart hx, ih hstart]
    | false =>
      rw [List.filter_cons_of_pos (by rw [hx]; decide), List.foldl_cons, ih (h.isNaN_eq hstart)]

/-- The rational comes first among a start and the numbers of a row. -/
structure Leads (before : ℚ → ℚ → Prop) (r p : ℚ) (xs : List Float32) : Prop where
  eq_or_mem : r = p ∨ ∃ x ∈ xs, Denotes x r
  start : before r p
  of_mem : ∀ x ∈ xs, ∀ q, Denotes x q → before r q

theorem exists_leads (h : Picks op before) {xs : List Float32} (hstart : Denotes start p)
    (hxs : ∀ x ∈ xs, ∃ q, Denotes x q) :
    ∃ r, Denotes (xs.foldl op start) r ∧ Leads before r p xs := by
  induction xs generalizing start p with
  | nil => exact ⟨p, hstart, .inl rfl, h.refl p, fun _ hx => absurd hx List.not_mem_nil⟩
  | cons x xs ih =>
    obtain ⟨q, hq⟩ := hxs x List.mem_cons_self
    obtain ⟨m, hm, hchoice, hmp, hmq⟩ := h.exists_denotes hstart hq
    obtain ⟨r, hr, hleads⟩ := ih hm fun y hy => hxs y (List.mem_cons_of_mem x hy)
    refine ⟨r, hr, ?_, h.trans hleads.start hmp, ?_⟩
    · rcases hleads.eq_or_mem with rfl | ⟨y, hy, hry⟩
      · rcases hchoice with rfl | rfl
        · exact .inl rfl
        · exact .inr ⟨x, List.mem_cons_self, hq⟩
      · exact .inr ⟨y, List.mem_cons_of_mem x hy, hry⟩
    · intro y hy t ht
      rcases List.mem_cons.1 hy with rfl | hy
      · obtain rfl : t = q := ht.unique hq
        exact h.trans hleads.start hmq
      · exact hleads.of_mem y hy t ht

theorem Leads.exists_mem (h : Picks op before) {r : ℚ} {xs : List Float32}
    (hr : Leads before r p xs) (hne : xs ≠ []) (hxs : ∀ x ∈ xs, ∃ q, Denotes x q ∧ before q p) :
    ∃ x ∈ xs, Denotes x r := by
  rcases hr.eq_or_mem with rfl | hmem
  · obtain ⟨x, hx⟩ := List.exists_mem_of_ne_nil xs hne
    obtain ⟨q, hq, hqp⟩ := hxs x hx
    obtain rfl := h.antisymm hqp (hr.of_mem x hx q hq)
    exact ⟨x, hx, hq⟩
  · exact hmem

/-- The order and the repetitions of a row do not show in its picks. -/
theorem foldl_beq_foldl (h : Picks op before) (hstart : Denotes start p) {xs ys : List Float32}
    (hxs : ∀ x ∈ xs, ∃ q, Denotes x q) (hsame : ∀ x, x ∈ ys ↔ x ∈ xs) :
    (ys.foldl op start == xs.foldl op start) = true := by
  have hle {r s : ℚ} {xs ys : List Float32} (hr : Leads before r p xs) (hs : Leads before s p ys)
      (hmem : ∀ y ∈ ys, y ∈ xs) : before r s := by
    rcases hs.eq_or_mem with rfl | ⟨y, hy, hys⟩
    · exact hr.start
    · exact hr.of_mem y (hmem y hy) s hys
  obtain ⟨r, hr, hleadsr⟩ := h.exists_leads hstart hxs
  obtain ⟨s, hs, hleadss⟩ := h.exists_leads hstart fun y hy => hxs y ((hsame y).1 hy)
  refine (hs.beq_iff hr).2 (h.antisymm ?_ ?_)
  · exact hle hleadss hleadsr fun x hx => (hsame x).2 hx
  · exact hle hleadsr hleadss fun y hy => (hsame y).1 hy

end Picks

/-- The bounds hold the numbers of a row and are among them, and are inverted for an empty row. -/
structure Box.IsTight (low high : Float32) (xs : List Float32) : Prop where
  contains : ∀ x ∈ xs, low ≤ x ∧ x ≤ high
  low_mem : xs ≠ [] → ∃ x ∈ xs, (low == x) = true
  high_mem : xs ≠ [] → ∃ x ∈ xs, (high == x) = true
  ordered_iff : low ≤ high ↔ xs ≠ []

theorem Box.isTight_foldl {xs : List Float32} (hxs : ∀ x ∈ xs, x.isFinite = true) :
    Box.IsTight (xs.foldl Scalar.least Scalar.greatest)
      (xs.foldl Scalar.most (-Scalar.greatest)) xs := by
  have hdenotes : ∀ x ∈ xs, ∃ q, Denotes x q := fun x hx => Single.exists_denotes (hxs x hx)
  have hbounds : ∀ x ∈ xs, ∃ q, Denotes x q ∧ q ≤ Single.limit ∧ -Single.limit ≤ q := by
    intro x hx
    obtain ⟨q, hq⟩ := hdenotes x hx
    have hle := abs_le.1 (Single.abs_le_limit hq)
    exact ⟨q, hq, hle.2, hle.1⟩
  obtain ⟨low, hlow, hleast⟩ := Picks.least.exists_leads Single.denotes_greatest hdenotes
  obtain ⟨high, hhigh, hmost⟩ := Picks.most.exists_leads Single.denotes_greatest.neg hdenotes
  refine ⟨?_, ?_, ?_, ?_⟩
  · intro x hx
    obtain ⟨q, hq⟩ := hdenotes x hx
    exact ⟨(hlow.le_iff hq).2 (hleast.of_mem x hx q hq),
      (hq.le_iff hhigh).2 (hmost.of_mem x hx q hq)⟩
  · intro hne
    obtain ⟨x, hx, hxlow⟩ := hleast.exists_mem Picks.least hne fun x hx =>
      (hbounds x hx).imp fun q hq => ⟨hq.1, hq.2.1⟩
    exact ⟨x, hx, (hlow.beq_iff hxlow).2 rfl⟩
  · intro hne
    obtain ⟨x, hx, hxhigh⟩ := hmost.exists_mem Picks.most hne fun x hx =>
      (hbounds x hx).imp fun q hq => ⟨hq.1, hq.2.2⟩
    exact ⟨x, hx, (hhigh.beq_iff hxhigh).2 rfl⟩
  · constructor
    · rintro hle rfl
      exact absurd hle (by decide)
    · intro hne
      obtain ⟨x, hx⟩ := List.exists_mem_of_ne_nil xs hne
      obtain ⟨q, hq⟩ := hdenotes x hx
      exact (hlow.le_iff hhigh).2
        (le_trans (hleast.of_mem x hx q hq) (hmost.of_mem x hx q hq))

namespace Box

/-- The coordinates of the points on one axis, without nan. -/
def numbers (points : List (Vec3 Float32)) (d : Direction) : List Float32 :=
  (points.map (·.along d)).filter (!·.isNaN)

section Axes

variable {α : Type} [Scalar α]

theorem along_min_ofPoints (points : List (Vec3 α)) (d : Direction) :
    (ofPoints points).min.along d =
      (points.map (·.along d)).foldl Scalar.least Scalar.greatest := by
  rw [List.foldl_map, ← Vec3.along_splat Scalar.greatest d]
  exact (List.foldl_hom (fun b : Box α => b.min.along d)
    fun b p => (Vec3.along_zipWith Scalar.least b.min p d).symm).symm

theorem along_max_ofPoints (points : List (Vec3 α)) (d : Direction) :
    (ofPoints points).max.along d =
      (points.map (·.along d)).foldl Scalar.most (-Scalar.greatest) := by
  rw [List.foldl_map, ← Vec3.along_splat (-Scalar.greatest) d]
  exact (List.foldl_hom (fun b : Box α => b.max.along d)
    fun b p => (Vec3.along_zipWith Scalar.most b.max p d).symm).symm

theorem isValid_iff (b : Box α) : b.isValid = true ↔ ∀ d, b.min.along d ≤ b.max.along d := by
  rw [isValid, Bool.and_eq_true, Bool.and_eq_true, decide_eq_true_iff, decide_eq_true_iff,
    decide_eq_true_iff]
  constructor
  · rintro ⟨⟨hx, hy⟩, hz⟩ d
    cases d with
    | x => exact hx
    | y => exact hy
    | z => exact hz
  · exact fun h => ⟨⟨h .x, h .y⟩, h .z⟩

end Axes

variable {points : List (Vec3 Float32)} {d : Direction}

theorem along_ofPoints_eq (points : List (Vec3 Float32)) (d : Direction) :
    (ofPoints points).min.along d = (numbers points d).foldl Scalar.least Scalar.greatest ∧
      (ofPoints points).max.along d = (numbers points d).foldl Scalar.most (-Scalar.greatest) := by
  rw [along_min_ofPoints, along_max_ofPoints, numbers,
    Picks.least.foldl_filter _ Single.denotes_greatest.isNaN_eq,
    Picks.most.foldl_filter _ Single.denotes_greatest.neg.isNaN_eq]
  exact ⟨rfl, rfl⟩

theorem isTight_ofPoints (h : ∀ p ∈ points, (p.along d).isFinite = true) :
    IsTight ((ofPoints points).min.along d) ((ofPoints points).max.along d)
      (points.map (·.along d)) := by
  rw [along_min_ofPoints, along_max_ofPoints]
  exact isTight_foldl (List.forall_mem_map.2 h)

/-- Boxes are tight and do not depend on the order of the points, and each axis passes over nan on
its own. -/
theorem ofPoints_tight (points : List (Vec3 Float32))
    (hfinite : ∀ p ∈ points, ∀ d, (p.along d).isFinite = true) :
    (∀ p ∈ points, ∀ d, (ofPoints points).min.along d ≤ p.along d ∧
      p.along d ≤ (ofPoints points).max.along d) ∧
    ((ofPoints points).isValid = true ↔ points ≠ []) ∧
    (points ≠ [] → ∀ d,
      (∃ p ∈ points, ((ofPoints points).min.along d == p.along d) = true) ∧
      ∃ p ∈ points, ((ofPoints points).max.along d == p.along d) = true) ∧
    (∀ others : List (Vec3 Float32), (∀ p, p ∈ others ↔ p ∈ points) → ∀ d,
      ((ofPoints others).min.along d == (ofPoints points).min.along d) = true ∧
      ((ofPoints others).max.along d == (ofPoints points).max.along d) = true) ∧
    ∀ (others : List (Vec3 Float32)) (d : Direction), numbers others d = numbers points d →
      (ofPoints others).min.along d = (ofPoints points).min.along d ∧
      (ofPoints others).max.along d = (ofPoints points).max.along d := by
  have htight (d : Direction) := isTight_ofPoints fun p hp => hfinite p hp d
  refine ⟨?_, ?_, ?_, ?_, ?_⟩
  · exact fun p hp d => (htight d).contains _ (List.mem_map_of_mem hp)
  · rw [isValid_iff]
    simp only [fun d => (htight d).ordered_iff, ne_eq, List.map_eq_nil_iff]
    exact ⟨fun h => h .x, fun h _ => h⟩
  · intro hne d
    have hrow : points.map (·.along d) ≠ [] := mt List.map_eq_nil_iff.1 hne
    constructor
    · simpa using (htight d).low_mem hrow
    · simpa using (htight d).high_mem hrow
  · intro others hsame d
    have hdenotes : ∀ x ∈ points.map (·.along d), ∃ q, Denotes x q :=
      List.forall_mem_map.2 fun p hp => Single.exists_denotes (hfinite p hp d)
    have hrow : ∀ x, x ∈ others.map (·.along d) ↔ x ∈ points.map (·.along d) := by
      intro x
      simp only [List.mem_map, hsame]
    rw [along_min_ofPoints, along_min_ofPoints, along_max_ofPoints, along_max_ofPoints]
    exact ⟨Picks.least.foldl_beq_foldl Single.denotes_greatest hdenotes hrow,
      Picks.most.foldl_beq_foldl Single.denotes_greatest.neg hdenotes hrow⟩
  · intro others d hnumbers
    rw [(along_ofPoints_eq others d).1, (along_ofPoints_eq others d).2, hnumbers,
      ← (along_ofPoints_eq points d).1, ← (along_ofPoints_eq points d).2]
    exact ⟨rfl, rfl⟩

/-- Two corners as far apart on the first axis as single precision allows. -/
def farCorners : List (Vec3 Float32) :=
  [⟨Scalar.greatest, 1, -2⟩, ⟨-Scalar.greatest, -4, 3⟩]

def mist : Vec3 Float32 := ⟨.nan, 0, 9⟩

theorem farCorners_tight :
    (∀ p ∈ farCorners, ∀ d, (p.along d).isFinite = true) ∧
    (ofPoints farCorners).isValid = true ∧
    (∃ p ∈ farCorners, ((ofPoints farCorners).max.z == p.z) = true) ∧
    ((ofPoints farCorners.reverse).min.y == (ofPoints farCorners).min.y) = true ∧
    (ofPoints (mist :: farCorners)).max.x = (ofPoints farCorners).max.x ∧
    (ofPoints (mist :: farCorners)).max.z = 9 := by
  have hfinite : ∀ p ∈ farCorners, ∀ d, (p.along d).isFinite = true := by
    intro p hp d
    fin_cases hp <;> cases d <;> decide
  obtain ⟨-, hvalid, hattained, hsame, hnumbers⟩ := ofPoints_tight farCorners hfinite
  refine ⟨hfinite, hvalid.2 (List.cons_ne_nil _ _), (hattained (List.cons_ne_nil _ _) .z).2,
    (hsame farCorners.reverse (fun p => List.mem_reverse) .y).1,
    (hnumbers (mist :: farCorners) .x ?_).2, by decide⟩
  decide

end Box

end DistantChunks
