import DistantChunks.Proofs.MovedAxes

/-!
# Pieces of a cell

A cell is cut on both axes into chunks of a half, a quarter and so on of its width. Each of them
scans this cell and no other. A position is moved into the cell before it is compared with the
borders of a chunk, and these count as inside. So every reference of the cell is taken, wherever
it lies, `takers_nonempty`, but one that lies on a border between chunks is taken from both sides,
`card_takers`.
-/

namespace DistantChunks

open Float.Model Float.Model.UnpackedFloat

namespace Coverage

/-- Single precision has room for the halves of the `2 ^ j` pieces of a cell on an axis. -/
structure HasRoom (j : ℕ) (c : ℤ) : Prop where
  low : -2 ^ 24 ≤ c * 2 ^ (j + 1)
  high : (c + 1) * 2 ^ (j + 1) ≤ 2 ^ 24

instance (j : ℕ) (c : ℤ) : Decidable (HasRoom j c) :=
  decidable_of_iff (_ ∧ _) ⟨fun ⟨h, h'⟩ => ⟨h, h'⟩, fun h => ⟨h.low, h.high⟩⟩

def middle (j : ℕ) (c : ℤ) (i : ℕ) : Float32 :=
  Single.ofInt (c * 2 ^ (j + 1) + (2 * i + 1)) / Single.ofInt (2 ^ (j + 1))

def pieces (j : ℕ) : Finset (ℕ × ℕ) := Finset.range (2 ^ j) ×ˢ Finset.range (2 ^ j)

def pieceCenter (j : ℕ) (a b : ℤ) (k : ℕ × ℕ) : Vec2 Float32 := ⟨middle j a k.1, middle j b k.2⟩

/-- The pieces of a cell that take a position. -/
def takers (size : Float32) (j : ℕ) (a b : ℤ) (cellSize : Float32) (p : Vec3 Float32) :
    Finset (ℕ × ℕ) :=
  (pieces j).filter fun k => holds size (pieceCenter j a b k) cellSize p = true

def corner (j : ℕ) (c : ℤ) (i : ℕ) : ℚ := c + i * (1 / 2 ^ j)

/-- A coordinate lies where two pieces of a cell meet. -/
def OnInnerBorder (j : ℕ) (c : ℤ) (u : Float32) : Prop :=
  ∃ m : ℕ, m < 2 ^ j ∧ 0 < m ∧ Denotes u (corner j c m)

instance (j : ℕ) (c : ℤ) (u : Float32) : Decidable (OnInnerBorder j c u) :=
  inferInstanceAs (Decidable (∃ m : ℕ, m < 2 ^ j ∧ 0 < m ∧ Denotes u (corner j c m)))

section Place

variable {u y : Float32} {q r : ℚ} {c : ℤ}

/-- Where a coordinate is moved to in the cell at `c`. -/
def place (c : ℤ) (u : Float32) : ℚ :=
  match number? u.toModel.unpack with
  | some q => min (max q c) (c + 1)
  | none => if 0 < u then c + 1 else c

theorem compare_of_not_number (hy : Denotes y q) :
    y.toModel.unpack.compare .notANumber = none ∧
      y.toModel.unpack.compare (.infinity .positive) = some .lt ∧
      UnpackedFloat.compare (.infinity .positive) y.toModel.unpack = some .gt ∧
      y.toModel.unpack.compare (.infinity .negative) = some .gt ∧
      UnpackedFloat.compare (.infinity .negative) y.toModel.unpack = some .lt := by
  rcases hy.unpack_cases with ⟨s, h, -⟩ | ⟨s, m, e, hm, h, -⟩ <;> rw [h] <;> cases s <;>
    exact ⟨rfl, rfl, rfl, rfl, rfl⟩

/-- What is no number lies above all numbers, or it lies below them or compares with none. -/
theorem order_of_not_number (hu : number? u.toModel.unpack = none) :
    (∀ {y q}, Denotes y q → y < u ∧ ¬ u < y ∧ u ≤ u) ∨
      ∀ {y q}, Denotes y q → ¬ y < u ∧ (u < y ∨ ¬ u ≤ u) := by
  simp only [Single.lt_iff_compare, Single.le_iff_compare]
  cases hunpack : u.toModel.unpack with
  | zero | finite => rw [hunpack] at hu; cases hu
  | notANumber =>
    right
    intro y q hy
    obtain ⟨hnone, -⟩ := compare_of_not_number hy
    exact ⟨by simp [hnone], .inr nofun⟩
  | infinity s =>
    cases s with
    | positive =>
      left
      intro y q hy
      obtain ⟨-, hlt, hgt, -⟩ := compare_of_not_number hy
      exact ⟨hlt, by simp [hgt], rfl⟩
    | negative =>
      right
      intro y q hy
      obtain ⟨-, -, -, hgt, hlt⟩ := compare_of_not_number hy
      exact ⟨by simp [hgt], .inl hlt⟩

theorem denotes_place {low high : Float32} (hlow : Denotes low c) (hhigh : Denotes high (c + 1)) :
    Denotes (Scalar.least (Scalar.most u low) high) (place c u) := by
  cases hu : number? u.toModel.unpack with
  | some q =>
    have hq : Denotes u q := hu
    rw [place, hu]
    exact (hq.most hlow).least hhigh
  | none =>
    simp only [place, hu]
    rcases order_of_not_number hu with habove | hbelow
    · obtain ⟨-, hge, hself⟩ := habove hlow
      rw [if_pos (habove .zero).1, Scalar.most, if_neg hge, if_pos hself, Scalar.least,
        if_pos (habove hhigh).1]
      exact hhigh
    · have hmost : Scalar.most u low = low := by
        rw [Scalar.most]
        rcases (hbelow hlow).2 with hlt | hself
        · rw [if_pos hlt]
        · rw [if_neg hself, ite_self]
      have hleast := hlow.least hhigh
      rw [min_eq_left (by linarith)] at hleast
      rwa [if_neg (hbelow .zero).1, hmost]

theorem le_place : (c : ℚ) ≤ place c u ∧ place c u ≤ c + 1 := by
  rw [place]
  split
  · exact ⟨le_min (le_max_right _ _) (by linarith), min_le_right _ _⟩
  · split
    · exact ⟨by linarith, le_rfl⟩
    · exact ⟨le_rfl, by linarith⟩

theorem place_eq_iff (hlow : c < r) (hhigh : r < c + 1) : place c u = r ↔ Denotes u r := by
  rw [place]
  split
  · next q hu =>
    have hq : Denotes u q := hu
    have hr : Denotes u r ↔ q = r := ⟨hq.unique, fun h => h ▸ hq⟩
    rw [hr]
    constructor
    · intro h
      rcases min_choice (max q (c : ℚ)) (c + 1) with hmin | hmin <;>
        rcases max_choice q (c : ℚ) with hmax | hmax <;> linarith
    · rintro rfl
      rw [max_eq_left hlow.le, min_eq_left hhigh.le]
  · next hu =>
    have hnone : ¬ Denotes u r := fun h => by cases hu.symm.trans h
    simp only [hnone, iff_false]
    split
    · exact hhigh.ne'
    · exact hlow.ne

end Place

section Axis

variable {j i : ℕ} {c : ℤ} {size u : Float32} {q : ℚ}

namespace HasRoom

theorem places (h : HasRoom j c) : j + 1 ≤ 24 := by
  have hpow : (2 : ℤ) ^ (j + 1) ≤ 2 ^ 24 := by
    have hpos : (0 : ℤ) < 2 ^ (j + 1) := by positivity
    rcases le_or_gt 0 c with hc | hc
    · calc (2 : ℤ) ^ (j + 1) ≤ (c + 1) * 2 ^ (j + 1) := le_mul_of_one_le_left hpos.le (by omega)
        _ ≤ 2 ^ 24 := h.high
    · calc (2 : ℤ) ^ (j + 1) ≤ -c * 2 ^ (j + 1) := le_mul_of_one_le_left hpos.le (by omega)
        _ ≤ 2 ^ 24 := by linarith [h.low]
  exact (pow_le_pow_iff_right₀ (one_lt_two : (1 : ℤ) < 2)).1 hpow

theorem abs_mul_le (h : HasRoom j c) (hlow : c ≤ q) (hhigh : q ≤ c + 1) : |q| * 2 ^ j ≤ 2 ^ 23 := by
  have hpos : (0 : ℚ) < 2 ^ (j + 1) := by positivity
  have hleast : (-2 ^ 24 : ℚ) ≤ c * 2 ^ (j + 1) := by exact_mod_cast h.low
  have hmost : ((c : ℚ) + 1) * 2 ^ (j + 1) ≤ 2 ^ 24 := by exact_mod_cast h.high
  have hfrom : (c : ℚ) * 2 ^ (j + 1) ≤ q * 2 ^ (j + 1) := mul_le_mul_of_nonneg_right hlow hpos.le
  have hto : q * 2 ^ (j + 1) ≤ ((c : ℚ) + 1) * 2 ^ (j + 1) :=
    mul_le_mul_of_nonneg_right hhigh hpos.le
  have hscaled : |q * 2 ^ (j + 1)| ≤ 2 ^ 24 := abs_le.2 ⟨by linarith, by linarith⟩
  rw [abs_mul, abs_of_pos hpos, pow_succ] at hscaled
  linarith

theorem isSingle (h : HasRoom j c) (hq : OnGrid j q) (hlow : c ≤ q) (hhigh : q ≤ c + 1) :
    IsSingle q := by
  have hplaces := h.places
  have hbound := h.abs_mul_le hlow hhigh
  exact hq.isSingle (by omega) le_rfl (by linarith)

theorem isGapless (h : HasRoom j c) {x : Float32} (hx : Denotes x q) (hlow : c ≤ q)
    (hhigh : q ≤ c + 1) : IsGapless x := by
  have hone : |q| ≤ |q| * 2 ^ j := le_mul_of_one_le_right (abs_nonneg q) (one_le_pow₀ one_le_two)
  exact ⟨q, hx, by linarith [h.abs_mul_le hlow hhigh]⟩

end HasRoom

theorem denotes_ofInt_two_pow {k : ℕ} (hk : k ≤ 24) : Denotes (Single.ofInt (2 ^ k)) (2 ^ k) := by
  rcases hk.lt_or_eq with hlt | rfl
  · have hsmall : ((2 : ℤ) ^ k).natAbs < 2 ^ 24 := by
      rw [Int.natAbs_pow]
      exact Nat.pow_lt_pow_right one_lt_two hlt
    have hdenotes := Denotes.ofInt hsmall
    push_cast at hdenotes
    exact hdenotes
  · decide +kernel

section Corner

theorem corner_zero : corner j c 0 = c := by simp [corner]

theorem corner_last : corner j c (2 ^ j) = c + 1 := by
  rw [corner, Nat.cast_pow, Nat.cast_ofNat, mul_one_div_cancel (by positivity)]

theorem corner_succ : corner j c (i + 1) = corner j c i + 1 / 2 ^ j := by
  rw [corner, corner, Nat.cast_succ, add_one_mul, add_assoc]

theorem corner_strictMono : StrictMono (corner j c) := by
  refine strictMono_nat_of_lt_succ fun i => ?_
  rw [corner_succ]
  exact lt_add_of_pos_right _ (by positivity)

theorem corner_mem (hi : i ≤ 2 ^ j) : c ≤ corner j c i ∧ corner j c i ≤ c + 1 := by
  rw [← corner_last, ← corner_zero (j := j)]
  exact ⟨corner_strictMono.monotone i.zero_le, corner_strictMono.monotone hi⟩

theorem onGrid_corner : OnGrid j (corner j c i) :=
  ⟨c * 2 ^ j + i, by rw [corner]; push_cast; field_simp⟩

theorem floor_corner (hi : i < 2 ^ j) : ⌊corner j c i⌋ = c := by
  refine Int.floor_eq_iff.2 ⟨(corner_mem hi.le).1, ?_⟩
  rw [← corner_last]
  exact corner_strictMono hi

theorem ceil_corner_succ (hi : i < 2 ^ j) : ⌈corner j c (i + 1)⌉ = c + 1 := by
  rw [Int.ceil_eq_iff, Int.cast_add, Int.cast_one, add_sub_cancel_right]
  refine ⟨?_, (corner_mem hi).2⟩
  rw [← corner_zero (j := j)]
  exact corner_strictMono i.succ_pos

/-- A point of a cell lies in two pieces if it lies between two of them, and else in one. -/
theorem card_filter_corner (hlow : c ≤ q) (hhigh : q ≤ c + 1) :
    ((Finset.range (2 ^ j)).filter fun i => corner j c i ≤ q ∧ q ≤ corner j c (i + 1)).card =
      if ∃ m : ℕ, m < 2 ^ j ∧ 0 < m ∧ q = corner j c m then 2 else 1 := by
  split
  · next hborder =>
    obtain ⟨m, hm, hpos, rfl⟩ := hborder
    have hpair : (Finset.range (2 ^ j)).filter (fun i => corner j c i ≤ corner j c m ∧
        corner j c m ≤ corner j c (i + 1)) = {m - 1, m} := by
      ext i
      rw [Finset.mem_filter, Finset.mem_range, Finset.mem_insert, Finset.mem_singleton,
        corner_strictMono.le_iff_le, corner_strictMono.le_iff_le]
      omega
    rw [hpair, Finset.card_pair (by omega)]
  · next hinside =>
    have hmeet {k : ℕ} (hk : k < 2 ^ j) {i : ℕ} (hik : i < k) (hfrom : corner j c k ≤ q) :
        ¬ q ≤ corner j c (i + 1) := fun hto =>
      hinside ⟨k, hk, by omega, le_antisymm (hto.trans (corner_strictMono.monotone hik)) hfrom⟩
    obtain ⟨k, hk, hfrom, hto⟩ := exists_piece (Nat.two_pow_pos j) hlow hhigh
    rw [Nat.cast_pow, Nat.cast_ofNat, ← corner] at hfrom hto
    rw [← corner_succ] at hto
    have hone : (Finset.range (2 ^ j)).filter (fun i => corner j c i ≤ q ∧
        q ≤ corner j c (i + 1)) = {k} := by
      ext i
      rw [Finset.mem_filter, Finset.mem_range, Finset.mem_singleton]
      constructor
      · rintro ⟨hi, hfrom', hto'⟩
        rcases lt_trichotomy i k with hlt | heq | hgt
        · exact absurd hto' (hmeet hk hlt hfrom)
        · exact heq
        · exact absurd hto (hmeet hi hgt hfrom')
      · rintro rfl
        exact ⟨hk, hfrom, hto⟩
    rw [hone, Finset.card_singleton]

end Corner

section Piece

variable (hroom : HasRoom j c) (hi : i < 2 ^ j) (hsize : Denotes size (1 / 2 ^ j))

include hroom hi in
theorem denotes_middle : Denotes (middle j c i) (corner j c i + 1 / 2 ^ j / 2) := by
  have hplaces := hroom.places
  have hsmall : (c * 2 ^ (j + 1) + (2 * i + 1) : ℤ).natAbs < 2 ^ 24 := by
    have hlast : (i : ℤ) + 1 ≤ 2 ^ j := by exact_mod_cast hi
    have hlow := hroom.low
    have hhigh := hroom.high
    rw [add_one_mul, pow_succ (2 : ℤ) j] at hhigh
    rw [pow_succ (2 : ℤ) j] at hlow ⊢
    omega
  have hvalue : ((c * 2 ^ (j + 1) + (2 * i + 1) : ℤ) : ℚ) / 2 ^ (j + 1) =
      corner j c i + 1 / 2 ^ j / 2 := by
    rw [corner]
    push_cast
    field_simp
    ring
  have hsingle : IsSingle (((c * 2 ^ (j + 1) + (2 * i + 1) : ℤ) : ℚ) / 2 ^ (j + 1)) :=
    ⟨_, -(j + 1 : ℕ), by rw [zpow_neg, zpow_natCast, div_eq_mul_inv], hsmall, by omega, by omega⟩
  rw [← hvalue]
  exact (Denotes.ofInt hsmall).div (denotes_ofInt_two_pow hplaces) (by positivity) hsingle

include hroom hsize in
theorem denotes_half_piece : Denotes (size / Scalar.two) (1 / 2 ^ j / 2) := by
  have hplaces := hroom.places
  refine hsize.div .scalar_two two_ne_zero ⟨1, -(j + 1 : ℕ), ?_, by norm_num, by omega, by omega⟩
  rw [zpow_neg, zpow_natCast, pow_succ]
  field_simp
  norm_num

include hroom hi hsize

theorem denotes_low : Denotes (middle j c i - size / Scalar.two) (corner j c i) := by
  obtain ⟨hlow, hhigh⟩ := corner_mem (c := c) hi.le
  have hsub := (denotes_middle hroom hi).sub (denotes_half_piece hroom hsize)
  rw [add_sub_cancel_right] at hsub
  exact hsub (hroom.isSingle onGrid_corner hlow hhigh)

theorem denotes_high : Denotes (middle j c i + size / Scalar.two) (corner j c (i + 1)) := by
  obtain ⟨hlow, hhigh⟩ := corner_mem (c := c) hi
  have hsum := (denotes_middle hroom hi).add (denotes_half_piece hroom hsize)
  rw [add_assoc, add_halves, ← corner_succ] at hsum
  exact hsum (hroom.isSingle onGrid_corner hlow hhigh)

theorem span_middle : span size (middle j c i) = [c] := by
  have hlow := denotes_low hroom hi hsize
  obtain ⟨hfrom, hto⟩ := corner_mem (c := c) hi.le
  obtain ⟨hfrom', hto'⟩ := corner_mem (c := c) (Nat.one_le_two_pow (n := j))
  have hend : (⌊corner j c i⌋ : ℚ) + 1 / 2 ^ j = corner j c (0 + 1) := by
    rw [floor_corner hi, corner_succ, corner_zero]
  have hlimit := hlow.floor.add hsize (hend ▸ hroom.isSingle onGrid_corner hfrom' hto')
  have hend' := hlimit
  rw [hend] at hend'
  rw [span_eq_range hlow hlimit (hroom.isGapless hlow hfrom hto)
    (hroom.isGapless hend' hfrom' hto'), hend, ceil_corner_succ (Nat.two_pow_pos j),
    floor_corner hi, range_eq_cons (lt_add_one c), range_eq_nil le_rfl]

theorem holdsOnAxis_middle_iff :
    holdsOnAxis (middle j c i - size / Scalar.two) (middle j c i + size / Scalar.two) u = true ↔
      corner j c i ≤ place c u ∧ place c u ≤ corner j c (i + 1) := by
  have hlow := denotes_low hroom hi hsize
  have hhigh := denotes_high hroom hi hsize
  have hfloor := hlow.floor
  have hceil := hhigh.ceil
  rw [floor_corner hi] at hfloor
  rw [ceil_corner_succ hi, Int.cast_add, Int.cast_one] at hceil
  have hmoved := denotes_place (u := u) hfloor hceil
  rw [← hlow.le_iff hmoved, ← hmoved.le_iff hhigh, ← decide_eq_true_iff (p := _ ≤ _),
    ← decide_eq_true_iff (p := _ ≤ middle j c i + size / Scalar.two), ← Bool.and_eq_true]
  rfl

end Piece

theorem card_filter_holdsOnAxis (hroom : HasRoom j c) (hsize : Denotes size (1 / 2 ^ j)) :
    ((Finset.range (2 ^ j)).filter fun i => holdsOnAxis (middle j c i - size / Scalar.two)
      (middle j c i + size / Scalar.two) u = true).card = if OnInnerBorder j c u then 2 else 1 := by
  have hmoved : (∃ m : ℕ, m < 2 ^ j ∧ 0 < m ∧ place c u = corner j c m) ↔ OnInnerBorder j c u := by
    refine exists_congr fun m => and_congr_right fun hm => and_congr_right fun hpos => ?_
    refine place_eq_iff ?_ ?_
    · rw [← corner_zero (j := j)]
      exact corner_strictMono hpos
    · rw [← corner_last]
      exact corner_strictMono hm
  have hcongr : ((Finset.range (2 ^ j)).filter fun i => holdsOnAxis
      (middle j c i - size / Scalar.two) (middle j c i + size / Scalar.two) u = true) =
        (Finset.range (2 ^ j)).filter fun i =>
          corner j c i ≤ place c u ∧ place c u ≤ corner j c (i + 1) :=
    Finset.filter_congr fun i hi =>
      holdsOnAxis_middle_iff hroom (Finset.mem_range.1 hi) hsize
  rw [hcongr, card_filter_corner le_place.1 le_place.2]
  simp only [hmoved]

end Axis

variable {j : ℕ} {a b : ℤ} {size : Float32}

theorem takers_eq_product (cellSize : Float32) (p : Vec3 Float32) :
    takers size j a b cellSize p =
      ((Finset.range (2 ^ j)).filter fun i => holdsOnAxis (middle j a i - size / Scalar.two)
        (middle j a i + size / Scalar.two) (p.x / cellSize) = true) ×ˢ
      (Finset.range (2 ^ j)).filter fun i => holdsOnAxis (middle j b i - size / Scalar.two)
        (middle j b i + size / Scalar.two) (p.y / cellSize) = true := by
  rw [← Finset.filter_product, takers, pieces]
  refine Finset.filter_congr fun k _ => ?_
  rw [← Bool.and_eq_true]
  rfl

theorem card_takers_eq (ha : HasRoom j a) (hb : HasRoom j b) (hsize : Denotes size (1 / 2 ^ j))
    (cellSize : Float32) (p : Vec3 Float32) :
    (takers size j a b cellSize p).card =
      (if OnInnerBorder j a (p.x / cellSize) then 2 else 1) *
        if OnInnerBorder j b (p.y / cellSize) then 2 else 1 := by
  rw [takers_eq_product, Finset.card_product, card_filter_holdsOnAxis ha hsize,
    card_filter_holdsOnAxis hb hsize]

/-- All pieces scan the cell, and one of them takes the position, wherever it lies and however wide
the cells are. -/
theorem takers_nonempty (ha : HasRoom j a) (hb : HasRoom j b) (hsize : Denotes size (1 / 2 ^ j))
    (cellSize : Float32) (p : Vec3 Float32) :
    (∀ k ∈ pieces j, cells size (pieceCenter j a b k) = [(a, b)]) ∧
      (takers size j a b cellSize p).Nonempty := by
  constructor
  · intro k hk
    obtain ⟨hx, hy⟩ := Finset.mem_product.1 hk
    rw [cells_eq, pieceCenter, span_middle ha (Finset.mem_range.1 hx) hsize,
      span_middle hb (Finset.mem_range.1 hy) hsize]
    rfl
  · rw [← Finset.card_pos, card_takers_eq ha hb hsize]
    split <;> split <;> norm_num

/-- A position far to the lower right of its cell is taken by the piece in that corner. -/
theorem stray_takers :
    HasRoom 2 (-3) ∧ HasRoom 2 5 ∧ Denotes 0.25 (1 / 2 ^ 2) ∧
      (∀ k ∈ pieces 2, cells 0.25 (pieceCenter 2 (-3) 5 k) = [(-3, 5)]) ∧
      (takers 0.25 2 (-3) 5 8192 ⟨1000000, -7, 0⟩).Nonempty ∧
      takers 0.25 2 (-3) 5 8192 ⟨1000000, -7, 0⟩ = {(3, 0)} := by
  have ha : HasRoom 2 (-3) := by decide
  have hb : HasRoom 2 5 := by decide
  have hsize : Denotes 0.25 (1 / 2 ^ 2) := by decide +kernel
  obtain ⟨hcells, htakers⟩ := takers_nonempty ha hb hsize 8192 ⟨1000000, -7, 0⟩
  exact ⟨ha, hb, hsize, hcells, htakers, by decide +kernel⟩

/-- One piece takes a position, unless a border between pieces runs through it: then two pieces take
it, or four where two such borders cross. -/
theorem card_takers (ha : HasRoom j a) (hb : HasRoom j b) (hsize : Denotes size (1 / 2 ^ j))
    (cellSize : Float32) (p : Vec3 Float32) :
    ((takers size j a b cellSize p).card =
      (if OnInnerBorder j a (p.x / cellSize) then 2 else 1) *
        if OnInnerBorder j b (p.y / cellSize) then 2 else 1) ∧
    ((takers size j a b cellSize p).card ≤ 1 ↔
      ¬ OnInnerBorder j a (p.x / cellSize) ∧ ¬ OnInnerBorder j b (p.y / cellSize)) := by
  have hcard := card_takers_eq ha hb hsize cellSize p
  refine ⟨hcard, ?_⟩
  rw [hcard]
  split <;> split <;> simp [*]

theorem middle_card_takers :
    HasRoom 1 (-1) ∧ HasRoom 1 0 ∧ Denotes 0.5 (1 / 2 ^ 1) ∧
      (takers 0.5 1 (-1) 0 8192 ⟨-4096, 4096, 0⟩).card = 4 ∧
      ¬ (takers 0.5 1 (-1) 0 8192 ⟨-4096, 4096, 0⟩).card ≤ 1 := by
  have ha : HasRoom 1 (-1) := by decide
  have hb : HasRoom 1 0 := by decide
  have hsize : Denotes 0.5 (1 / 2 ^ 1) := by decide +kernel
  have hx : OnInnerBorder 1 (-1) ((-4096 : Float32) / 8192) := by decide +kernel
  have hy : OnInnerBorder 1 0 ((4096 : Float32) / 8192) := by decide +kernel
  obtain ⟨hcard, hone⟩ := card_takers ha hb hsize 8192 ⟨-4096, 4096, 0⟩
  rw [if_pos hx, if_pos hy] at hcard
  exact ⟨ha, hb, hsize, hcard, fun hle => (hone.1 hle).1 hx⟩

def milestone : Reference := .new ⟨0, 1⟩ .static "milestone" ⟨4096, 2048, 0⟩

def road : World := ⟨[(Cell.new 0 0).pushContext [milestone]], ∅⟩

/-- A milestone between two quarters of its cell is taken by both. -/
theorem milestone_taken_twice :
    Denotes 0.5 (1 / 2 ^ 1) ∧
      (∃ c ∈ road.cells, c.x = 0 ∧ c.y = 0 ∧ ∃ context ∈ c.contexts, milestone ∈ context.refs) ∧
      takers 0.5 1 0 0 8192 milestone.position = {(0, 0), (1, 0)} := by
  refine ⟨by decide +kernel, ?_, by decide⟩
  simp [road, Cell.new, Cell.pushContext]

end Coverage

end DistantChunks
