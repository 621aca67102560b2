import DistantChunks.Chunk.Tiling
import DistantChunks.Proofs.ExactSingle

/-!
# Tiles of an axis

The tiles of an axis start at its lower end and follow each other at the distance of their size, as
far as they start within the axis. A tile scans the whole cells from the one that holds its lower
end. Both hold as long as single precision has room for the halves of a tile over the whole axis,
which `IsExact` says.
-/

namespace DistantChunks

def OnGrid (g : ℕ) (q : ℚ) : Prop := ∃ k : ℤ, q * 2 ^ g = k

namespace OnGrid

variable {g : ℕ} {p q : ℚ}

theorem add (hp : OnGrid g p) (hq : OnGrid g q) : OnGrid g (p + q) := by
  obtain ⟨k, hk⟩ := hp
  obtain ⟨l, hl⟩ := hq
  exact ⟨k + l, by rw [add_mul, hk, hl, Int.cast_add]⟩

theorem whole (hq : OnGrid g (q / 2)) : OnGrid g q := by
  have hsum := hq.add hq
  rwa [add_halves] at hsum

theorem ofInt (n : ℤ) : OnGrid g n := ⟨n * 2 ^ g, by push_cast; rfl⟩

theorem natCast_mul (hq : OnGrid g q) (k : ℕ) : OnGrid g (k * q) := by
  obtain ⟨l, hl⟩ := hq
  exact ⟨k * l, by rw [mul_assoc, hl]; push_cast; rfl⟩

theorem isSingle (h : OnGrid g q) (hg : g ≤ 149) {bound : ℚ} (hq : |q| ≤ bound)
    (hbound : bound * 2 ^ g < 2 ^ 24) : IsSingle q := by
  obtain ⟨k, hk⟩ := h
  have hpow : (0 : ℚ) < 2 ^ g := pow_pos two_pos g
  have habs : ((k.natAbs : ℕ) : ℚ) = |q| * 2 ^ g := by
    rw [Nat.cast_natAbs, Int.cast_abs, ← hk, abs_mul, abs_of_pos hpow]
  have hlt : ((k.natAbs : ℕ) : ℚ) < 2 ^ 24 := by
    calc ((k.natAbs : ℕ) : ℚ) = |q| * 2 ^ g := habs
      _ ≤ bound * 2 ^ g := mul_le_mul_of_nonneg_right hq hpow.le
      _ < 2 ^ 24 := hbound
  refine ⟨k, -g, ?_, by exact_mod_cast hlt, by omega, by omega⟩
  rw [zpow_neg, zpow_natCast, ← hk, mul_assoc, mul_inv_cancel₀ hpow.ne', mul_one]

end OnGrid

/-- How far the tiles of the size `s` over an axis reach from zero. -/
def reach (s : ℚ) (low high : ℤ) : ℚ := max |(low : ℚ)| |(high : ℚ)| + 3 / 2 * s

theorem neg_reach_le {s : ℚ} {low high : ℤ} : -reach s low high ≤ low - 3 / 2 * s := by
  have hlowest := neg_abs_le (low : ℚ)
  have hmax := le_max_left |(low : ℚ)| |(high : ℚ)|
  rw [reach]
  linarith

theorem le_reach {s : ℚ} {low high : ℤ} : high + 3 / 2 * s ≤ reach s low high := by
  have hhighest := le_abs_self (high : ℚ)
  have hmax := le_max_right |(low : ℚ)| |(high : ℚ)|
  rw [reach]
  linarith

theorem abs_le_reach {s q : ℚ} {low high : ℤ} (hlow : low - 3 / 2 * s ≤ q)
    (hhigh : q ≤ high + 3 / 2 * s) : |q| ≤ reach s low high :=
  abs_le.2 ⟨neg_reach_le.trans hlow, hhigh.trans le_reach⟩

/-- Single precision has room for the halves of tiles of the size `s` over an axis. -/
structure IsExact (g : ℕ) (s : ℚ) (low high : ℤ) : Prop where
  places : g ≤ 24
  pos : 0 < s
  grid : OnGrid g (s / 2)
  room : reach s low high * 2 ^ g < 2 ^ 24

namespace IsExact

variable {g : ℕ} {s q : ℚ} {low high : ℤ}

theorem isSingle (h : IsExact g s low high) (hq : OnGrid g q) (hreach : |q| ≤ reach s low high) :
    IsSingle q :=
  hq.isSingle (h.places.trans (by omega)) hreach h.room

theorem isSingle_half (h : IsExact g s low high) : IsSingle (s / 2) := by
  have hpos := h.pos
  refine h.isSingle h.grid ?_
  have hmax := (abs_nonneg (low : ℚ)).trans (le_max_left _ |(high : ℚ)|)
  rw [abs_of_pos (half_pos hpos), reach]
  linarith

theorem natAbs_lt (h : IsExact g s low high) {n : ℤ} (hreach : |(n : ℚ)| ≤ reach s low high) :
    n.natAbs < 2 ^ 24 := by
  have hone : (1 : ℚ) ≤ 2 ^ g := one_le_pow₀ one_le_two
  have hlt : ((n.natAbs : ℕ) : ℚ) < 2 ^ 24 := by
    calc ((n.natAbs : ℕ) : ℚ) = |(n : ℚ)| := by rw [Nat.cast_natAbs, Int.cast_abs]
      _ ≤ reach s low high := hreach
      _ ≤ reach s low high * 2 ^ g := le_mul_of_one_le_right ((abs_nonneg _).trans hreach) hone
      _ < 2 ^ 24 := h.room
  exact_mod_cast hlt

theorem ceil_lt (h : IsExact g s low high) (hq : OnGrid g q) (hreach : |q| ≤ reach s low high) :
    ⌈q⌉ < 2 ^ 24 := by
  obtain ⟨k, hk⟩ := hq
  have hone : (1 : ℚ) ≤ 2 ^ g := one_le_pow₀ one_le_two
  have hlt : (k : ℚ) < 2 ^ 24 := by
    calc (k : ℚ) = q * 2 ^ g := hk.symm
      _ ≤ reach s low high * 2 ^ g :=
        mul_le_mul_of_nonneg_right ((le_abs_self q).trans hreach) (by positivity)
      _ < 2 ^ 24 := h.room
  have hk24 : k < 2 ^ 24 := by exact_mod_cast hlt
  have hbound : q ≤ ((2 ^ 24 - 1 : ℤ) : ℚ) := by
    rcases le_total q 0 with hq | hq
    · exact hq.trans (by norm_num)
    · calc q ≤ q * 2 ^ g := le_mul_of_one_le_right hq hone
        _ = k := hk
        _ ≤ ((2 ^ 24 - 1 : ℤ) : ℚ) := by exact_mod_cast Int.le_sub_one_of_lt hk24
  exact Int.lt_of_le_sub_one (Int.ceil_le.2 hbound)

theorem leastStep_le (h : IsExact g s low high) : (2 : ℚ) ^ (-23 : ℤ) ≤ s := by
  obtain ⟨k, hk⟩ := h.grid
  have hpow : (0 : ℚ) < 2 ^ g := pow_pos two_pos g
  have hpositive : (0 : ℚ) < k := hk ▸ mul_pos (half_pos h.pos) hpow
  have hone : (1 : ℚ) ≤ k := by exact_mod_cast hpositive
  have hplaces : (2 : ℚ) ^ g ≤ 2 ^ 24 := pow_le_pow_right₀ one_le_two h.places
  rw [← hk] at hone
  have hsize : s / 2 * 2 ^ g ≤ s / 2 * 2 ^ 24 :=
    mul_le_mul_of_nonneg_left hplaces (half_pos h.pos).le
  rw [zpow_neg, inv_le_iff_one_le_mul₀ (by positivity)]
  norm_num at hsize ⊢
  linarith

end IsExact

namespace Tiling

theorem denotes_leastStep : Denotes leastStep (2 ^ (-23 : ℤ)) := by
  refine Denotes.ofBits ?_
  have hread : BinaryFormat.single.read (UInt32.toNat 0x34000000) =
      .finite false (2 ^ 23) (-46) := by
    decide
  rw [hread, BinaryValue.number?]
  norm_num

/-- `x` is the middle of the tile with the number `k` of those of the size `s` that start from `c`
on and up to `l`. -/
def IsTile (s c l : ℚ) (x : Float32) (k : ℕ) : Prop :=
  c + k * s ≤ l ∧ Denotes x (c + k * s + s / 2)

theorem forall₂_row {g : ℕ} {bound s c l : ℚ} (hg : g ≤ 149) (hbound : bound * 2 ^ g < 2 ^ 24)
    {half step limit x : Float32} (hhalf : Denotes half (s / 2)) (hstep : Denotes step s)
    (hlimit : Denotes limit l) (hs : 0 < s) (hgrid : OnGrid g (s / 2)) (hl : l + 3 / 2 * s ≤ bound)
    (hc : OnGrid g c) (hlow : -bound ≤ c) (hhigh : c ≤ l + s) (hx : Denotes x (c + s / 2)) :
    ∃ n, List.Forall₂ (IsTile s c l) (row half step limit x) (List.range n) ∧
      ∀ k : ℕ, c + k * s ≤ l → k < n := by
  have hexact {q : ℚ} (hq : OnGrid g q) (hlow : -bound ≤ q) (hhigh : q ≤ bound) : IsSingle q :=
    hq.isSingle hg (abs_le.2 ⟨hlow, hhigh⟩) hbound
  have hcorner {c : ℚ} {x : Float32} (hc : OnGrid g c) (hlow : -bound ≤ c) (hhigh : c ≤ l + s)
      (hx : Denotes x (c + s / 2)) : Denotes (x - half) c := by
    have hsub := hx.sub hhalf
    rw [add_sub_cancel_right] at hsub
    exact hsub (hexact hc hlow (by linarith))
  have hplace (c : ℚ) (k : ℕ) : c + s + k * s = c + (k + 1 : ℕ) * s := by
    push_cast
    ring
  fun_induction row half step limit x generalizing c with
  | case1 x hle ih =>
    have hinside : c ≤ l := ((hcorner hc hlow hhigh hx).le_iff hlimit).1 hle
    have hgrid' : OnGrid g (c + s) := hc.add hgrid.whole
    have hnext : Denotes (x + step) (c + s + s / 2) := by
      have hsum := hx.add hstep
      rw [add_right_comm] at hsum
      exact hsum (hexact (hgrid'.add hgrid) (by linarith) (by linarith))
    have hrank : Single.rank x < Single.rank (x + step) := hx.rank_lt_rank hnext (by linarith)
    obtain ⟨n, hrow, hn⟩ := ih hrank hgrid' (by linarith) (by linarith) hnext
    refine ⟨n + 1, ?_, ?_⟩
    · rw [dif_pos hrank, List.range_succ_eq_map]
      refine .cons ⟨by simpa using hinside, by simpa using hx⟩ (List.forall₂_map_right_iff.2 ?_)
      refine hrow.imp fun y k hy => ?_
      rw [IsTile, hplace] at hy
      exact hy
    · intro k hk
      cases k with
      | zero => exact n.succ_pos
      | succ k => exact Nat.succ_lt_succ (hn k (by rwa [hplace]))
  | case2 x hgt =>
    have houtside : ¬ c ≤ l := fun hle =>
      hgt (((hcorner hc hlow hhigh hx).le_iff hlimit).2 hle)
    refine ⟨0, .nil, fun k hk => absurd ?_ houtside⟩
    have hnonneg : 0 ≤ k * s := mul_nonneg (Nat.cast_nonneg k) hs.le
    linarith

variable {g : ℕ} {s : ℚ} {low high : Int32} {size : Float32}

/-- An axis has all tiles that start within it, in order. -/
theorem forall₂_axis (h : IsExact g s low.toInt high.toInt) (hle : low.toInt ≤ high.toInt)
    (hsize : Denotes size s) :
    ∃ n, List.Forall₂ (IsTile s low.toInt high.toInt) (axis size low high) (List.range n) ∧
      ∀ k : ℕ, (low.toInt : ℚ) + k * s ≤ high.toInt → k < n := by
  have hpos := h.pos
  have hcast : (low.toInt : ℚ) ≤ high.toInt := by exact_mod_cast hle
  have hhalf : Denotes (size / 2) (s / 2) := hsize.div .two two_ne_zero h.isSingle_half
  have hstep : Denotes (Scalar.most size leastStep) s := by
    have hmost := hsize.most denotes_leastStep
    rw [max_eq_left h.leastStep_le] at hmost
    exact hmost
  have hlow : Denotes (Single.ofInt low.toInt) low.toInt :=
    Denotes.ofInt (h.natAbs_lt (abs_le_reach (by linarith) (by linarith)))
  have hhigh : Denotes (Single.ofInt high.toInt) high.toInt :=
    Denotes.ofInt (h.natAbs_lt (abs_le_reach (by linarith) (by linarith)))
  have hstart : Denotes (Single.ofInt low.toInt + size / 2) (low.toInt + s / 2) := by
    have hgrid := (OnGrid.ofInt low.toInt).add h.grid
    exact hlow.add hhalf (h.isSingle hgrid (abs_le_reach (by linarith) (by linarith)))
  exact forall₂_row (h.places.trans (by omega)) h.room hhalf hstep hhigh hpos h.grid
    le_reach (OnGrid.ofInt _) (neg_reach_le.trans (by linarith)) (by linarith) hstart

/-- An axis has tiles only, and all tiles that start within it. -/
theorem tiles_axis (h : IsExact g s low.toInt high.toInt) (hle : low.toInt ≤ high.toInt)
    (hsize : Denotes size s) :
    (∀ x ∈ axis size low high, ∃ k, IsTile s low.toInt high.toInt x k) ∧
      ∀ k : ℕ, (low.toInt : ℚ) + k * s ≤ high.toInt →
        ∃ x ∈ axis size low high, IsTile s low.toInt high.toInt x k := by
  obtain ⟨n, htiles, hn⟩ := forall₂_axis h hle hsize
  obtain ⟨hlength, htile⟩ := List.forall₂_iff_get.1 htiles
  rw [List.length_range] at hlength
  constructor
  · intro x hx
    obtain ⟨i, hi, rfl⟩ := List.getElem_of_mem hx
    exact ⟨_, htile i hi (by rwa [List.length_range, ← hlength])⟩
  · intro k hk
    have hinside : k < (axis size low high).length := hlength ▸ hn k hk
    refine ⟨_, List.getElem_mem hinside, ?_⟩
    simpa using htile k hinside (by rwa [List.length_range, ← hlength])

end Tiling

namespace Coverage

theorem range_eq_cons {a b : ℤ} (h : a < b) : Int.range a b = a :: Int.range (a + 1) b := by
  have hlength : (b - a).toNat = (b - (a + 1)).toNat + 1 := by omega
  rw [Int.range, Int.range, hlength, List.range_succ_eq_map, List.map_cons, List.map_map]
  congr 1
  · simp
  · apply List.map_congr_left
    intro k _
    simp only [Function.comp_apply, Nat.cast_succ]
    ring

theorem range_eq_nil {a b : ℤ} (h : b ≤ a) : Int.range a b = [] := by
  rw [Int.range, Int.toNat_of_nonpos (by omega)]
  rfl

theorem nodup_range (a b : ℤ) : (Int.range a b).Nodup :=
  List.nodup_range.map fun i j hij => by simpa using hij

theorem line_eq {limit : Float32} {l : ℚ} (hlimit : Denotes limit l) {a : ℤ} (hlow : -2 ^ 24 < a)
    (hle : a ≤ ⌈l⌉) (hhigh : ⌈l⌉ < 2 ^ 24) : line limit a = Int.range a ⌈l⌉ := by
  have hlt {a : ℤ} (hlow : -2 ^ 24 < a) (hle : a ≤ ⌈l⌉) : Scalar.ofInt a < limit ↔ a < ⌈l⌉ := by
    have ha : Denotes (Single.ofInt a) a := Denotes.ofInt (by omega)
    rw [Int.lt_ceil]
    exact ha.lt_iff hlimit
  fun_induction line limit a with
  | case1 a h ih =>
    have hinside : a < ⌈l⌉ := (hlt hlow hle).1 h.2
    rw [range_eq_cons hinside, ih (by omega) (by omega)]
  | case2 a h =>
    have hfits : a ≤ greatestCoordinate := by
      rw [greatestCoordinate]
      omega
    have houtside : ¬ a < ⌈l⌉ := fun hinside => h ⟨hfits, (hlt hlow hle).2 hinside⟩
    rw [range_eq_nil (by omega)]

/-- The coordinates that are scanned on one axis for a chunk with the middle `x`. -/
def span (size x : Float32) : List Int :=
  let corner := Single.floor (x - size / Scalar.two)
  line (corner + size) (Single.toInt corner)

theorem cells_eq (size : Float32) (center : Vec2 Float32) :
    cells size center =
      (span size center.x).flatMap fun x => (span size center.y).map fun y => (x, y) := rfl

theorem mem_cells {size : Float32} {center : Vec2 Float32} {a b : ℤ} :
    (a, b) ∈ cells size center ↔ a ∈ span size center.x ∧ b ∈ span size center.y := by
  rw [cells_eq]
  exact List.mem_product

theorem toInt_ofInt_of_mem_span {size x : Float32} {a : ℤ} (ha : a ∈ span size x) :
    (Int32.ofInt a).toInt = a := by
  have hline {limit : Float32} {low a : ℤ} (ha : a ∈ line limit low) :
      low ≤ a ∧ a ≤ greatestCoordinate := by
    fun_induction line limit low with
    | case1 low h ih =>
      rcases List.mem_cons.1 ha with rfl | ha
      · exact ⟨le_rfl, h.1⟩
      · exact ⟨by linarith [(ih ha).1], (ih ha).2⟩
    | case2 low h => cases ha
  have hleast (x : Float32) : -2 ^ 31 ≤ Single.toInt x := by
    simp only [Single.toInt]
    split
    · split
      · omega
      · exact le_min ((by norm_num : (-2 ^ 31 : ℤ) ≤ 0).trans (Int.natCast_nonneg _)) (by norm_num)
    · split <;> omega
    · omega
  obtain ⟨hlow, hhigh⟩ := hline ha
  rw [greatestCoordinate] at hhigh
  exact Int32.toInt_ofInt_of_le ((hleast _).trans hlow) (by omega)

theorem nodup_cells {size : Float32} {center : Vec2 Float32} (hx : (span size center.x).Nodup)
    (hy : (span size center.y).Nodup) : (cells size center).Nodup := by
  rw [cells_eq]
  exact hx.product hy

variable {g : ℕ} {s c : ℚ} {low high : ℤ} {size x : Float32}

theorem denotes_half (h : IsExact g s low high) (hsize : Denotes size s) :
    Denotes (size / Scalar.two) (s / 2) :=
  hsize.div .scalar_two two_ne_zero h.isSingle_half

theorem denotes_corner (h : IsExact g s low high) (hsize : Denotes size s) (hc : OnGrid g c)
    (hlow : low ≤ c) (hhigh : c ≤ high) (hx : Denotes x (c + s / 2)) :
    Denotes (x - size / Scalar.two) c := by
  have hpos := h.pos
  have hsub := hx.sub (denotes_half h hsize)
  rw [add_sub_cancel_right] at hsub
  exact hsub (h.isSingle hc (abs_le_reach (by linarith) (by linarith)))

/-- A tile scans the whole cells from the one that holds its lower end. -/
theorem span_eq (h : IsExact g s low high) (hsize : Denotes size s) (hc : OnGrid g c)
    (hlow : low ≤ c) (hhigh : c ≤ high) (hx : Denotes x (c + s / 2)) :
    span size x = Int.range ⌊c⌋ ⌈⌊c⌋ + s⌉ := by
  have hpos := h.pos
  have hfloor := (denotes_corner h hsize hc hlow hhigh hx).floor
  have hle : (⌊c⌋ : ℚ) ≤ c := Int.floor_le c
  have hge : (low : ℚ) ≤ ⌊c⌋ := by exact_mod_cast Int.le_floor.2 hlow
  have hsmall : ⌊c⌋.natAbs < 2 ^ 24 :=
    h.natAbs_lt (abs_le_reach (by linarith) (by linarith))
  have hstart : Single.toInt (Single.floor (x - size / Scalar.two)) = ⌊c⌋ :=
    hfloor.toInt (by omega) (by omega)
  have hgrid : OnGrid g (⌊c⌋ + s) := (OnGrid.ofInt _).add h.grid.whole
  have hreach : |(⌊c⌋ : ℚ) + s| ≤ reach s low high :=
    abs_le_reach (by linarith) (by linarith)
  have hlimit := hfloor.add hsize (h.isSingle hgrid hreach)
  have habove : ⌊c⌋ ≤ ⌈⌊c⌋ + s⌉ := by
    have hceil := Int.le_ceil (⌊c⌋ + s)
    exact_mod_cast (by linarith : (⌊c⌋ : ℚ) ≤ ⌈⌊c⌋ + s⌉)
  rw [span, hstart]
  exact line_eq hlimit (by omega) habove (h.ceil_lt hgrid hreach)

end Coverage

def Request.cells (r : Request) : List (ℤ × ℤ) := Coverage.cells r.view.size r.view.center

namespace Tiling

theorem mem_requests {size cellSize : Float32} {range : World.Range} {r : Request} :
    r ∈ requests size range cellSize ↔ ∃ x ∈ axis size range.minX range.maxX,
      ∃ y ∈ axis size range.minY range.maxY, request size cellSize x y = r := by
  simp only [requests, List.mem_flatMap, List.mem_map]

/-- The chunks that scan a cell are a column and a row of tiles that meet. -/
theorem filter_mem_cells (size cellSize : Float32) (range : World.Range) (a b : ℤ) :
    (requests size range cellSize).filter (fun r => (a, b) ∈ r.cells) =
      ((axis size range.minX range.maxX).filter (a ∈ Coverage.span size ·)).flatMap fun x =>
        ((axis size range.minY range.maxY).filter (b ∈ Coverage.span size ·)).map fun y =>
          request size cellSize x y := by
  rw [requests]
  induction axis size range.minX range.maxX with
  | nil => rfl
  | cons x xs ih =>
    rw [List.flatMap_cons, List.filter_append, ih, List.filter_map, List.filter_cons]
    by_cases ha : a ∈ Coverage.span size x <;>
      simp [Function.comp_def, Request.cells, request, Coverage.mem_cells, ha]

end Tiling

end DistantChunks
