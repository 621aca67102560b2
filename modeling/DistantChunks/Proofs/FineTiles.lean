import DistantChunks.Proofs.CellRange
import DistantChunks.Proofs.Tiles

/-!
# Tiles smaller than a cell

A tile whose size is a fraction of a cell scans the one cell in which it lies, and takes the
positions of that cell that lie in the tile. The tiles of an axis cover every cell but the last one
of the axis: there the row ends with the tile that starts where the cell starts.
-/

namespace DistantChunks

theorem four_le_two_pow {j : ℕ} (hj : 1 ≤ j) : (4 : ℤ) ≤ 2 ^ (j + 1) := by
  calc (4 : ℤ) = 2 ^ 2 := by norm_num
    _ ≤ 2 ^ (j + 1) := pow_le_pow_right₀ one_le_two (by omega)

theorem IsExact.ofFraction {j : ℕ} {low high : ℤ} (hj : 1 ≤ j)
    (hlow : (|low| + 1) * 2 ^ (j + 1) ≤ 2 ^ 24) (hhigh : (|high| + 1) * 2 ^ (j + 1) ≤ 2 ^ 24) :
    IsExact (j + 1) (1 / 2 ^ j) low high where
  places := by
    have hone : (1 : ℤ) * 2 ^ (j + 1) ≤ (|low| + 1) * 2 ^ (j + 1) :=
      mul_le_mul_of_nonneg_right (by linarith [abs_nonneg low]) (by positivity)
    exact (pow_le_pow_iff_right₀ (one_lt_two : (1 : ℤ) < 2)).1 (by linarith)
  pos := by positivity
  grid := ⟨1, by field_simp; norm_num [pow_succ]⟩
  room := by
    have hmax : (max |low| |high| + 1) * 2 ^ (j + 1) ≤ 2 ^ 24 := by
      rcases max_choice |low| |high| with h | h <;> rw [h] <;> assumption
    have hcast : (max |(low : ℚ)| |(high : ℚ)| + 1) * 2 ^ (j + 1) ≤ 2 ^ 24 := by
      exact_mod_cast hmax
    have hfour : (4 : ℚ) ≤ 2 ^ (j + 1) := by exact_mod_cast four_le_two_pow hj
    have hthree : 3 / 2 * (1 / 2 ^ j) * 2 ^ (j + 1) = (3 : ℚ) := by
      rw [pow_succ]
      field_simp
    rw [reach, add_mul, hthree]
    linarith

namespace Coverage

def LiesIn (cellSize : Float32) (a b : ℤ) (p : Vec3 Float32) : Prop :=
  (Single.ofInt a ≤ p.x / cellSize ∧ p.x / cellSize ≤ Single.ofInt (a + 1)) ∧
    Single.ofInt b ≤ p.y / cellSize ∧ p.y / cellSize ≤ Single.ofInt (b + 1)

/-- On one axis, the tile with the middle `x` scans the cell at `c` and takes the position `u`. -/
def TakesOnAxis (size x : Float32) (c : ℤ) (u : Float32) : Prop :=
  c ∈ span size x ∧ holdsOnAxis (x - size / Scalar.two) (x + size / Scalar.two) u = true

theorem holdsOnAxis_iff {low high u : Float32} {l h q : ℚ} (hlow : Denotes low l)
    (hhigh : Denotes high h) (hu : Denotes u q) :
    holdsOnAxis low high u = true ↔
      l ≤ min (max q ⌊l⌋) ⌈h⌉ ∧ min (max q ⌊l⌋) ⌈h⌉ ≤ h := by
  have hmoved := (hu.most hlow.floor).least hhigh.ceil
  rw [← hlow.le_iff hmoved, ← hmoved.le_iff hhigh, ← decide_eq_true_iff (p := low ≤ _),
    ← decide_eq_true_iff (p := _ ≤ high), ← Bool.and_eq_true]
  rfl

end Coverage

theorem exists_piece {n : ℕ} (hn : 0 < n) {c q : ℚ} (hlow : c ≤ q) (hhigh : q ≤ c + 1) :
    ∃ i < n, c + i * (1 / n) ≤ q ∧ q ≤ c + i * (1 / n) + 1 / n := by
  have hpos : (0 : ℚ) < n := by exact_mod_cast hn
  rcases hhigh.lt_or_eq with hlt | rfl
  · have hscaled : 0 ≤ (q - c) * n := mul_nonneg (by linarith) hpos.le
    refine ⟨⌊(q - c) * n⌋₊, ?_, ?_, ?_⟩
    · rw [Nat.floor_lt hscaled]
      exact mul_lt_of_lt_one_left hpos (by linarith)
    · have hfloor := Nat.floor_le hscaled
      rw [mul_one_div, ← le_sub_iff_add_le', div_le_iff₀ hpos]
      exact hfloor
    · have hfloor := Nat.lt_floor_add_one ((q - c) * n)
      rw [mul_one_div, add_assoc, ← add_div, ← sub_le_iff_le_add', le_div_iff₀ hpos]
      exact hfloor.le
  · refine ⟨n - 1, by omega, ?_, ?_⟩
    · rw [mul_one_div, add_le_add_iff_left, div_le_one hpos]
      exact_mod_cast n.sub_le 1
    · have hcast : ((n - 1 : ℕ) : ℚ) = n - 1 := by rw [Nat.cast_sub hn, Nat.cast_one]
      rw [hcast]
      field_simp
      linarith

theorem floor_eq_iff_of_fraction {n : ℕ} (hn : 0 < n) {low c : ℤ} {k : ℕ} :
    ⌊low + k * (1 / n : ℚ)⌋ = c ↔
      c ≤ low + k * (1 / n : ℚ) ∧ low + k * (1 / n : ℚ) + 1 / n ≤ c + 1 := by
  have hpos : (0 : ℚ) < n := by exact_mod_cast hn
  have hscaled (i : ℤ) : low + k * (1 / n : ℚ) + i / n = (low * n + k + i : ℤ) / n := by
    push_cast
    field_simp
  rw [Int.floor_eq_iff, and_congr_right_iff]
  intro
  have hlt : low + k * (1 / n : ℚ) < c + 1 ↔ low * n + k < (c + 1) * n := by
    have hcorner := hscaled 0
    rw [Int.cast_zero, zero_div, add_zero, add_zero] at hcorner
    rw [hcorner, div_lt_iff₀ hpos]
    exact_mod_cast Iff.rfl
  have hle : low + k * (1 / n : ℚ) + 1 / n ≤ c + 1 ↔ low * n + k + 1 ≤ (c + 1) * n := by
    have hend := hscaled 1
    rw [Int.cast_one] at hend
    rw [hend, div_le_iff₀ hpos]
    exact_mod_cast Iff.rfl
  rw [hlt, hle, Int.add_one_le_iff]

/-- Of the tiles that start within an axis, one lies in a cell and holds a point of it, unless the
point lies beyond the tile that starts with the last cell. -/
theorem exists_corner {n : ℕ} (hn : 0 < n) {low high c : ℤ} {q : ℚ} (hlow : low ≤ c)
    (hhigh : c ≤ high) (hcq : c ≤ q) (hqc : q ≤ c + 1) (hlimit : q ≤ high + 1 / n) :
    ∃ k : ℕ, low + k * (1 / n : ℚ) ≤ high ∧
      (c ≤ low + k * (1 / n : ℚ) ∧ low + k * (1 / n : ℚ) + 1 / n ≤ c + 1) ∧
        low + k * (1 / n : ℚ) ≤ q ∧ q ≤ low + k * (1 / n : ℚ) + 1 / n := by
  have hpos : (0 : ℚ) < n := by exact_mod_cast hn
  obtain ⟨i, hi, hfrom, hto, hinside⟩ : ∃ i < n, c + i * (1 / n : ℚ) ≤ q ∧
      q ≤ c + i * (1 / n : ℚ) + 1 / n ∧ c + i * (1 / n : ℚ) ≤ high := by
    by_cases hlast : c < high
    · obtain ⟨i, hi, hfrom, hto⟩ := exists_piece hn hcq hqc
      have hnext : (c : ℚ) + 1 ≤ high := by exact_mod_cast hlast
      exact ⟨i, hi, hfrom, hto, by linarith⟩
    · have hc : (high : ℚ) = c := by exact_mod_cast le_antisymm (not_lt.1 hlast) hhigh
      rw [hc] at hlimit
      exact ⟨0, hn, by simpa using hcq, by simpa using hlimit, by simp [hc]⟩
  have hplace : (low : ℚ) + ((c - low).toNat * n + i : ℕ) * (1 / n : ℚ) = c + i * (1 / n : ℚ) := by
    have hcast : (((c - low).toNat : ℤ) : ℚ) = c - low := by
      rw [Int.toNat_of_nonneg (by omega), Int.cast_sub]
    rw [Int.cast_natCast] at hcast
    push_cast
    rw [hcast]
    field_simp
    ring
  have hroom : i * (1 / n : ℚ) + 1 / n ≤ 1 := by
    rw [mul_one_div, ← add_div, div_le_one hpos]
    exact_mod_cast hi
  refine ⟨(c - low).toNat * n + i, ?_⟩
  rw [hplace]
  exact ⟨hinside, ⟨le_add_of_nonneg_right (by positivity), by linarith⟩, hfrom, hto⟩

namespace Tiling

variable {g n k : ℕ} {low high : Int32} {size x u : Float32} {c : ℤ} {q : ℚ}

theorem takes_iff (h : IsExact g (1 / n) low.toInt high.toInt) (hn : 0 < n)
    (hsize : Denotes size (1 / n)) (hx : IsTile (1 / n) low.toInt high.toInt x k)
    (hu : Denotes u q) (hcq : c ≤ q) (hqc : q ≤ c + 1) :
    Coverage.TakesOnAxis size x c u ↔
      (c ≤ low.toInt + k * (1 / n : ℚ) ∧ low.toInt + k * (1 / n : ℚ) + 1 / n ≤ c + 1) ∧
        low.toInt + k * (1 / n : ℚ) ≤ q ∧ q ≤ low.toInt + k * (1 / n : ℚ) + 1 / n := by
  have hs := h.pos
  have hgrid : OnGrid g (low.toInt + k * (1 / n : ℚ)) :=
    (OnGrid.ofInt _).add (h.grid.whole.natCast_mul k)
  have hlow : (low.toInt : ℚ) ≤ low.toInt + k * (1 / n : ℚ) :=
    le_add_of_nonneg_right (by positivity)
  obtain ⟨hhigh, hmiddle⟩ := hx
  have hspan := Coverage.span_eq h hsize hgrid hlow hhigh hmiddle
  have hcorner := Coverage.denotes_corner h hsize hgrid hlow hhigh hmiddle
  have hcell : ⌊low.toInt + k * (1 / n : ℚ)⌋ = c ↔ _ := floor_eq_iff_of_fraction hn
  generalize (low.toInt : ℚ) + k * (1 / n : ℚ) = d at *
  have hend : Denotes (x + size / Scalar.two) (d + 1 / n) := by
    have hsum := hmiddle.add (Coverage.denotes_half h hsize)
    rw [add_assoc, add_halves] at hsum
    exact hsum (h.isSingle (hgrid.add h.grid.whole) (abs_le_reach (by linarith) (by linarith)))
  have hone : ⌈(1 / n : ℚ)⌉ = 1 := by
    rw [Int.ceil_eq_iff]
    refine ⟨by simpa using hs, ?_⟩
    rw [Int.cast_one, div_le_one (by exact_mod_cast hn)]
    exact_mod_cast hn
  have hmem : c ∈ Coverage.span size x ↔ ⌊d⌋ = c := by
    rw [hspan, Int.ceil_intCast_add, hone, Int.mem_range_iff]
    omega
  rw [Coverage.TakesOnAxis, hmem, hcell, and_congr_right_iff,
    Coverage.holdsOnAxis_iff hcorner hend hu]
  rintro ⟨hfrom, hto⟩
  have hceil : ⌈d + 1 / n⌉ = c + 1 := by
    rw [Int.ceil_eq_iff]
    push_cast
    exact ⟨by linarith, hto⟩
  rw [hcell.2 ⟨hfrom, hto⟩, hceil, max_eq_left hcq, min_eq_left (by exact_mod_cast hqc)]

theorem exists_takes_iff (h : IsExact g (1 / n) low.toInt high.toInt) (hn : 0 < n)
    (hsize : Denotes size (1 / n)) (hu : Denotes u q) (hlow : low.toInt ≤ c)
    (hhigh : c ≤ high.toInt) (hcq : c ≤ q) (hqc : q ≤ c + 1) :
    (∃ x ∈ axis size low high, Coverage.TakesOnAxis size x c u) ↔ q ≤ high.toInt + 1 / n := by
  obtain ⟨htiles, hall⟩ := tiles_axis h (hlow.trans hhigh) hsize
  constructor
  · rintro ⟨x, hx, htakes⟩
    obtain ⟨k, hk⟩ := htiles x hx
    obtain ⟨-, -, hend⟩ := (takes_iff h hn hsize hk hu hcq hqc).1 htakes
    exact hend.trans (add_le_add_left hk.1 _)
  · intro hlimit
    obtain ⟨k, hinside, hplace⟩ := exists_corner hn hlow hhigh hcq hqc hlimit
    obtain ⟨x, hx, htile⟩ := hall k hinside
    exact ⟨x, hx, (takes_iff h hn hsize htile hu hcq hqc).2 hplace⟩

theorem exists_takes_iff_le {j : ℕ} (hj : 1 ≤ j)
    (hleast : (|low.toInt| + 1) * 2 ^ (j + 1) ≤ 2 ^ 24)
    (hmost : (|high.toInt| + 1) * 2 ^ (j + 1) ≤ 2 ^ 24) (hsize : Denotes size (1 / 2 ^ j))
    (hlow : low.toInt ≤ c) (hhigh : c ≤ high.toInt) (hcu : Single.ofInt c ≤ u)
    (huc : u ≤ Single.ofInt (c + 1)) :
    (∃ x ∈ axis size low high, Coverage.TakesOnAxis size x c u) ↔
      u ≤ Single.ofInt high.toInt + size := by
  have h := IsExact.ofFraction hj hleast hmost
  have hsmall {m : ℤ} (hm : (|m| + 1) * 2 ^ (j + 1) ≤ 2 ^ 24) : -2 ^ 22 < m ∧ m < 2 ^ 22 := by
    have hscaled := mul_le_mul_of_nonneg_left (four_le_two_pow hj) (by positivity : 0 ≤ |m| + 1)
    exact abs_lt.1 (by omega)
  have hleast := hsmall hleast
  have hmost := hsmall hmost
  have hc : Denotes (Single.ofInt c) c := Denotes.ofInt (by omega)
  have hnext : Denotes (Single.ofInt (c + 1)) (c + 1 : ℤ) := Denotes.ofInt (by omega)
  have hlast : Denotes (Single.ofInt high.toInt + size) (high.toInt + 1 / 2 ^ j) := by
    have hsum : Denotes (Single.ofInt high.toInt) high.toInt := Denotes.ofInt (by omega)
    have hpos := h.pos
    have hcast : (low.toInt : ℚ) ≤ high.toInt := by exact_mod_cast hlow.trans hhigh
    exact hsum.add hsize (h.isSingle ((OnGrid.ofInt _).add h.grid.whole)
      (abs_le_reach (by linarith) (by linarith)))
  obtain ⟨q, hq⟩ := hc.exists_of_le_of_le hnext hcu huc
  have hcq := (hc.le_iff hq).1 hcu
  have hqc := (hq.le_iff hnext).1 huc
  rw [hq.le_iff hlast]
  have hpieces : (2 : ℚ) ^ j = (2 ^ j : ℕ) := by push_cast; rfl
  rw [hpieces] at h hsize ⊢
  exact exists_takes_iff h (by positivity) hsize hq hlow hhigh hcq (by exact_mod_cast hqc)

end Tiling

/-- The scan for the request reads the cell, and the chunk takes the position. -/
def Request.Takes (r : Request) (cellSize : Float32) (a b : ℤ) (p : Vec3 Float32) : Prop :=
  (a, b) ∈ r.cells ∧ Coverage.holds r.view.size r.view.center cellSize p = true

namespace Tiling

theorem exists_request_iff {size cellSize : Float32} {range : World.Range} {a b : ℤ}
    {p : Vec3 Float32} :
    (∃ r ∈ requests size range cellSize, r.Takes cellSize a b p) ↔
      (∃ x ∈ axis size range.minX range.maxX,
        Coverage.TakesOnAxis size x a (p.x / cellSize)) ∧
      ∃ y ∈ axis size range.minY range.maxY,
        Coverage.TakesOnAxis size y b (p.y / cellSize) := by
  have htakes (x y : Float32) : (request size cellSize x y).Takes cellSize a b p ↔
      Coverage.TakesOnAxis size x a (p.x / cellSize) ∧
        Coverage.TakesOnAxis size y b (p.y / cellSize) := by
    rw [Request.Takes, Request.cells, Coverage.mem_cells, Coverage.TakesOnAxis,
      Coverage.TakesOnAxis, and_and_and_comm, ← Bool.and_eq_true]
    rfl
  constructor
  · rintro ⟨r, hr, hp⟩
    obtain ⟨x, hx, y, hy, rfl⟩ := mem_requests.1 hr
    obtain ⟨hpx, hpy⟩ := (htakes x y).1 hp
    exact ⟨⟨x, hx, hpx⟩, y, hy, hpy⟩
  · rintro ⟨⟨x, hx, hpx⟩, y, hy, hpy⟩
    exact ⟨_, mem_requests.2 ⟨x, hx, y, hy, rfl⟩, (htakes x y).2 ⟨hpx, hpy⟩⟩

/-- The chunks that tile a range take the positions of its cells up to the end of the tiles that
start with the last cells. -/
theorem exists_request_takes_iff {range : World.Range} {j : ℕ} (hj : 1 ≤ j)
    (hroom : ∀ z ∈ [range.minX, range.maxX, range.minY, range.maxY],
      (|z.toInt| + 1) * 2 ^ (j + 1) ≤ 2 ^ 24) {size : Float32} (hsize : Denotes size (1 / 2 ^ j))
    {a b : ℤ} (hab : range.Contains a b) {cellSize : Float32} {p : Vec3 Float32}
    (hp : Coverage.LiesIn cellSize a b p) :
    (∃ r ∈ requests size range cellSize, r.Takes cellSize a b p) ↔
      p.x / cellSize ≤ Single.ofInt range.maxX.toInt + size ∧
        p.y / cellSize ≤ Single.ofInt range.maxY.toInt + size := by
  simp only [List.forall_mem_cons] at hroom
  obtain ⟨hminX, hmaxX, hminY, hmaxY, -⟩ := hroom
  rw [exists_request_iff,
    exists_takes_iff_le hj hminX hmaxX hsize hab.1.1 hab.1.2 hp.1.1 hp.1.2,
    exists_takes_iff_le hj hminY hmaxY hsize hab.2.1 hab.2.2 hp.2.1 hp.2.2]

end Tiling

/-- Chunks whose size is one cell divided by a power of two take an object that lies in its cell if
and only if it does not lie beyond the first row or column of chunks in the last cells of the
world. -/
theorem World.exists_request_takes_iff_le (w : World) {range : World.Range}
    (hrange : w.range? = some range) {j : ℕ} (hj : 1 ≤ j)
    (hroom : ∀ z ∈ [range.minX, range.maxX, range.minY, range.maxY],
      (|z.toInt| + 1) * 2 ^ (j + 1) ≤ 2 ^ 24) {size : Float32} (hsize : Denotes size (1 / 2 ^ j))
    {c : Cell} (hc : c ∈ w.cells) {cellSize : Float32} {p : Vec3 Float32}
    (hp : Coverage.LiesIn cellSize c.x.toInt c.y.toInt p) :
    (∃ r ∈ Tiling.requests size range cellSize, r.Takes cellSize c.x.toInt c.y.toInt p) ↔
      p.x / cellSize ≤ Single.ofInt range.maxX.toInt + size ∧
        p.y / cellSize ≤ Single.ofInt range.maxY.toInt + size :=
  Tiling.exists_request_takes_iff hj hroom hsize (contains_of_mem hrange hc) hp

theorem denotes_half_cell : Denotes (Float32.ofBits 0x3f000000) (1 / 2 ^ 1) := by
  refine Denotes.ofBits ?_
  have hread : BinaryFormat.single.read (UInt32.toNat 0x3f000000) =
      .finite false (2 ^ 23) (-24) := by
    decide
  rw [hread, BinaryValue.number?]
  norm_num

def jetty : World := ⟨[.new (-1) 2, .new 0 3], ∅⟩

theorem jetty_exists_request_takes :
    let p : Vec3 Float32 := ⟨-1024, 24576, 0⟩
    jetty.range? = some ⟨-1, 2, 0, 3⟩ ∧ Coverage.LiesIn 8192 (-1) 2 p ∧
      ∃ r ∈ Tiling.requests (Float32.ofBits 0x3f000000) ⟨-1, 2, 0, 3⟩ 8192,
        r.Takes 8192 (-1) 2 p := by
  intro p
  have hrange : jetty.range? = some ⟨-1, 2, 0, 3⟩ := by decide
  have hlies : Coverage.LiesIn 8192 (-1) 2 p := by
    rw [Coverage.LiesIn]
    decide
  have hroom : ∀ z ∈ [(-1 : Int32), 0, 2, 3], (|z.toInt| + 1) * 2 ^ (1 + 1) ≤ 2 ^ 24 := by
    have htoInt : (-1 : Int32).toInt = -1 ∧ (0 : Int32).toInt = 0 ∧ (2 : Int32).toInt = 2 ∧
      (3 : Int32).toInt = 3 := by decide
    norm_num [htoInt]
  have hmem : Cell.new (-1) 2 ∈ jetty.cells := List.mem_cons_self
  have htakes := jetty.exists_request_takes_iff_le hrange le_rfl hroom denotes_half_cell hmem hlies
  exact ⟨hrange, hlies, htakes.2 (by decide)⟩

def lighthouse : Reference := .new ⟨0, 1⟩ .static "lighthouse" ⟨6144, 6144, 0⟩

def island : World := ⟨[(Cell.new 0 0).pushContext [lighthouse]], ∅⟩

/-- The only chunk of half a cell ends in the middle of the island. -/
theorem island_no_request_takes_lighthouse :
    island.range? = some ⟨0, 0, 0, 0⟩ ∧ Denotes (Float32.ofBits 0x3f000000) (1 / 2 ^ 1) ∧
      (∃ c ∈ island.cells, c.x = 0 ∧ c.y = 0 ∧ ∃ context ∈ c.contexts, lighthouse ∈ context.refs) ∧
      Coverage.LiesIn 8192 0 0 lighthouse.position ∧
      ¬ ∃ r ∈ Tiling.requests (Float32.ofBits 0x3f000000) ⟨0, 0, 0, 0⟩ 8192,
        r.Takes 8192 0 0 lighthouse.position := by
  have hrange : island.range? = some ⟨0, 0, 0, 0⟩ := by decide
  have hlies : Coverage.LiesIn 8192 0 0 lighthouse.position := by
    rw [Coverage.LiesIn]
    decide
  have hroom : ∀ z ∈ [(0 : Int32), 0, 0, 0], (|z.toInt| + 1) * 2 ^ (1 + 1) ≤ 2 ^ 24 := by
    have htoInt : (0 : Int32).toInt = 0 := by decide
    norm_num [htoInt]
  have hcell : World.Range.Contains ⟨0, 0, 0, 0⟩ 0 0 := by simp [World.Range.Contains]
  refine ⟨hrange, denotes_half_cell, ?_, hlies, ?_⟩
  · simp [island, Cell.new, Cell.pushContext]
  · rw [Tiling.exists_request_takes_iff le_rfl hroom denotes_half_cell hcell hlies]
    decide

end DistantChunks
