import DistantChunks.Proofs.MovedAxes

/-!
# Overlapped cells

A scan starts in the cell that holds the lower corner of the chunk and goes on for the size of the
chunk, but counted from the corner of that cell and not from the corner of the chunk. It finds no
cell that the chunk does not overlap. It finds all that the chunk overlaps when no cell begins
between the end of the scan and the end of the chunk, as for chunks aligned to the cells,
`mem_cells_iff_of_aligned`.
-/

namespace DistantChunks

namespace Coverage

def cellSquare (a b : ℤ) : Set (ℝ × ℝ) := Set.Ico (a : ℝ) (a + 1) ×ˢ Set.Ico (b : ℝ) (b + 1)

/-- The points of a chunk of the size `s` around `(x, y)`, without its border. -/
def chunkSquare (s x y : ℚ) : Set (ℝ × ℝ) :=
  Set.Ioo ((x - s / 2 : ℚ) : ℝ) ((x + s / 2 : ℚ) : ℝ) ×ˢ
    Set.Ioo ((y - s / 2 : ℚ) : ℝ) ((y + s / 2 : ℚ) : ℝ)

def Overlaps (s x y : ℚ) (a b : ℤ) : Prop := (cellSquare a b ∩ chunkSquare s x y).Nonempty

def scanEnd (s x : ℚ) : ℚ := ⌊x - s / 2⌋ + s

/-- The ends of the scan on an axis are not rounded and lie among the whole numbers that single
precision holds. -/
structure IsExactScan (size x : Float32) : Prop where
  half : ExactQuotient size Scalar.two
  low : ExactDifference x (size / Scalar.two)
  limit : ExactSum (Single.floor (x - size / Scalar.two)) size
  low_gapless : IsGapless (x - size / Scalar.two)
  limit_gapless : IsGapless (Single.floor (x - size / Scalar.two) + size)

instance (size x : Float32) : Decidable (IsExactScan size x) :=
  decidable_of_iff (_ ∧ _ ∧ _ ∧ _ ∧ _)
    ⟨fun ⟨h, h', h'', hlow, hlimit⟩ => ⟨h, h', h'', hlow, hlimit⟩,
      fun h => ⟨h.half, h.low, h.limit, h.low_gapless, h.limit_gapless⟩⟩

section Axis

variable {s x : ℚ} {a : ℤ}

theorem ico_inter_ioo_nonempty_iff {l h : ℚ} (hlt : l < h) :
    (Set.Ico (a : ℝ) (a + 1) ∩ Set.Ioo (l : ℝ) (h : ℝ)).Nonempty ↔ ⌊l⌋ ≤ a ∧ a < ⌈h⌉ := by
  rw [← Int.lt_add_one_iff, Int.floor_lt, Int.lt_ceil]
  constructor
  · rintro ⟨t, ⟨hat, hta⟩, hlt, hth⟩
    exact ⟨by exact_mod_cast hlt.trans hta, by exact_mod_cast hat.trans_lt hth⟩
  · rintro ⟨hla, hah⟩
    have hla' : (l : ℝ) < a + 1 := by exact_mod_cast hla
    have hah' : (a : ℝ) < h := by exact_mod_cast hah
    have hlt' : (l : ℝ) < h := by exact_mod_cast hlt
    have hroom : max (a : ℝ) l < min (a + 1 : ℝ) h :=
      max_lt (lt_min (lt_add_one _) hah') (lt_min hla' hlt')
    obtain ⟨t, hlow, hhigh⟩ := exists_between hroom
    rw [max_lt_iff] at hlow
    rw [lt_min_iff] at hhigh
    exact ⟨t, ⟨hlow.1.le, hhigh.1⟩, hlow.2, hhigh.2⟩

theorem scanEnd_le (s x : ℚ) : scanEnd s x ≤ x + s / 2 := by
  have hfloor := Int.floor_le (x - s / 2)
  rw [scanEnd]
  linarith

theorem floor_lt_ceil (hs : 0 < s) : ⌊x - s / 2⌋ < ⌈x + s / 2⌉ := by
  have hfloor := Int.floor_le (x - s / 2)
  rw [Int.lt_ceil]
  linarith

theorem scanEnd_of_aligned (haligned : ((⌊x - s / 2⌋ : ℤ) : ℚ) = x - s / 2) :
    scanEnd s x = x + s / 2 := by
  rw [scanEnd, haligned]
  ring

end Axis

theorem overlaps_iff {s x y : ℚ} (hs : 0 < s) {a b : ℤ} :
    Overlaps s x y a b ↔
      (⌊x - s / 2⌋ ≤ a ∧ a < ⌈x + s / 2⌉) ∧ ⌊y - s / 2⌋ ≤ b ∧ b < ⌈y + s / 2⌉ := by
  rw [Overlaps, cellSquare, chunkSquare, Set.prod_inter_prod, Set.prod_nonempty_iff,
    ico_inter_ioo_nonempty_iff (by linarith), ico_inter_ioo_nonempty_iff (by linarith)]

section Scan

variable {size x : Float32} {s p : ℚ}

theorem span_of_isExactScan (h : IsExactScan size x) (hsize : Denotes size s) (hx : Denotes x p) :
    span size x = Int.range ⌊p - s / 2⌋ ⌈scanEnd s p⌉ := by
  have hlow := h.low.denotes hx (h.half.denotes hsize .scalar_two)
  exact span_eq_range hlow (h.limit.denotes hlow.floor hsize) h.low_gapless h.limit_gapless

theorem nodup_span (h : IsExactScan size x) : (span size x).Nodup := by
  obtain ⟨p, -, hx, -⟩ := h.low
  obtain ⟨s, -, hsize, -⟩ := h.half
  rw [span_of_isExactScan h hsize hx]
  exact nodup_range _ _

end Scan

variable {size : Float32} {center : Vec2 Float32} {s x y : ℚ}

theorem mem_cells_iff_of_isExactScan (hx : IsExactScan size center.x)
    (hy : IsExactScan size center.y) (hsize : Denotes size s) (hcx : Denotes center.x x)
    (hcy : Denotes center.y y) {a b : ℤ} :
    (a, b) ∈ cells size center ↔
      (⌊x - s / 2⌋ ≤ a ∧ a < ⌈scanEnd s x⌉) ∧ ⌊y - s / 2⌋ ≤ b ∧ b < ⌈scanEnd s y⌉ := by
  rw [mem_cells, span_of_isExactScan hx hsize hcx, span_of_isExactScan hy hsize hcy,
    Int.mem_range_iff, Int.mem_range_iff]

theorem mem_cells_iff_of_aligned (hx : IsExactScan size center.x) (hy : IsExactScan size center.y)
    (hsize : Denotes size s) (hs : 0 < s) (hcx : Denotes center.x x) (hcy : Denotes center.y y)
    (hwholex : ((⌊x - s / 2⌋ : ℤ) : ℚ) = x - s / 2) (hwholey : ((⌊y - s / 2⌋ : ℤ) : ℚ) = y - s / 2)
    {a b : ℤ} : (a, b) ∈ cells size center ↔ Overlaps s x y a b := by
  rw [mem_cells_iff_of_isExactScan hx hy hsize hcx hcy, overlaps_iff hs,
    scanEnd_of_aligned hwholex, scanEnd_of_aligned hwholey]

/-- A scan finds no cell twice, and of the cells that the chunk overlaps it finds those that begin
before it ends. These are all of them exactly when no cell begins between the end of the scan and
the end of the chunk on either axis. -/
theorem mem_cells_iff_overlaps (hsize : Denotes size s) (hs : 0 < s) (hcx : Denotes center.x x)
    (hcy : Denotes center.y y) (hx : IsExactScan size center.x) (hy : IsExactScan size center.y) :
    (cells size center).Nodup ∧
    (∀ a b, (a, b) ∈ cells size center ↔
      Overlaps s x y a b ∧ a < scanEnd s x ∧ b < scanEnd s y) ∧
    ((∀ a b, Overlaps s x y a b → (a, b) ∈ cells size center) ↔
      ⌈scanEnd s x⌉ = ⌈x + s / 2⌉ ∧ ⌈scanEnd s y⌉ = ⌈y + s / 2⌉) := by
  have hmem (a b : ℤ) : (a, b) ∈ cells size center ↔ _ :=
    mem_cells_iff_of_isExactScan hx hy hsize hcx hcy
  have hendx : ⌈scanEnd s x⌉ ≤ ⌈x + s / 2⌉ := Int.ceil_mono (scanEnd_le s x)
  have hendy : ⌈scanEnd s y⌉ ≤ ⌈y + s / 2⌉ := Int.ceil_mono (scanEnd_le s y)
  refine ⟨nodup_cells (nodup_span hx) (nodup_span hy), fun a b => ?_, fun hall => ?_, ?_⟩
  · rw [hmem, overlaps_iff hs, ← Int.lt_ceil, ← Int.lt_ceil]
    omega
  · -- the overlapped cell farthest from the lower corner decides for both axes
    have hfarx := floor_lt_ceil (x := x) hs
    have hfary := floor_lt_ceil (x := y) hs
    have hfar := hall (⌈x + s / 2⌉ - 1) (⌈y + s / 2⌉ - 1) ((overlaps_iff hs).2 (by omega))
    rw [hmem] at hfar
    omega
  · rintro ⟨hsamex, hsamey⟩ a b hoverlaps
    rwa [hmem, hsamex, hsamey, ← overlaps_iff hs]

def raft : Vec2 Float32 := ⟨-0.25, 3⟩

/-- The raft is not aligned, but its scan ends in the row and the column where it ends. -/
theorem raft_mem_cells_iff_overlaps :
    Denotes 1.5 (3 / 2) ∧ (0 : ℚ) < 3 / 2 ∧ Denotes raft.x (-1 / 4) ∧ Denotes raft.y 3 ∧
      IsExactScan 1.5 raft.x ∧ IsExactScan 1.5 raft.y ∧
      ∀ a b, (a, b) ∈ cells 1.5 raft ↔ Overlaps (3 / 2) (-1 / 4) 3 a b := by
  have hsize : Denotes 1.5 (3 / 2) := by decide +kernel
  have hcx : Denotes raft.x (-1 / 4) := by decide +kernel
  have hcy : Denotes raft.y 3 := by decide +kernel
  have hx : IsExactScan 1.5 raft.x := by decide +kernel
  have hy : IsExactScan 1.5 raft.y := by decide +kernel
  have hs : (0 : ℚ) < 3 / 2 := by norm_num
  have hends : ⌈scanEnd (3 / 2) (-1 / 4)⌉ = ⌈(-1 / 4 : ℚ) + 3 / 2 / 2⌉ ∧
      ⌈scanEnd (3 / 2) 3⌉ = ⌈(3 : ℚ) + 3 / 2 / 2⌉ := by
    rw [scanEnd, scanEnd]
    decide +kernel
  obtain ⟨-, hmem, hall⟩ := mem_cells_iff_overlaps hsize hs hcx hcy hx hy
  exact ⟨hsize, hs, hcx, hcy, hx, hy, fun a b => ⟨fun h => ((hmem a b).1 h).1, hall.2 hends a b⟩⟩

/-- A chunk around a corner of the cells overlaps the four cells there, but its scan finds one. -/
theorem scan_misses_overlapped :
    Denotes 1 1 ∧ Denotes 0 0 ∧ IsExactScan 1 0 ∧ cells (1 : Float32) ⟨0, 0⟩ = [(-1, -1)] ∧
      ∀ a ∈ [-1, 0], ∀ b ∈ [-1, 0], Overlaps 1 0 0 a b := by
  have hcells : cells (1 : Float32) ⟨0, 0⟩ = [(-1, -1)] := by decide +kernel
  refine ⟨by decide +kernel, by decide, by decide +kernel, hcells, fun a ha b hb => ?_⟩
  rw [overlaps_iff one_pos]
  norm_num at ha hb
  rcases ha with rfl | rfl <;> rcases hb with rfl | rfl <;> decide +kernel

end Coverage

end DistantChunks
