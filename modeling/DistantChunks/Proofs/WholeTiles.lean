import DistantChunks.Proofs.CellRange
import DistantChunks.Proofs.Tiles

/-!
# Tiles of whole size

Tiles whose size is a whole number of cells follow each other without a gap and without an
overlap, so each cell of a range is scanned for one of the chunks that tile it and only once. What
stands in one cell only is then found for one chunk at most.
-/

namespace DistantChunks

theorem IsExact.ofWhole {n low high : ℤ} (hn : 1 ≤ n) (hlow : 2 * |low| + 3 * n < 2 ^ 24)
    (hhigh : 2 * |high| + 3 * n < 2 ^ 24) : IsExact 1 n low high where
  places := by omega
  pos := by exact_mod_cast hn
  grid := ⟨n, by ring⟩
  room := by
    have hmax : 2 * max |low| |high| + 3 * n < 2 ^ 24 := by omega
    have hcast : (2 * max |(low : ℚ)| |(high : ℚ)| + 3 * n : ℚ) < 2 ^ 24 := by exact_mod_cast hmax
    rw [reach]
    linarith

/-- Whether the scan for a request finds the number. -/
def Request.collects (disabled : DisabledSet) (far : Bool) (records : CellStore) (m : RefNum)
    (r : Request) : Bool :=
  (Scan.run disabled far records r.view.size r.view.center).refs.contains m

namespace Tiling

variable {n : ℤ} {low high : Int32}

theorem span_of_isTile {size x : Float32} {k : ℕ} (h : IsExact 1 n low.toInt high.toInt)
    (hn : 1 ≤ n) (hsize : Denotes size n) (hx : IsTile n low.toInt high.toInt x k) :
    Coverage.span size x = Int.range (low.toInt + k * n) (low.toInt + k * n + n) := by
  have hcast : (low.toInt : ℚ) + k * n = ((low.toInt + k * n : ℤ) : ℚ) := by push_cast; rfl
  have hoffset : 0 ≤ k * n := by positivity
  obtain ⟨hhigh, hmiddle⟩ := hx
  rw [hcast] at hhigh hmiddle
  have hlow : (low.toInt : ℚ) ≤ ((low.toInt + k * n : ℤ) : ℚ) := by
    exact_mod_cast Int.le_add_of_nonneg_right hoffset
  rw [Coverage.span_eq h hsize (OnGrid.ofInt _) hlow hhigh hmiddle, Int.floor_intCast,
    ← Int.cast_add, Int.ceil_intCast]

theorem mem_span_iff_of_isTile {size x : Float32} {k : ℕ} {a : ℤ}
    (h : IsExact 1 n low.toInt high.toInt) (hn : 1 ≤ n) (hsize : Denotes size n)
    (hx : IsTile n low.toInt high.toInt x k) :
    a ∈ Coverage.span size x ↔ (a - low.toInt) / n = k := by
  have hbelow : (k : ℤ) ≤ (a - low.toInt) / n ↔ k * n ≤ a - low.toInt :=
    Int.le_ediv_iff_mul_le (by omega)
  have habove : (a - low.toInt) / n < k + 1 ↔ a - low.toInt < (k + 1) * n :=
    Int.ediv_lt_iff_lt_mul (by omega)
  rw [span_of_isTile h hn hsize hx, Int.mem_range_iff]
  rw [add_one_mul] at habove
  omega

theorem exists_filter_axis {size : Float32} {a : ℤ} (h : IsExact 1 n low.toInt high.toInt)
    (hn : 1 ≤ n) (hsize : Denotes size n) (hlow : low.toInt ≤ a) (hhigh : a ≤ high.toInt) :
    ∃ x, (axis size low high).filter (a ∈ Coverage.span size ·) = [x] ∧
      (Coverage.span size x).Nodup := by
  obtain ⟨count, htiles, hcount⟩ := forall₂_axis h (hlow.trans hhigh) hsize
  obtain ⟨place, hplace⟩ : ∃ k : ℕ, (a - low.toInt) / n = k :=
    Int.eq_ofNat_of_zero_le (Int.ediv_nonneg (by omega) (by omega))
  have hinside : place < count := by
    have hle : place * n ≤ a - low.toInt := (Int.le_ediv_iff_mul_le (by omega)).1 hplace.ge
    refine hcount place ?_
    exact_mod_cast (by omega : low.toInt + place * n ≤ high.toInt)
  have hscans {x : Float32} {k : ℕ} (hx : IsTile n low.toInt high.toInt x k) :
      a ∈ Coverage.span size x ↔ k = place := by
    rw [mem_span_iff_of_isTile h hn hsize hx, hplace, Nat.cast_inj, eq_comm]
  have hfilter : (List.range count).filter (· = place) = [place] := by
    rw [List.filter_eq, List.count_eq_one_of_mem List.nodup_range (List.mem_range.2 hinside)]
    rfl
  -- the filtered tiles correspond to the filtered numbers, of which one is left
  have hone := List.rel_filter (p := (a ∈ Coverage.span size ·)) (q := (· = place))
    (fun x k hx => by simpa using hscans hx) htiles
  rw [hfilter] at hone
  obtain ⟨x, rest, hx, hrest, heq⟩ := List.forall₂_cons_right_iff.1 hone
  obtain rfl := List.forall₂_nil_right_iff.1 hrest
  refine ⟨x, heq, ?_⟩
  rw [span_of_isTile h hn hsize hx]
  exact Coverage.nodup_range _ _

variable {size cellSize : Float32} {range : World.Range}

theorem exists_filter_mem_cells {a b : ℤ} (hx : IsExact 1 n range.minX.toInt range.maxX.toInt)
    (hy : IsExact 1 n range.minY.toInt range.maxY.toInt) (hn : 1 ≤ n) (hsize : Denotes size n)
    (hab : range.Contains a b) :
    ∃ r, (requests size range cellSize).filter (fun r => (a, b) ∈ r.cells) = [r] ∧
      r.cells.count (a, b) = 1 := by
  obtain ⟨x, hcolumn, hnodupx⟩ := exists_filter_axis hx hn hsize hab.1.1 hab.1.2
  obtain ⟨y, hrow, hnodupy⟩ := exists_filter_axis hy hn hsize hab.2.1 hab.2.2
  have hfilter := filter_mem_cells size cellSize range a b
  rw [hcolumn, hrow, List.flatMap_singleton, List.map_singleton] at hfilter
  refine ⟨request size cellSize x y, hfilter, ?_⟩
  have hmem : request size cellSize x y ∈ [request size cellSize x y] := List.mem_singleton_self _
  rw [← hfilter, List.mem_filter, decide_eq_true_iff] at hmem
  exact List.count_eq_one_of_mem (Coverage.nodup_cells hnodupx hnodupy) hmem.2

end Tiling

namespace Scan

variable {disabled : DisabledSet} {far : Bool} {m : RefNum} {w : World} {x y : Int32}

theorem getLast?_flatMap_of_alone {α β : Type} [DecidableEq α] {f : α → List β} {a : α} {l : List α}
    (hother : ∀ b ∈ l, b ≠ a → f b = []) :
    (l.flatMap f).getLast? = if a ∈ l then (f a).getLast? else none := by
  induction l with
  | nil => rfl
  | cons b l ih =>
    rw [List.flatMap_cons, List.getLast?_append,
      ih fun c hc => hother c (List.mem_cons_of_mem b hc)]
    by_cases hb : b = a
    · subst hb
      by_cases hl : b ∈ l <;> simp [hl]
    · rw [hother b List.mem_cons_self hb]
      simp [List.mem_cons, Ne.symm hb]

/-- A number that one cell alone mentions is found when that cell is scanned and its last event
there is an insertion. -/
theorem getElem?_run_eq_some_iff_of_alone (halone : ∀ c ∈ w.cells, c.Mentions m → c.x = x ∧ c.y = y)
    {size : Float32} {center : Vec2 Float32} {e : Reference} :
    (run disabled far w.store size center).refs[m]? = some e ↔
      (x.toInt, y.toInt) ∈ Coverage.cells size center ∧
        (eventsAt disabled far m w.store (x.toInt, y.toInt)).getLast? = some (.insert e) := by
  have hother : ∀ p ∈ Coverage.cells size center, p ≠ (x.toInt, y.toInt) →
      eventsAt disabled far m w.store p = [] := by
    rintro ⟨a, b⟩ hp hne
    refine List.eq_nil_iff_forall_not_mem.2 fun event hevent => hne ?_
    obtain ⟨c, hc, hx, hy, hmentions⟩ := exists_mentions_of_event_mem hevent
    obtain ⟨rfl, rfl⟩ := halone c hc hmentions
    rw [Coverage.mem_cells] at hp
    rw [hx, hy, Coverage.toInt_ofInt_of_mem_span hp.1, Coverage.toInt_ofInt_of_mem_span hp.2]
  rw [getElem?_run, settle_eq_some_iff, events, getLast?_flatMap_of_alone hother]
  split <;> simp [*]

end Scan

section Alone

variable {disabled : DisabledSet} {far : Bool} {m : RefNum} {w : World} {x y : Int32}

theorem Request.collects_iff_of_alone (halone : ∀ c ∈ w.cells, c.Mentions m → c.x = x ∧ c.y = y)
    {r : Request} : r.collects disabled far w.store m = true ↔ (x.toInt, y.toInt) ∈ r.cells ∧
      ∃ e, (Scan.eventsAt disabled far m w.store (x.toInt, y.toInt)).getLast? =
        some (.insert e) := by
  rw [collects, Std.ExtTreeMap.contains_eq_isSome_getElem?, Option.isSome_iff_exists]
  simp only [Scan.getElem?_run_eq_some_iff_of_alone halone, exists_and_left, cells]

theorem World.contains_of_alone (halone : ∀ c ∈ w.cells, c.Mentions m → c.x = x ∧ c.y = y)
    {range : Range} (hrange : w.range? = some range) {e : Scan.Event}
    (he : e ∈ Scan.eventsAt disabled far m w.store (x.toInt, y.toInt)) :
    range.Contains x.toInt y.toInt := by
  obtain ⟨c, hc, -, -, hmentions⟩ := Scan.exists_mentions_of_event_mem he
  obtain ⟨rfl, rfl⟩ := halone c hc hmentions
  exact contains_of_mem hrange hc

end Alone

/-- Chunks whose size is a whole number of cells tile a world: each cell of its range is scanned for
one of them and once. A number that one cell alone mentions is found for one chunk at most, and for
one if its last event in that cell is an insertion. -/
theorem World.requests_partition (w : World) {range : World.Range} (hrange : w.range? = some range)
    {n : ℤ} (hn : 1 ≤ n)
    (hroom : ∀ c ∈ [range.minX, range.maxX, range.minY, range.maxY],
      2 * |c.toInt| + 3 * n < 2 ^ 24) (cellSize : Float32) :
    let requests := Tiling.requests (Single.ofInt n) range cellSize
    (∀ a b, range.Contains a b → ∃ r, requests.filter (fun r => (a, b) ∈ r.cells) = [r] ∧
      r.cells.count (a, b) = 1) ∧
    ∀ disabled far m x y, (∀ c ∈ w.cells, c.Mentions m → c.x = x ∧ c.y = y) →
      (requests.filter (·.collects disabled far w.store m)).length ≤ 1 ∧
      ∀ e, (Scan.eventsAt disabled far m w.store (x.toInt, y.toInt)).getLast? = some (.insert e) →
        ∃ r, requests.filter (·.collects disabled far w.store m) = [r] ∧
          (Scan.run disabled far w.store r.view.size r.view.center).refs[m]? = some e := by
  intro requests
  simp only [List.forall_mem_cons] at hroom
  obtain ⟨hminX, hmaxX, hminY, hmaxY, -⟩ := hroom
  have habs := abs_nonneg range.minX.toInt
  have hsize : Denotes (Single.ofInt n) n := Denotes.ofInt (by omega)
  have hscanned (a b : ℤ) (hab : range.Contains a b) :
      ∃ r, requests.filter (fun r => (a, b) ∈ r.cells) = [r] ∧ r.cells.count (a, b) = 1 :=
    Tiling.exists_filter_mem_cells (.ofWhole hn hminX hmaxX) (.ofWhole hn hminY hmaxY) hn hsize hab
  refine ⟨hscanned, ?_⟩
  intro disabled far m x y halone
  by_cases hlast : ∃ e,
      (Scan.eventsAt disabled far m w.store (x.toInt, y.toInt)).getLast? = some (.insert e)
  · obtain ⟨event, hevent⟩ := hlast
    obtain ⟨r, hr, -⟩ :=
      hscanned _ _ (contains_of_alone halone hrange (List.mem_of_getLast? hevent))
    have hone : requests.filter (·.collects disabled far w.store m) = [r] := by
      rw [← hr]
      refine List.filter_congr fun r _ => ?_
      rw [Bool.eq_iff_iff, Request.collects_iff_of_alone halone, decide_eq_true_iff,
        and_iff_left ⟨event, hevent⟩]
    refine ⟨by rw [hone, List.length_singleton], fun e he => ⟨r, hone, ?_⟩⟩
    have hmem : r ∈ requests.filter fun r => (x.toInt, y.toInt) ∈ r.cells := by simp [hr]
    have hcell := of_decide_eq_true (List.mem_filter.1 hmem).2
    exact (Scan.getElem?_run_eq_some_iff_of_alone halone).2 ⟨hcell, he⟩
  · have hnone : requests.filter (·.collects disabled far w.store m) = [] :=
      List.filter_eq_nil_iff.2 fun r _ hr =>
        hlast ((Request.collects_iff_of_alone halone).1 hr).2
    exact ⟨by simp [hnone], fun e he => absurd ⟨e, he⟩ hlast⟩

/-- A bollard that one content file places, the next one takes away, and a lease brings back. -/
def bollard : Reference := .new ⟨0, 7⟩ .static "bollard" ⟨12000, 9000, 0⟩

def harbor : World :=
  ⟨[.new (-1) 0, (Cell.new 1 1).pushContext [bollard] |>.pushContext [bollard.asDeleted]
    |>.lease bollard], ∅⟩

theorem harbor_requests_partition :
    let requests := Tiling.requests (Single.ofInt 2) ⟨-1, 0, 1, 1⟩ 8192
    harbor.range? = some ⟨-1, 0, 1, 1⟩ ∧
      (∀ c ∈ harbor.cells, c.Mentions bollard.number → c.x = 1 ∧ c.y = 1) ∧
      (∃ r, requests.filter (fun r => (0, 1) ∈ r.cells) = [r] ∧ r.cells.count (0, 1) = 1) ∧
      ∃ r, requests.filter (·.collects .empty true harbor.store bollard.number) = [r] ∧
        (Scan.run .empty true harbor.store r.view.size r.view.center).refs[bollard.number]? =
          some bollard := by
  intro requests
  have hrange : harbor.range? = some ⟨-1, 0, 1, 1⟩ := by decide
  have halone : ∀ c ∈ harbor.cells, c.Mentions bollard.number → c.x = 1 ∧ c.y = 1 := by
    simp [harbor, Cell.Mentions, Cell.new, Cell.pushContext, Cell.lease]
  have hlast : (Scan.eventsAt .empty true bollard.number harbor.store
      ((1 : Int32).toInt, (1 : Int32).toInt)).getLast? = some (.insert bollard) := by
    have hfind : harbor.find? 1 1 = some ⟨1⟩ := by decide
    have hleased : harbor.leasedRefs ⟨1⟩ = [bollard] := rfl
    have henabled : DisabledSet.empty.contains bollard.number = false := by decide
    have hevent : Scan.leasedEvent? .empty true bollard.number bollard =
        some (.insert bollard) := by
      rw [Scan.leasedEvent?, henabled]
      rfl
    simp [Scan.eventsAt, Scan.cellEvents, World.store, hfind, hleased, hevent]
  have hroom : ∀ c ∈ [(-1 : Int32), 1, 0, 1], 2 * |c.toInt| + 3 * 2 < 2 ^ 24 := by
    have htoInt : (-1 : Int32).toInt = -1 ∧ (1 : Int32).toInt = 1 ∧ (0 : Int32).toInt = 0 := by
      decide
    norm_num [htoInt]
  have hcell : World.Range.Contains ⟨-1, 0, 1, 1⟩ 0 1 := by simp [World.Range.Contains]
  obtain ⟨hscanned, hcollected⟩ := harbor.requests_partition hrange one_le_two hroom 8192
  exact ⟨hrange, halone, hscanned 0 1 hcell, (hcollected .empty true _ 1 1 halone).2 bollard hlast⟩

end DistantChunks
