import DistantChunks.Proofs.Overrides

/-!
# Cells and their range

A cell that is found stands in the world at the coordinates that were asked for, and every cell of
a world lies in its range. A number has events only at cells that mention it.
-/

namespace DistantChunks

theorem exists_of_lastIndex?_eq_some {α : Type} {p : α → Bool} {as : List α} {i : Nat}
    (h : lastIndex? p as = some i) : ∃ a, as[i]? = some a ∧ p a = true := by
  induction as generalizing i with
  | nil => cases h
  | cons a as ih =>
    rw [lastIndex?] at h
    cases hrest : lastIndex? p as with
    | some j =>
      rw [hrest] at h
      cases h
      exact ih hrest
    | none =>
      by_cases hp : p a = true
      · rw [hrest, if_pos hp] at h
        cases h
        exact ⟨a, rfl, hp⟩
      · rw [hrest, if_neg hp] at h
        cases h

/-- The cell has an entry of the number that can be read. -/
def Cell.Mentions (c : Cell) (n : RefNum) : Prop :=
  (∃ context ∈ c.contexts, context.corrupt = false ∧ ∃ r ∈ context.refs, r.number = n) ∨
    ∃ r ∈ c.leased, r.number = n

namespace World

theorem cell?_of_find? {w : World} {x y : Int32} {h : CellHandle} (hfind : w.find? x y = some h) :
    ∃ c ∈ w.cells, w.cell? h = some c ∧ c.x = x ∧ c.y = y := by
  obtain ⟨i, hi, rfl⟩ := Option.map_eq_some_iff.1 hfind
  obtain ⟨c, hc, hat⟩ := exists_of_lastIndex?_eq_some hi
  rw [Cell.isAt, Bool.and_eq_true, beq_iff_eq, beq_iff_eq] at hat
  exact ⟨c, List.mem_of_getElem? hc, hc, hat⟩

theorem toInt_lesser (a b : Int32) : (lesser a b).toInt = min a.toInt b.toInt := by
  rw [lesser]
  split
  all_goals
    next h =>
      rw [Int32.le_iff_toInt_le] at h
      omega

theorem toInt_greater (a b : Int32) : (greater a b).toInt = max a.toInt b.toInt := by
  rw [greater]
  split
  all_goals
    next h =>
      rw [Int32.le_iff_toInt_le] at h
      omega

namespace Range

/-- The coordinates lie between the bounds, which belong to the range. -/
def Contains (r : Range) (x y : Int) : Prop :=
  (r.minX.toInt ≤ x ∧ x ≤ r.maxX.toInt) ∧ r.minY.toInt ≤ y ∧ y ≤ r.maxY.toInt

variable {r : Range} {c : Cell} {x y : Int}

theorem Contains.include (h : r.Contains x y) : (r.include c).Contains x y := by
  simp only [Contains, Range.include, toInt_lesser, toInt_greater] at h ⊢
  omega

theorem contains_include : (r.include c).Contains c.x.toInt c.y.toInt := by
  simp only [Contains, Range.include, toInt_lesser, toInt_greater]
  omega

theorem Contains.foldl_include (h : r.Contains x y) (cs : List Cell) :
    (cs.foldl Range.include r).Contains x y := by
  induction cs generalizing r with
  | nil => exact h
  | cons c cs ih => exact ih h.include

theorem contains_foldl_include {cs : List Cell} (hc : c ∈ cs) :
    (cs.foldl Range.include r).Contains c.x.toInt c.y.toInt := by
  induction cs generalizing r with
  | nil => cases hc
  | cons d cs ih =>
    rcases List.mem_cons.1 hc with rfl | hc
    · exact contains_include.foldl_include cs
    · exact ih hc

end Range

theorem contains_of_mem {w : World} {range : Range} (hrange : w.range? = some range) {c : Cell}
    (hc : c ∈ w.cells) : range.Contains c.x.toInt c.y.toInt := by
  rw [range?] at hrange
  cases hcells : w.cells with
  | nil => simp [hcells] at hc
  | cons first rest =>
    rw [hcells, Option.some.injEq] at hrange
    subst hrange
    rcases List.mem_cons.1 (hcells ▸ hc) with rfl | hc
    · have hfirst : Range.Contains ⟨c.x, c.y, c.x, c.y⟩ c.x.toInt c.y.toInt :=
        ⟨⟨Int.le_refl _, Int.le_refl _⟩, Int.le_refl _, Int.le_refl _⟩
      exact hfirst.foldl_include rest
    · exact Range.contains_foldl_include hc

end World

namespace Scan

variable {disabled : DisabledSet} {far : Bool} {n : RefNum} {w : World}

theorem mentions_of_event_mem {h : CellHandle} {c : Cell} (hcell : w.cell? h = some c) {e : Event}
    (he : e ∈ cellEvents disabled far n w.store h) : c.Mentions n := by
  rcases List.mem_append.1 he with he | he
  · obtain ⟨context, hcontext, he⟩ := List.mem_flatMap.1 he
    obtain ⟨i, -, rfl⟩ := List.mem_map.1 hcontext
    simp only [World.store, World.readContext, hcell] at he
    split at he
    · cases he
    · next data hdata =>
      split at he
      · cases he
      · next hread =>
        obtain ⟨r, hr, hevent⟩ := List.mem_filterMap.1 he
        have hn : r.number = n := by grind [entryEvent?]
        exact .inl ⟨data, List.mem_of_getElem? hdata, by simpa using hread, r, hr, hn⟩
  · obtain ⟨r, hr, hevent⟩ := List.mem_filterMap.1 he
    simp only [World.store, World.leasedRefs, hcell] at hr
    have hn : r.number = n := by grind [leasedEvent?]
    exact .inr ⟨r, hr, hn⟩

theorem exists_mentions_of_event_mem {position : Int × Int} {e : Event}
    (he : e ∈ eventsAt disabled far n w.store position) :
    ∃ c ∈ w.cells, c.x = Int32.ofInt position.1 ∧ c.y = Int32.ofInt position.2 ∧ c.Mentions n := by
  rw [eventsAt] at he
  split at he
  · next h hfind =>
    obtain ⟨c, hc, hcell, hx, hy⟩ := World.cell?_of_find? hfind
    exact ⟨c, hc, hx, hy, mentions_of_event_mem hcell he⟩
  · cases he

end Scan

end DistantChunks
