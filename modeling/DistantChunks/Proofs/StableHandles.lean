import DistantChunks.Proofs.CoincidingCells
import DistantChunks.Proofs.IndexedWorlds

/-!
# Handles to cells

Collectors keep handles while a world is edited. Cells are only ever added behind the others or
changed in their places, so a handle goes on to denote its cell, with what has been pushed to it
since, and an edit at some coordinates shows nowhere else. `IsReached.handles_stay` says this of
every world that is made by edits, together with what its index and its range say of the cells.
-/

namespace DistantChunks

theorem Cell.editAll_append (es fs : List Edit) (c : Cell) :
    editAll (es ++ fs) c = editAll fs (editAll es c) := List.foldl_append

/-- What is read through a handle is what the cell has. -/
structure Cell.IsReadThrough (c : Cell) (w : World) (h : CellHandle) : Prop where
  contextCount : w.contextCount h = c.contexts.length
  intact : ∀ i context, c.contexts[i]? = some context → context.corrupt = false →
    w.readContext h i = .ok context.refs
  corrupt : ∀ i context, c.contexts[i]? = some context → context.corrupt = true →
    w.readContext h i = .error (.cellRead c.x.toInt c.y.toInt i "context data is corrupt")
  missing : ∀ i, c.contexts[i]? = none →
    w.readContext h i = .error (.cellRead c.x.toInt c.y.toInt i "no such context")
  moved : w.movedRefs h = c.moved
  leased : w.leasedRefs h = c.leased

namespace World

/-- A range that every cell lies in and that no smaller one could replace. -/
structure Range.IsTight (r : Range) (cells : List Cell) : Prop where
  contains : ∀ c ∈ cells, r.Contains c.x.toInt c.y.toInt
  minX : ∃ c ∈ cells, c.x = r.minX
  minY : ∃ c ∈ cells, c.y = r.minY
  maxX : ∃ c ∈ cells, c.x = r.maxX
  maxY : ∃ c ∈ cells, c.y = r.maxY

section Range

variable {cells : List Cell} {a : Int32} (g : Cell → Int32) (d : Cell)

theorem exists_eq_lesser (h : ∃ c ∈ cells, g c = a) : ∃ c ∈ cells ++ [d], g c = lesser a (g d) := by
  obtain ⟨c, hc, rfl⟩ := h
  rw [lesser]
  split
  · exact ⟨c, List.mem_append_left _ hc, rfl⟩
  · exact ⟨d, List.mem_append_right _ (List.mem_singleton_self d), rfl⟩

theorem exists_eq_greater (h : ∃ c ∈ cells, g c = a) :
    ∃ c ∈ cells ++ [d], g c = greater a (g d) := by
  obtain ⟨c, hc, rfl⟩ := h
  rw [greater]
  split
  · exact ⟨d, List.mem_append_right _ (List.mem_singleton_self d), rfl⟩
  · exact ⟨c, List.mem_append_left _ hc, rfl⟩

variable {d} {r : Range}

theorem Range.IsTight.include (h : r.IsTight cells) : (r.include d).IsTight (cells ++ [d]) where
  contains c hc := by
    rcases List.mem_append.1 hc with hc | hc
    · exact (h.contains c hc).include
    · rw [List.mem_singleton.1 hc]
      exact Range.contains_include
  minX := exists_eq_lesser Cell.x d h.minX
  minY := exists_eq_lesser Cell.y d h.minY
  maxX := exists_eq_greater Cell.x d h.maxX
  maxY := exists_eq_greater Cell.y d h.maxY

theorem Range.IsTight.foldl_include (h : r.IsTight cells) (cs : List Cell) :
    (cs.foldl Range.include r).IsTight (cells ++ cs) := by
  induction cs generalizing r cells with
  | nil => rwa [List.append_nil]
  | cons c cs ih => simpa using ih (h.include (d := c))

end Range

variable {w : World} {x y x' y' : Int32} {f : Cell → Cell} {h : CellHandle} {c : Cell}

theorem range?_eq_none_iff : w.range? = none ↔ w.cells = [] := by
  rw [range?]
  cases w.cells with
  | nil => simp
  | cons c cs => simp

theorem isTight_of_range? {r : Range} (hrange : w.range? = some r) : r.IsTight w.cells := by
  rw [range?] at hrange
  cases hcells : w.cells with
  | nil => simp [hcells] at hrange
  | cons c cs =>
    rw [hcells, Option.some.injEq] at hrange
    subst hrange
    have hc := List.mem_singleton_self c
    have hfirst : Range.IsTight ⟨c.x, c.y, c.x, c.y⟩ [c] :=
      ⟨fun d hd => by simp [List.mem_singleton.1 hd, Range.Contains],
        ⟨c, hc, rfl⟩, ⟨c, hc, rfl⟩, ⟨c, hc, rfl⟩, ⟨c, hc, rfl⟩⟩
    exact hfirst.foldl_include cs

theorem isReadThrough_of_cell? (hcell : w.cell? h = some c) : c.IsReadThrough w h where
  contextCount := by simp only [contextCount, hcell]
  intact i context hi hintact := by simp [readContext, hcell, hi, hintact]
  corrupt i context hi hcorrupt := by simp [readContext, hcell, hi, hcorrupt]
  missing i hi := by simp only [readContext, hcell, hi]
  moved := by simp [movedRefs, hcell]
  leased := by simp [leasedRefs, hcell]

theorem exists_find?_iff : (∃ h, w.find? x y = some h) ↔ ∃ c ∈ w.cells, c.x = x ∧ c.y = y := by
  constructor
  · rintro ⟨h, hfind⟩
    obtain ⟨c, hc, -, hat⟩ := cell?_of_find? hfind
    exact ⟨c, hc, hat⟩
  · rintro ⟨c, hc, rfl, rfl⟩
    obtain ⟨d, h, hlast, -⟩ := exists_isLastAt hc
    exact ⟨h, find?_of_isLastAt hlast⟩

theorem find?_eq_some_iff : w.find? x y = some h ↔ h.IsLastAt w.cells x y := by
  refine ⟨fun hfind => ?_, find?_of_isLastAt⟩
  obtain ⟨c, hc, rfl, rfl⟩ := exists_find?_iff.1 ⟨h, hfind⟩
  obtain ⟨d, k, hk, -⟩ := exists_isLastAt hc
  rwa [Option.some.inj (hfind.symm.trans (find?_of_isLastAt hk))]

/-! ### What an edit at some coordinates does -/

theorem isAt_new_of_ne (hne : (x', y') ≠ (x, y)) : (Cell.new x y).isAt x' y' = false := by
  refine Bool.eq_false_iff.2 fun hat => hne ?_
  rw [Cell.isAt, Bool.and_eq_true, beq_iff_eq, beq_iff_eq] at hat
  exact Prod.ext hat.1.symm hat.2.symm

theorem cell?_update_of_find? (hfind : w.find? x y = some h) (hcell : w.cell? h = some c) :
    (w.update x y f).cell? h = some (f c) := by
  rw [cell?] at hcell
  simp [update, hfind, cell?, hcell]

theorem cell?_update_of_isAt_eq_false (hcell : w.cell? h = some c) (hc : c.isAt x y = false) :
    (w.update x y f).cell? h = some c := by
  rw [cell?] at hcell
  rw [update]
  split
  · next k hfind =>
    obtain ⟨d, -, hd, rfl, rfl⟩ := cell?_of_find? hfind
    have hne : k.index ≠ h.index := by
      intro heq
      rw [cell?, heq, hcell, Option.some.injEq] at hd
      subst hd
      simp [Cell.isAt] at hc
    rw [cell?, List.getElem?_modify_ne f w.cells hne, hcell]
  · rw [cell?, List.getElem?_append_left (List.getElem?_eq_some_iff.1 hcell).1, hcell]

variable (hf : ∀ c, (f c).x = c.x ∧ (f c).y = c.y)
include hf

theorem isAt_apply (c : Cell) : (f c).isAt x y = c.isAt x y := by
  rw [Cell.isAt, Cell.isAt, (hf c).1, (hf c).2]

theorem find?_update_of_ne (hne : (x', y') ≠ (x, y)) :
    (w.update x y f).find? x' y' = w.find? x' y' := by
  rw [update]
  split
  · rw [find?, find?, lastIndex?_modify fun c => isAt_apply hf c]
  · have hnew : (f (Cell.new x y)).isAt x' y' = false :=
      (isAt_apply hf _).trans (isAt_new_of_ne hne)
    rw [find?, find?, lastIndex?_concat, hnew]
    rfl

theorem find?_update_of_find? (hfind : w.find? x y = some h) :
    (w.update x y f).find? x y = some h := by
  rw [update, hfind, find?, lastIndex?_modify fun c => isAt_apply hf c, ← find?, hfind]

theorem nodup_update (hnodup : (w.cells.map fun c => (c.x, c.y)).Nodup) :
    ((w.update x y f).cells.map fun c => (c.x, c.y)).Nodup := by
  rw [update]
  split
  · next h _ =>
    have hmap : (w.cells.modify h.index f).map (fun c => (c.x, c.y)) =
        w.cells.map fun c => (c.x, c.y) := by
      refine List.ext_getElem? fun i => ?_
      rw [List.getElem?_map, List.getElem?_map, List.getElem?_modify]
      cases w.cells[i]? with
      | none => rfl
      | some c => by_cases hi : h.index = i <;> simp [hi, (hf c).1, (hf c).2]
    rwa [hmap]
  · next hnone =>
    have hnew : (x, y) ∉ w.cells.map fun c => (c.x, c.y) := by
      intro hmem
      obtain ⟨c, hc, hat⟩ := List.mem_map.1 hmem
      obtain ⟨hx, hy⟩ := Prod.mk.inj hat
      obtain ⟨h, hfind⟩ := exists_find?_iff.2 ⟨c, hc, hx, hy⟩
      rw [hnone] at hfind
      cases hfind
    rw [List.map_append, List.map_singleton, (hf _).1, (hf _).2]
    exact List.nodup_append_comm.1 (List.nodup_cons.2 ⟨hnew, hnodup⟩)

end World

namespace IndexedWorld

variable {s : IndexedWorld} {x y : Int32} {h : CellHandle} {c : Cell}

def find? (s : IndexedWorld) (x y : Int32) : Option CellHandle :=
  (s.index x y).map CellHandle.mk

def run (s : IndexedWorld) (edits : List Edit) : IndexedWorld := edits.foldl edit s

/-- What an edit pushes to the cell at some coordinates. -/
def Edit.pushesAt (x y : Int32) : Edit → List Cell.Edit
  | .addModel _ _ _ => []
  | .cell x' y' pushes => if (x', y') = (x, y) then pushes else []

theorem IsReached.run (hs : s.IsReached) (edits : List Edit) : (s.run edits).IsReached := by
  induction edits generalizing s with
  | nil => exact hs
  | cons e edits ih => exact ih (hs.edit e)

/-- A handle that has been found is found again after an edit, and its cell has got what was pushed
to it. -/
theorem IsReached.edit_keeps (hs : s.IsReached) (hfind : s.find? x y = some h)
    (hcell : s.world.cell? h = some c) (e : Edit) :
    (s.edit e).find? x y = some h ∧
      (s.edit e).world.cell? h = some (c.editAll (e.pushesAt x y)) := by
  rw [find?, ← (hs.edit e).find?_eq]
  rw [find?, ← hs.find?_eq] at hfind
  cases e with
  | addModel id kind model => exact ⟨hfind, hcell⟩
  | cell x' y' pushes =>
    have hpushes := Cell.editAll_position pushes
    rw [IndexedWorld.edit, hs.update_world, Edit.pushesAt]
    by_cases heq : (x', y') = (x, y)
    · obtain ⟨rfl, rfl⟩ := Prod.mk.inj heq
      rw [if_pos rfl]
      exact ⟨World.find?_update_of_find? hpushes hfind, World.cell?_update_of_find? hfind hcell⟩
    · rw [if_neg heq]
      obtain ⟨d, -, hd, rfl, rfl⟩ := World.cell?_of_find? hfind
      obtain rfl : d = c := Option.some.inj (hd.symm.trans hcell)
      refine ⟨(World.find?_update_of_ne hpushes (Ne.symm heq)).trans hfind, ?_⟩
      refine World.cell?_update_of_isAt_eq_false hcell (Bool.eq_false_iff.2 fun hat => heq ?_)
      rw [Cell.isAt, Bool.and_eq_true, beq_iff_eq, beq_iff_eq] at hat
      exact Prod.ext hat.1.symm hat.2.symm

theorem IsReached.run_keeps (hs : s.IsReached) (hfind : s.find? x y = some h)
    (hcell : s.world.cell? h = some c) (edits : List Edit) :
    (s.run edits).find? x y = some h ∧
      (s.run edits).world.cell? h = some (c.editAll (edits.flatMap (Edit.pushesAt x y))) := by
  induction edits generalizing s c with
  | nil => exact ⟨hfind, hcell⟩
  | cons e edits ih =>
    obtain ⟨hfind', hcell'⟩ := hs.edit_keeps hfind hcell e
    have hrest := ih (hs.edit e) hfind' hcell'
    rwa [← Cell.editAll_append, ← List.flatMap_cons] at hrest

theorem nodup_run (edits : List Edit) :
    ((empty.run edits).world.cells.map fun c => (c.x, c.y)).Nodup := by
  induction edits using List.reverseRecOn with
  | nil => exact List.nodup_nil
  | append_singleton edits e ih =>
    rw [run, List.foldl_concat, ← run]
    cases e with
    | addModel id kind model => exact ih
    | cell x y pushes =>
      rw [edit, (IsReached.empty.run edits).update_world]
      exact World.nodup_update (Cell.editAll_position pushes) ih

/-- The index and the range of a world are those of its cells. -/
structure IsTrue (s : IndexedWorld) : Prop where
  search : ∀ x y, s.find? x y = s.world.find? x y
  found_iff : ∀ x y, (∃ h, s.find? x y = some h) ↔ ∃ c ∈ s.world.cells, c.x = x ∧ c.y = y
  last : ∀ x y h, s.find? x y = some h → h.IsLastAt s.world.cells x y ∧
    ∃ c, s.world.cells[h.index]? = some c ∧ c.IsReadThrough s.world h
  range_none : s.world.range? = none ↔ s.world.cells = []
  range_tight : ∀ r, s.world.range? = some r → r.IsTight s.world.cells

theorem IsReached.isTrue (hs : s.IsReached) : s.IsTrue := by
  have hsearch (x y : Int32) : s.find? x y = s.world.find? x y := (hs.find?_eq x y).symm
  refine ⟨hsearch, fun x y => ?_, fun x y h hfind => ?_, World.range?_eq_none_iff, fun r =>
    World.isTight_of_range?⟩
  · rw [hsearch]
    exact World.exists_find?_iff
  · rw [hsearch] at hfind
    obtain ⟨c, -, hcell, -⟩ := World.cell?_of_find? hfind
    exact ⟨World.find?_eq_some_iff.1 hfind, c, hcell, World.isReadThrough_of_cell? hcell⟩

/-- In every world made by edits the index and the range are true to the cells. A handle that is
found there denotes the same cell after any further edits, with what was pushed to it since, and is
found again. Going to a cell and pushing to it shows at no other coordinates. Worlds made from the
empty one have their cells at different coordinates. -/
theorem IsReached.handles_stay (hs : s.IsReached) :
    s.IsTrue ∧
      (∀ x y h, s.find? x y = some h → ∃ c : Cell, s.world.cell? h = some c ∧
        ∀ edits : List Edit, let c' := c.editAll (edits.flatMap (Edit.pushesAt x y))
          (s.run edits).find? x y = some h ∧ c'.isAt x y = true ∧
            c'.IsReadThrough (s.run edits).world h) ∧
      (∀ x y pushes, let after := s.edit (.cell x y pushes)
        after.world = s.world.update x y (Cell.editAll pushes) ∧
          (∀ x' y', (x', y') ≠ (x, y) → after.find? x' y' = s.find? x' y') ∧
          ∀ (h : CellHandle) (c : Cell), s.world.cell? h = some c → c.isAt x y = false →
            c.IsReadThrough s.world h ∧ c.IsReadThrough after.world h) ∧
      ∀ edits : List Edit, let made := IndexedWorld.empty.run edits
        (made.world.cells.map fun c => (c.x, c.y)).Nodup := by
  refine ⟨hs.isTrue, fun x y h hfind => ?_, fun x y pushes => ⟨hs.update_world x y _,
    fun x' y' hne => ?_, fun h c hcell hc => ⟨World.isReadThrough_of_cell? hcell, ?_⟩⟩, nodup_run⟩
  · obtain ⟨c, -, hcell, rfl, rfl⟩ := World.cell?_of_find? ((hs.find?_eq x y).trans hfind)
    refine ⟨c, hcell, fun edits => ?_⟩
    obtain ⟨hagain, hkept⟩ := hs.run_keeps hfind hcell edits
    refine ⟨hagain, ?_, World.isReadThrough_of_cell? hkept⟩
    rw [World.isAt_apply (Cell.editAll_position _)]
    simp [Cell.isAt]
  · rw [(hs.edit _).isTrue.search, hs.isTrue.search, IndexedWorld.edit, hs.update_world]
    exact World.find?_update_of_ne (Cell.editAll_position pushes) hne
  · rw [IndexedWorld.edit, hs.update_world]
    exact World.isReadThrough_of_cell? (World.cell?_update_of_isAt_eq_false hcell hc)

/-- A loaded meadow has two entries for one cell. The handle of the second one goes on to denote it
while that cell gets a lease and another cell is added. -/
def pasture : IndexedWorld := .rebuild World.meadow

theorem pasture_handles_stay :
    let edits := [Edit.cell 0 5 [.pushCorruptContext], .cell 2 (-1) [.lease World.well]]
    pasture.IsReached ∧ pasture.find? 2 (-1) = some ⟨1⟩ ∧
      (pasture.run edits).find? 2 (-1) = some ⟨1⟩ ∧
      (pasture.run edits).world.leasedRefs ⟨1⟩ = [World.well] := by
  intro edits
  have hload : World.load World.meadow.save = .ok World.meadow :=
    World.load_save_of_wells (by
      simp [World.references, Cell.references, Cell.new, Cell.pushContext])
  have hloaded : IndexedWorld.load World.meadow.save = .ok pasture := by
    rw [IndexedWorld.load, hload]
    rfl
  have hs : pasture.IsReached := .load hloaded
  have hfind : pasture.find? 2 (-1) = some ⟨1⟩ := by decide
  obtain ⟨-, hstay, -⟩ := hs.handles_stay
  obtain ⟨c, hcell, hrun⟩ := hstay 2 (-1) ⟨1⟩ hfind
  obtain ⟨hagain, -, hread⟩ := hrun edits
  refine ⟨hs, hfind, hagain, hread.leased.trans ?_⟩
  obtain rfl : Cell.new 2 (-1) = c := Option.some.inj hcell
  rfl

end IndexedWorld

end DistantChunks
