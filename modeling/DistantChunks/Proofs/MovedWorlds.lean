import DistantChunks.Proofs.ChunkContents

/-!
# Moved worlds

A world is moved by whole cells: the coordinates of its cells by their number, the positions of its
references by as many cell sizes. The entries of a number stay the same but for their positions, so
a scan of the moved cells finds the references of a scan of the old ones, each in its moved place.
-/

namespace DistantChunks

/-- A move by whole cells of some size. -/
structure Shift where
  x : Int32
  y : Int32
  cellSize : Float32

namespace Shift

def along (cellSize : Float32) (n : Int32) : Float32 := Single.ofInt n.toInt * cellSize

def offset (d : Shift) : Vec3 Float32 := ⟨along d.cellSize d.x, along d.cellSize d.y, 0⟩

def cell (d : Shift) (position : Int × Int) : Int × Int :=
  (position.1 + d.x.toInt, position.2 + d.y.toInt)

end Shift

variable (d : Shift)

def Reference.movedBy (r : Reference) : Reference := { r with position := r.position + d.offset }

def Context.movedBy (c : Context) : Context := { c with refs := c.refs.map (Reference.movedBy d) }

def Cell.movedBy (c : Cell) : Cell :=
  { c with
    x := c.x + d.x
    y := c.y + d.y
    contexts := c.contexts.map (Context.movedBy d)
    leased := c.leased.map (Reference.movedBy d) }

def World.movedBy (w : World) : World := { w with cells := w.cells.map (Cell.movedBy d) }

def ChunkView.movedBy (v : ChunkView) : ChunkView :=
  { v with
    center := v.center + ⟨Single.ofInt d.x.toInt, Single.ofInt d.y.toInt⟩
    eye := v.eye + d.offset }

theorem lastIndex?_map {α β : Type} (p : β → Bool) (f : α → β) (as : List α) :
    lastIndex? p (as.map f) = lastIndex? (fun a => p (f a)) as := by
  induction as with
  | nil => rfl
  | cons a as ih => rw [List.map_cons, lastIndex?, lastIndex?, ih]

namespace World

variable (w : World)

theorem find?_movedBy (x y : Int32) : (w.movedBy d).find? (x + d.x) (y + d.y) = w.find? x y := by
  have hat (c : Cell) : Cell.isAt (x + d.x) (y + d.y) (c.movedBy d) = c.isAt x y := by
    simp only [Cell.isAt, Cell.movedBy, beq_eq_decide, Int32.add_left_inj]
  simp only [find?, movedBy, lastIndex?_map, hat]

theorem cell?_movedBy (h : CellHandle) :
    (w.movedBy d).cell? h = (w.cell? h).map (Cell.movedBy d) := by
  rw [cell?, movedBy, List.getElem?_map, cell?]

theorem contextCount_movedBy (h : CellHandle) :
    (w.movedBy d).contextCount h = w.contextCount h := by
  rw [contextCount, cell?_movedBy, contextCount]
  cases w.cell? h with
  | none => rfl
  | some c => exact List.length_map _

theorem movedRefs_movedBy (h : CellHandle) : (w.movedBy d).movedRefs h = w.movedRefs h := by
  rw [movedRefs, cell?_movedBy, movedRefs, Option.map_map]
  rfl

theorem leasedRefs_movedBy (h : CellHandle) :
    (w.movedBy d).leasedRefs h = (w.leasedRefs h).map (Reference.movedBy d) := by
  rw [leasedRefs, cell?_movedBy, leasedRefs]
  cases w.cell? h <;> rfl

/-- The messages about contexts that cannot be read name the cell, which has other coordinates. -/
theorem toOption_readContext_movedBy (h : CellHandle) (context : Nat) :
    ((w.movedBy d).readContext h context).toOption =
      (w.readContext h context).toOption.map (List.map (Reference.movedBy d)) := by
  rw [readContext, cell?_movedBy, readContext]
  cases w.cell? h with
  | none => rfl
  | some c =>
    simp only [Option.map_some, Cell.movedBy, List.getElem?_map]
    cases c.contexts[context]? with
    | none => rfl
    | some data =>
      simp only [Option.map_some, Context.movedBy]
      split <;> rfl

end World

namespace Scan

def Event.movedBy : Event → Event
  | erase => erase
  | insert r => insert (r.movedBy d)

theorem settle_movedBy (known : Option Reference) (es : List Event) :
    settle (known.map (Reference.movedBy d)) (es.map (Event.movedBy d)) =
      (settle known es).map (Reference.movedBy d) := by
  rw [settle, settle, List.foldl_map]
  refine List.foldl_hom (Option.map (Reference.movedBy d)) fun _ e => ?_
  cases e <;> rfl

variable (disabled : DisabledSet) (far : Bool) (n : RefNum)

theorem entryEvent?_movedBy (moved : List RefNum) (r : Reference) :
    entryEvent? disabled far n moved (r.movedBy d) =
      (entryEvent? disabled far n moved r).map (Event.movedBy d) := by
  simp only [entryEvent?, Reference.movedBy, apply_ite (Option.map (Event.movedBy d))]
  rfl

theorem leasedEvent?_movedBy (r : Reference) :
    leasedEvent? disabled far n (r.movedBy d) =
      (leasedEvent? disabled far n r).map (Event.movedBy d) := by
  simp only [leasedEvent?, Reference.movedBy, apply_ite (Option.map (Event.movedBy d))]
  rfl

theorem contextEvents_eq (moved : List RefNum) (context : Except Failure (List Reference)) :
    contextEvents disabled far n moved context =
      (context.toOption.getD []).filterMap (entryEvent? disabled far n moved) := by
  cases context <;> rfl

variable (w : World)

theorem cellEvents_movedBy (h : CellHandle) :
    cellEvents disabled far n (w.movedBy d).store h =
      (cellEvents disabled far n w.store h).map (Event.movedBy d) := by
  have hcontext (context : Nat) :
      contextEvents disabled far n (w.movedRefs h) ((w.movedBy d).readContext h context) =
        (contextEvents disabled far n (w.movedRefs h) (w.readContext h context)).map
          (Event.movedBy d) := by
    rw [contextEvents_eq, contextEvents_eq, w.toOption_readContext_movedBy, List.map_filterMap]
    cases w.readContext h context with
    | error e => rfl
    | ok entries =>
      simp only [Except.toOption, Option.map_some, Option.getD_some, List.filterMap_map,
        Function.comp_def, entryEvent?_movedBy]
  have hleased : ((w.movedBy d).leasedRefs h).filterMap (leasedEvent? disabled far n) =
      ((w.leasedRefs h).filterMap (leasedEvent? disabled far n)).map (Event.movedBy d) := by
    rw [w.leasedRefs_movedBy, List.filterMap_map, List.map_filterMap]
    simp only [Function.comp_def, leasedEvent?_movedBy]
  simp only [cellEvents, World.store, w.contextCount_movedBy, w.movedRefs_movedBy, hleased,
    List.flatMap_map, hcontext, List.map_append, List.map_flatMap]

theorem eventsAt_movedBy (position : Int × Int) :
    eventsAt disabled far n (w.movedBy d).store (d.cell position) =
      (eventsAt disabled far n w.store position).map (Event.movedBy d) := by
  have hfind : (w.movedBy d).find? (Int32.ofInt (d.cell position).1)
      (Int32.ofInt (d.cell position).2) =
        w.find? (Int32.ofInt position.1) (Int32.ofInt position.2) := by
    rw [Shift.cell, Int32.ofInt_add, Int32.ofInt_add, Int32.ofInt_toInt, Int32.ofInt_toInt]
    exact w.find?_movedBy d _ _
  simp only [eventsAt, World.store, hfind]
  cases w.find? (Int32.ofInt position.1) (Int32.ofInt position.2) with
  | none => rfl
  | some h => exact cellEvents_movedBy d disabled far n w h

/-- A scan of moved cells finds the moved references. -/
theorem values_run_movedBy {size size' : Float32} {center center' : Vec2 Float32}
    (hcells : Coverage.cells size' center' = (Coverage.cells size center).map d.cell) :
    (run disabled far (w.movedBy d).store size' center').refs.values =
      (run disabled far w.store size center).refs.values.map (Reference.movedBy d) := by
  have hrefs : (run disabled far (w.movedBy d).store size' center').refs =
      (run disabled far w.store size center).refs.map fun _ r => r.movedBy d := by
    ext1 n
    rw [Std.ExtTreeMap.getElem?_map, getElem?_run, getElem?_run, events, events, hcells,
      List.flatMap_map]
    simp only [eventsAt_movedBy, ← List.map_flatMap]
    exact settle_movedBy d none _
  rw [hrefs, values_eq_map_toList, values_eq_map_toList, Std.ExtTreeMap.toList_map, List.map_map,
    List.map_map]
  rfl

end Scan

end DistantChunks
