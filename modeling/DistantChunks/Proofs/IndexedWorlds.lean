import DistantChunks.Proofs.SavedWorlds
import Mathlib.Data.List.Induction

/-!
# Worlds with an index

The cells of a world are found through an index by coordinates. Edits keep the index and loading
rebuilds it from the list of cells, in which the last of several cells at the same coordinates
stands. Both ways the index gives what a search of the list gives (`IsReached.index_eq`), so a
world that is saved and loaded comes back with its cells, its records and every handle
(`IsReached.load_save`).
-/

namespace DistantChunks

theorem lastIndex?_concat {α : Type} (p : α → Bool) (as : List α) (a : α) :
    lastIndex? p (as ++ [a]) = if p a then some as.length else lastIndex? p as := by
  induction as with
  | nil => rfl
  | cons b as ih =>
    rw [List.cons_append, lastIndex?, ih]
    by_cases ha : p a = true
    · rw [if_pos ha, if_pos ha, List.length_cons]
    · rw [if_neg ha, if_neg ha, lastIndex?]

theorem lastIndex?_modify {α : Type} {p : α → Bool} {f : α → α} (hf : ∀ a, p (f a) = p a)
    (as : List α) (i : Nat) : lastIndex? p (as.modify i f) = lastIndex? p as := by
  induction as generalizing i with
  | nil => cases i <;> rfl
  | cons a as ih =>
    cases i with
    | zero => simp [lastIndex?, hf]
    | succ i => simp [lastIndex?, ih]

/-- The list indices of the cells at given coordinates. -/
abbrev CellIndex := Int32 → Int32 → Option Nat

namespace CellIndex

def empty : CellIndex := fun _ _ => none

def insert (index : CellIndex) (x y : Int32) (i : Nat) : CellIndex := fun x' y' =>
  if x = x' ∧ y = y' then some i else index x' y'

/-- The index of a list of cells, where later cells replace earlier ones. -/
def ofCells (cells : List Cell) : CellIndex :=
  cells.zipIdx.foldl (fun index (c, i) => index.insert c.x c.y i) empty

theorem ofCells_concat (cells : List Cell) (c : Cell) :
    ofCells (cells ++ [c]) = (ofCells cells).insert c.x c.y cells.length := by
  rw [ofCells, List.zipIdx_append, List.foldl_append]
  simp [ofCells]

theorem ofCells_eq (cells : List Cell) (x y : Int32) :
    ofCells cells x y = lastIndex? (Cell.isAt x y) cells := by
  induction cells using List.reverseRecOn with
  | nil => rfl
  | append_singleton cells c ih =>
    rw [ofCells_concat, lastIndex?_concat, insert, ih]
    simp [Cell.isAt]

theorem ofCells_modify {f : Cell → Cell} (hf : ∀ c, (f c).x = c.x ∧ (f c).y = c.y)
    (cells : List Cell) (i : Nat) : ofCells (cells.modify i f) = ofCells cells := by
  funext x y
  rw [ofCells_eq, ofCells_eq]
  refine lastIndex?_modify (fun c => ?_) cells i
  rw [Cell.isAt, Cell.isAt, (hf c).1, (hf c).2]

end CellIndex

namespace Cell

inductive Edit where
  | pushContext (refs : List Reference)
  | pushCorruptContext
  | markMoved (n : RefNum)
  | lease (r : Reference)
  | leaseDelete (r : Reference)

def edit (c : Cell) : Edit → Cell
  | .pushContext refs => c.pushContext refs
  | .pushCorruptContext => c.pushCorruptContext
  | .markMoved n => c.markMoved n
  | .lease r => c.lease r
  | .leaseDelete r => c.leaseDelete r

def editAll (edits : List Edit) (c : Cell) : Cell := edits.foldl edit c

theorem editAll_position (edits : List Edit) (c : Cell) :
    (editAll edits c).x = c.x ∧ (editAll edits c).y = c.y := by
  induction edits generalizing c with
  | nil => exact ⟨rfl, rfl⟩
  | cons e edits ih =>
    obtain ⟨hx, hy⟩ := ih (c.edit e)
    rw [editAll, List.foldl_cons, ← editAll, hx, hy]
    cases e <;> exact ⟨rfl, rfl⟩

end Cell

structure IndexedWorld where
  world : World
  index : CellIndex

namespace IndexedWorld

def empty : IndexedWorld := ⟨World.empty, CellIndex.empty⟩

def rebuild (w : World) : IndexedWorld := ⟨w, .ofCells w.cells⟩

inductive Edit where
  | addModel (id : String) (kind : RecordKind) (model : String)
  | cell (x y : Int32) (edits : List Cell.Edit)

variable (s : IndexedWorld)

/-- Changes the cell that the index gives for the coordinates, which is added if there is none. -/
def update (x y : Int32) (f : Cell → Cell) : IndexedWorld :=
  match s.index x y with
  | some i => { s with world := { s.world with cells := s.world.cells.modify i f } }
  | none =>
    ⟨{ s.world with cells := s.world.cells ++ [f (Cell.new x y)] },
      s.index.insert x y s.world.cells.length⟩

def edit : Edit → IndexedWorld
  | .addModel id kind model => { s with world := s.world.addModel id kind model }
  | .cell x y edits => s.update x y (Cell.editAll edits)

def save : String := s.world.save

def load (text : String) : Except Failure IndexedWorld := (World.load text).map rebuild

/-- The worlds that are made by edits from the empty world or a loaded one. -/
inductive IsReached : IndexedWorld → Prop
  | empty : IsReached empty
  | load {text : String} {s : IndexedWorld} (h : load text = .ok s) : IsReached s
  | edit {s : IndexedWorld} (h : IsReached s) (e : Edit) : IsReached (s.edit e)

variable {s : IndexedWorld}

theorem load_eq_rebuild {text : String} (h : load text = .ok s) : s = rebuild s.world := by
  rw [load] at h
  cases hworld : World.load text with
  | error e =>
    rw [hworld] at h
    cases h
  | ok w =>
    rw [hworld] at h
    cases h
    rfl

theorem update_index {x y : Int32} {f : Cell → Cell} (hindex : s.index = .ofCells s.world.cells)
    (hf : ∀ c, (f c).x = c.x ∧ (f c).y = c.y) :
    (s.update x y f).index = .ofCells (s.update x y f).world.cells := by
  rw [update]
  split
  · rw [hindex, CellIndex.ofCells_modify hf]
  · rw [CellIndex.ofCells_concat, hindex, (hf _).1, (hf _).2]
    rfl

theorem IsReached.index_eq (h : s.IsReached) : s.index = .ofCells s.world.cells := by
  induction h with
  | empty => rfl
  | load h => rw [load_eq_rebuild h]; rfl
  | edit h e ih =>
    cases e with
    | addModel => exact ih
    | cell x y edits => exact update_index ih (Cell.editAll_position edits)

/-- The index gives the handles that the search of the list of cells gives. -/
theorem IsReached.find?_eq (h : s.IsReached) (x y : Int32) :
    s.world.find? x y = (s.index x y).map CellHandle.mk := by
  rw [h.index_eq, CellIndex.ofCells_eq]
  rfl

theorem IsReached.update_world (h : s.IsReached) (x y : Int32) (f : Cell → Cell) :
    (s.update x y f).world = s.world.update x y f := by
  rw [World.update, h.find?_eq, update]
  cases s.index x y <;> rfl

theorem IsReached.load_save (h : s.IsReached)
    (hids : ∀ r ∈ s.world.references, lowercase r.id = r.id)
    (hmodels : ∀ id ∈ s.world.models, lowercase id = id)
    (hfinite : ∀ r ∈ s.world.references, ∀ x ∈ r.numbers, x.isFinite = true)
    (hreread : ∀ r ∈ s.world.references, ∀ x ∈ r.numbers, x.isFinite = true → IsReread x) :
    IndexedWorld.load s.save = .ok s := by
  have hnumbers : ∀ r ∈ s.world.references, ∀ x ∈ r.numbers, IsReread x := fun r hr x hx =>
    hreread r hr x hx (hfinite r hr x hx)
  have hrebuild : rebuild s.world = s := by
    rw [rebuild, ← h.index_eq]
  rw [IndexedWorld.load, save, World.load_of_save hids hmodels hnumbers]
  exact congrArg Except.ok hrebuild

def stone : Reference :=
  ⟨⟨0, 9⟩, .static, "rock_01", ⟨-32768, 0.1, 1.5⟩, ⟨0, 0, 3.1415927⟩, 1.25, false⟩

/-- A damaged cell in which a stone was moved and deleted. -/
def quarry : IndexedWorld :=
  (empty.edit (.cell (-4) 7 [.pushContext [stone], .pushCorruptContext, .markMoved ⟨0, 9⟩,
    .leaseDelete stone])).edit (.addModel "rock_01" .static "rock.nif")

theorem quarry_load_save : IndexedWorld.load quarry.save = .ok quarry := by
  have hreached : quarry.IsReached := .edit (.edit .empty _) _
  have hreferences : quarry.world.references = [stone, stone.asDeleted] := rfl
  refine hreached.load_save ?_ ?_ ?_ ?_
  · rw [hreferences]
    decide
  · have hlowered : lowercase "rock_01" = "rock_01" := by decide
    intro id hid
    have hkey : id = "rock_01" := by
      rcases Std.ExtTreeMap.mem_insert.1 hid with heq | hnone
      · rw [← Std.LawfulEqCmp.compare_eq_iff_eq.1 heq, hlowered]
      · exact absurd hnone Std.ExtTreeMap.not_mem_empty
    rw [hkey, hlowered]
  · rw [hreferences]
    decide
  · have hstone : ∀ x ∈ stone.numbers, IsReread x := by decide +kernel
    rw [hreferences]
    rintro r hr x hx -
    -- Both entries have the numbers of the stone.
    rcases List.mem_cons.1 hr with rfl | hr
    · exact hstone x hx
    · rw [List.mem_singleton.1 hr] at hx
      exact hstone x hx

end IndexedWorld

end DistantChunks
