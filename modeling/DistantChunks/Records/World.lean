import Std.Data.ExtTreeMap.Basic
import Std.Data.ExtTreeMap.Lemmas
import DistantChunks.Records.Failure

/-!
# World records

A world is a list of cells and a table of object records. The references of a cell come in
contexts, one for each content file that touches the cell, so that a damaged context does not hide
the others; references leased at run time come after all of them. Two cells may have the same
coordinates, and then the last one is found.

`CellStore` is all that the rest of the library asks of a source of cells; `World.store` is the
world seen in this way.
-/

namespace DistantChunks

structure Context where
  refs : List Reference
  corrupt : Bool
  deriving DecidableEq, Repr

structure Cell where
  x : Int32
  y : Int32
  contexts : List Context
  /-- Numbers whose entries in the contexts of this cell are stale. -/
  moved : List RefNum
  leased : List Reference
  deriving DecidableEq, Repr

namespace Cell

def new (x y : Int32) : Cell := ⟨x, y, [], [], []⟩

def isAt (x y : Int32) (c : Cell) : Bool := c.x == x && c.y == y

def pushContext (refs : List Reference) (c : Cell) : Cell :=
  { c with contexts := c.contexts ++ [⟨refs, false⟩] }

def pushCorruptContext (c : Cell) : Cell := { c with contexts := c.contexts ++ [⟨[], true⟩] }

def markMoved (n : RefNum) (c : Cell) : Cell := { c with moved := c.moved ++ [n] }

def lease (r : Reference) (c : Cell) : Cell := { c with leased := c.leased ++ [r] }

def leaseDelete (r : Reference) (c : Cell) : Cell := c.lease r.asDeleted

end Cell

/-- What an object record draws: a model path, or nothing. -/
structure ModelRecord where
  kind : RecordKind
  model : String
  deriving DecidableEq, Repr

structure CellHandle where
  index : Nat
  deriving DecidableEq, Repr

structure CellStore where
  find? : Int32 → Int32 → Option CellHandle
  contextCount : CellHandle → Nat
  readContext : CellHandle → Nat → Except Failure (List Reference)
  movedRefs : CellHandle → List RefNum
  leasedRefs : CellHandle → List Reference

/-- The model path of a record, empty if it draws nothing. -/
abbrev ModelResolver := RecordKind → String → Except Failure String

abbrev ModelTable := Std.ExtTreeMap String ModelRecord

structure World where
  cells : List Cell
  models : ModelTable

/-- The position of the last item with a property. -/
def lastIndex? {α : Type} (p : α → Bool) : List α → Option Nat
  | [] => none
  | a :: as =>
    match lastIndex? p as with
    | some i => some (i + 1)
    | none => if p a then some 0 else none

namespace World

def empty : World := ⟨[], ∅⟩

/-- Puts a record under the lower case of its id. -/
def addModel (w : World) (id : String) (kind : RecordKind) (model : String) : World :=
  { w with models := w.models.insert (lowercase id) ⟨kind, model⟩ }

def find? (w : World) (x y : Int32) : Option CellHandle :=
  (lastIndex? (Cell.isAt x y) w.cells).map CellHandle.mk

def cell? (w : World) (h : CellHandle) : Option Cell := w.cells[h.index]?

/-- Changes the cell that is found at the coordinates, which is added if there is none. -/
def update (w : World) (x y : Int32) (f : Cell → Cell) : World :=
  match w.find? x y with
  | some h => { w with cells := w.cells.modify h.index f }
  | none => { w with cells := w.cells ++ [f (Cell.new x y)] }

def lesser (a b : Int32) : Int32 := if a ≤ b then a else b

def greater (a b : Int32) : Int32 := if a ≤ b then b else a

/-- The least rectangle of cell coordinates that holds all cells. -/
structure Range where
  minX : Int32
  minY : Int32
  maxX : Int32
  maxY : Int32
  deriving DecidableEq, Repr

def Range.include (r : Range) (c : Cell) : Range :=
  ⟨lesser r.minX c.x, lesser r.minY c.y, greater r.maxX c.x, greater r.maxY c.y⟩

def range? (w : World) : Option Range :=
  match w.cells with
  | [] => none
  | c :: cs => some (cs.foldl Range.include ⟨c.x, c.y, c.x, c.y⟩)

/-- The model paths of all records that draw something, each once and in order. -/
def modelPaths (w : World) : List String :=
  let paths := w.models.foldl (fun paths _ r => if r.model = "" then paths else r.model :: paths) []
  (paths.foldl (fun t p => t.insert p ()) (∅ : Std.ExtTreeMap String Unit)).keys

def contextCount (w : World) (h : CellHandle) : Nat :=
  match w.cell? h with
  | some c => c.contexts.length
  | none => 0

def readContext (w : World) (h : CellHandle) (context : Nat) :
    Except Failure (List Reference) :=
  match w.cell? h with
  | none => .error (.cellRead 0 0 context ("unknown cell handle " ++ h.index.repr))
  | some c =>
    match c.contexts[context]? with
    | none => .error (.cellRead c.x.toInt c.y.toInt context "no such context")
    | some data =>
      if data.corrupt then
        .error (.cellRead c.x.toInt c.y.toInt context "context data is corrupt")
      else .ok data.refs

def movedRefs (w : World) (h : CellHandle) : List RefNum := ((w.cell? h).map Cell.moved).getD []

def leasedRefs (w : World) (h : CellHandle) : List Reference :=
  ((w.cell? h).map Cell.leased).getD []

def store (w : World) : CellStore :=
  ⟨w.find?, w.contextCount, w.readContext, w.movedRefs, w.leasedRefs⟩

/-- Only statics, activators, doors and containers have models. A record of another type under
the same id counts as none. -/
def resolveModel (w : World) : ModelResolver := fun kind id =>
  match kind with
  | .static | .activator | .door | .container =>
    match w.models[id]? with
    | some r => .ok (if r.kind = kind then r.model else "")
    | none => .ok ""
  | _ => .error (.unresolvable kind)

end World

end DistantChunks
