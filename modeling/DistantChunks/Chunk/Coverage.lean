import DistantChunks.Records.Reference

/-!
# What a chunk covers

A chunk is a square of the cell grid. The cells scanned for it start at the cell that holds its
lower corner and end before that cell's coordinate plus the size. A chunk smaller than a cell
shares its cell with others, and takes the references whose position, moved into the cells around
the chunk, lies in its square.
-/

namespace DistantChunks

def RecordKind.isShown (far : Bool) : RecordKind → Bool
  | .static | .activator | .door => true
  | .container => !far
  | _ => false

namespace Coverage

variable {α : Type} [Scalar α]

def greatestCoordinate : Int := 0x7fffffff

def line (limit : α) (x : Int) : List Int :=
  if _h : x ≤ greatestCoordinate ∧ Scalar.ofInt x < limit then x :: line limit (x + 1) else []
  termination_by (greatestCoordinate + 1 - x).toNat

/-- The cell that holds the lower corner of a chunk. -/
def start (size : α) (center : Vec2 α) : Vec2 α :=
  (center - Vec2.splat (size / Scalar.two)).map Scalar.floor

def cells (size : α) (center : Vec2 α) : List (Int × Int) :=
  let corner := start size center
  (line (corner.x + size) (Scalar.toInt corner.x)).flatMap fun x =>
    (line (corner.y + size) (Scalar.toInt corner.y)).map fun y => (x, y)

/-- Whether a coordinate, moved between the whole numbers around `low` and `high`, lies between
`low` and `high`. -/
def holdsOnAxis (low high a : α) : Bool :=
  let moved := Scalar.least (Scalar.most a (Scalar.floor low)) (Scalar.ceil high)
  decide (low ≤ moved) && decide (moved ≤ high)

def holds (size : α) (center : Vec2 α) (cellSize : α) (p : Vec3 α) : Bool :=
  let half := Vec2.splat (size / Scalar.two)
  let low := center - half
  let high := center + half
  holdsOnAxis low.x high.x (p.x / cellSize) && holdsOnAxis low.y high.y (p.y / cellSize)

end Coverage

end DistantChunks
