import DistantChunks.Json.Reader
import DistantChunks.Number.Decimal
import DistantChunks.Records.Failure

/-!
# Configuration

The weights and sizes that decide what is shown, what is merged and how long chunks are kept. The
merge factor weighs shared state sets against vertices, the minimal size is the smallest ratio of
radius to distance that is still shown, and an unused chunk is kept for the expiry delay, in
seconds. Cells have their width in world units, and from the size of the far filter on, which is in
cells, containers are left out of a chunk.
-/

namespace DistantChunks

structure PagingConfig where
  mergeFactor : Float32
  minSize : Float32
  expiryDelay : Float
  cellSize : Float32
  farFilterSize : Float32
  deriving DecidableEq, Repr

namespace PagingConfig

def standard : PagingConfig := ⟨250, 0.01, 0.5, 8192, 2⟩

/-- The first fault of a configuration, in words. -/
def fault? (c : PagingConfig) : Option String :=
  if ¬ 0 < c.cellSize then
    some ("cell_size must be positive, got " ++ Single.displayText c.cellSize)
  else if ¬ 0 ≤ c.minSize then
    some ("min_size must not be negative, got " ++ Single.displayText c.minSize)
  else if ¬ 0 ≤ c.expiryDelay then
    some ("expiry_delay must not be negative, got " ++ Double.displayText c.expiryDelay)
  else match Single.value c.mergeFactor with
    | .finite _ _ _ => none
    | _ => some "merge_factor must be finite"

def validate (c : PagingConfig) : Except Failure PagingConfig :=
  match c.fault? with
  | some cause => .error (.config cause)
  | none => .ok c

def ofJson? (j : Json) : Option PagingConfig := do
  match ← j.fields? ["merge_factor", "min_size", "expiry_delay", "cell_size",
      "far_type_filter_size"] with
  | [mergeFactor, minSize, expiryDelay, cellSize, farFilterSize] =>
    return {
      mergeFactor := ← Json.defaulting standard.mergeFactor Json.single? mergeFactor
      minSize := ← Json.defaulting standard.minSize Json.single? minSize
      expiryDelay := ← Json.defaulting standard.expiryDelay Json.double? expiryDelay
      cellSize := ← Json.defaulting standard.cellSize Json.single? cellSize
      farFilterSize := ← Json.defaulting standard.farFilterSize Json.single? farFilterSize }
  | _ => none

def load (s : String) : Except Failure PagingConfig :=
  match Json.read? s >>= ofJson? with
  | some c => c.validate
  | none => .error .json

end PagingConfig

end DistantChunks
