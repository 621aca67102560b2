import DistantChunks.Paging.Pager

/-!
# Tiling a world with chunks

Requests for chunks of one size that together cover a range of cells. The first chunk starts at
the lower corner of the range, and each next one lies a chunk size further, as long as it starts
inside the range. Every chunk is seen from its own middle.
-/

namespace DistantChunks

theorem Single.rank_lt (x : Float32) : rank x < 0x80000000 := by
  simp only [rank]
  split <;> omega

namespace Tiling

def leastStep : Float32 := Float32.ofBits 0x34000000

/-- The middles of the tiles of a row from `x` on. A step too small to move the middle ends the
row. -/
def row (half step limit x : Float32) : List Float32 :=
  if x - half ≤ limit then
    x :: if _h : Single.rank x < Single.rank (x + step) then row half step limit (x + step) else []
  else []
  termination_by (0x80000000 - Single.rank x).toNat
  decreasing_by
    have := Single.rank_lt (x + step)
    omega

def axis (size : Float32) (low high : Int32) : List Float32 :=
  let half := size / 2
  row half (Scalar.most size leastStep) (Single.ofInt high.toInt) (Single.ofInt low.toInt + half)

def request (size cellSize x y : Float32) : Request :=
  ⟨⟨size, ⟨x, y⟩, ⟨x * cellSize, y * cellSize, 0⟩, true⟩, true⟩

def requests (size : Float32) (range : World.Range) (cellSize : Float32) : List Request :=
  (axis size range.minX range.maxX).flatMap fun x =>
    (axis size range.minY range.maxY).map fun y => request size cellSize x y

end Tiling

end DistantChunks
