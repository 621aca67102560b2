import DistantChunks.Number.Single

/-!
# Numbers that the geometry is computed with

The geometry is written once for every kind of number. The program runs it on single precision
numbers, where each operation rounds and comparisons with nan fail; statements about exact
arithmetic read the same definitions over an ordered field.
-/

namespace DistantChunks

class Scalar (α : Type) extends Zero α, One α, Add α, Sub α, Mul α, Div α, Neg α, LT α, LE α where
  decLt : DecidableLT α
  decLe : DecidableLE α
  /-- Equality as numbers: zeros of both signs agree, and nan agrees with nothing. -/
  same : α → α → Bool
  half : α
  sqrt : α → α
  /-- The greatest finite number, where an empty box starts. -/
  greatest : α
  floor : α → α
  ofInt : Int → α
  toInt : α → Int
  /-- A total order for sorting, which also places nan. -/
  precedes : α → α → Bool

namespace Scalar

variable {α : Type} [Scalar α]

instance : DecidableLT α := decLt

instance : DecidableLE α := decLe

/-- The smaller number; of a number and nan the number. -/
def least (a b : α) : α :=
  if b < a then b else if a ≤ a then a else b

/-- The greater number; of a number and nan the number. -/
def most (a b : α) : α :=
  if a < b then b else if a ≤ a then a else b

def two : α := 1 + 1

def ceil (a : α) : α := -floor (-a)

end Scalar

instance : Scalar Float32 where
  zero := 0
  one := 1
  decLt := inferInstance
  decLe := inferInstance
  same a b := a == b
  half := 0.5
  sqrt := Float32.sqrt
  greatest := Single.greatest
  floor := Single.floor
  ofInt := Single.ofInt
  toInt := Single.toInt
  precedes a b := decide (Single.rank a ≤ Single.rank b)

end DistantChunks
