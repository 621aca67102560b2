import DistantChunks.Number.Binary

/-!
# The fewest digits that read back

A positive binary number `m * 2 ^ q` owns the interval of reals that are rounded to it. For one,
two, three and more digits the two neighbours of the number on that decimal grid are tested; the
first grid with a point in the interval wins, and of two such points the nearer one. Whenever any
point of a grid lies in the interval, so does one of these neighbours, hence no shorter decimal
reads back. The number of digits is bounded in advance by one that always suffices.
-/

namespace DistantChunks

structure Decimal where
  digits : Nat
  exponent : Int
  deriving DecidableEq, Repr

inductive TieRule where
  | upwards
  | toEven
  deriving DecidableEq, Repr

namespace BinaryFormat

variable (f : BinaryFormat)

def sufficientDigits : Nat := (f.fractionBits + 1) * 3 / 10 + 2

def decimalMagnitude (m : Nat) (q : Int) : Int :=
  -- The number is first moved above one, by a power of ten that fits the whole format.
  let lift := (-f.lowestExponent).toNat / 3 + 1
  ((m * pow10 lift * pow2 q.toNat / pow2 (-q).toNat).repr.length : Int) - lift

/-- How many quarters of the last place the interval of `m * 2 ^ q` reaches downwards: below a power
of two the numbers are twice as dense. -/
def lowerReach (m : Nat) (q : Int) : Nat :=
  if m = pow2 f.fractionBits ∧ f.lowestExponent < q then 1 else 2

/-- Whether `d * 10 ^ e` is rounded to `m * 2 ^ q`. The ends of the interval belong to it when the
significand is even. -/
def readsBack (m : Nat) (q : Int) (d : Nat) (e : Int) : Bool :=
  let p := 4 * d * (pow10 e.toNat * pow2 (-q).toNat)
  let u := pow2 q.toNat * pow10 (-e).toNat
  let low := (4 * m - f.lowerReach m q) * u
  let high := (4 * m + 2) * u
  if m % 2 = 0 then decide (low ≤ p ∧ p ≤ high) else decide (low < p ∧ p < high)

def onGrid? (tie : TieRule) (m : Nat) (q e : Int) : Option Nat :=
  let p := pow10 e.toNat * pow2 (-q).toNat
  let n := m * (pow2 q.toNat * pow10 (-e).toNat)
  let d := n / p
  let rest := n % p
  let upper := p < 2 * rest ∨ (2 * rest = p ∧ (tie = .upwards ∨ d % 2 = 1))
  match f.readsBack m q d e, f.readsBack m q (d + 1) e with
  | true, true => some (if upper then d + 1 else d)
  | true, false => some d
  | false, true => some (d + 1)
  | false, false => none

def shortestFrom (tie : TieRule) (m : Nat) (q magnitude : Int) : Nat → Nat → Decimal
  | left, tried =>
    let e := magnitude - (tried + 1)
    match f.onGrid? tie m q e, left with
    | some d, _ => if d = pow10 (tried + 1) then ⟨1, magnitude⟩ else ⟨d, e⟩
    | none, 0 => ⟨m * pow2 q.toNat * pow10 (-e).toNat / (pow10 e.toNat * pow2 (-q).toNat), e⟩
    | none, left + 1 => shortestFrom tie m q magnitude left (tried + 1)

/-- The decimal with the fewest digits among those that read back as `m * 2 ^ q`, and the nearest
of these. Zero has one digit. -/
def shortest (tie : TieRule) (m : Nat) (q : Int) : Decimal :=
  if m = 0 then ⟨0, 0⟩
  else f.shortestFrom tie m q (f.decimalMagnitude m q) f.sufficientDigits 0

end BinaryFormat

end DistantChunks
