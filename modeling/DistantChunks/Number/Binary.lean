/-!
# Binary floating-point formats

A format is given by the widths of its fraction and exponent fields. The pattern of a number is
read as an exact value `m * 2 ^ q` with a sign, and a ratio of naturals is written as the pattern
nearest to it, a tie going to the even one. Conversions between formats, from integers and from
decimal text all pass through these two functions, so each of them rounds once.
-/

namespace DistantChunks

abbrev pow2 (n : Nat) : Nat := Nat.pow 2 n

abbrev pow10 (n : Nat) : Nat := Nat.pow 10 n

/-- The integer nearest to `n / d`; of two equally near ones the even one. -/
def roundedQuotient (n d : Nat) : Nat :=
  let whole := n / d
  let rest := n % d
  if 2 * rest < d then whole
  else if d < 2 * rest then whole + 1
  else whole + whole % 2

structure BinaryFormat where
  fractionBits : Nat
  exponentBits : Nat

inductive BinaryValue where
  | finite (negative : Bool) (significand : Nat) (exponent : Int)
  | infinite (negative : Bool)
  | notANumber
  deriving DecidableEq, Repr

namespace BinaryFormat

def single : BinaryFormat := ⟨23, 8⟩

def double : BinaryFormat := ⟨52, 11⟩

variable (f : BinaryFormat)

/-- The exponent of the last place of the smallest numbers. -/
def lowestExponent : Int :=
  2 - pow2 (f.exponentBits - 1) - f.fractionBits

/-- The magnitude pattern of infinity; greater ones are not numbers. -/
def infinityPattern : Nat :=
  (pow2 f.exponentBits - 1) * pow2 f.fractionBits

def signPattern : Nat :=
  pow2 (f.fractionBits + f.exponentBits)

def significand (pattern : Nat) : Nat :=
  if pattern < pow2 f.fractionBits then pattern
  else pow2 f.fractionBits + pattern % pow2 f.fractionBits

def exponent (pattern : Nat) : Int :=
  f.lowestExponent + (pattern / pow2 f.fractionBits - 1 : Nat)

def read (bits : Nat) : BinaryValue :=
  let negative := decide (f.signPattern ≤ bits)
  let pattern := bits % f.signPattern
  if pattern < f.infinityPattern then
    .finite negative (f.significand pattern) (f.exponent pattern)
  else if pattern = f.infinityPattern then .infinite negative
  else .notANumber

/-- The greatest `e` with `2 ^ e ≤ n / d`, for positive `n` and `d`. -/
def binaryMagnitude (n d : Nat) : Int :=
  let e : Int := (n.log2 : Int) - (d.log2 : Int)
  if d * pow2 e.toNat ≤ n * pow2 (-e).toNat then e else e - 1

/-- The magnitude pattern of the number nearest to `n / d`, a tie going to the even pattern and
everything beyond the greatest number to infinity. With `q` the exponent of the last place, the
pattern counts the steps of size `2 ^ q` above the patterns of lower exponents, so a significand
that is rounded up to the next power of two needs no case of its own. -/
def nearest (n d : Nat) : Nat :=
  if n = 0 then 0
  else
    let q := max (binaryMagnitude n d - f.fractionBits) f.lowestExponent
    let m := roundedQuotient (n * pow2 (-q).toNat) (d * pow2 q.toNat)
    min ((q - f.lowestExponent).toNat * pow2 f.fractionBits + m) f.infinityPattern

def write : BinaryValue → Nat
  | .finite negative m q =>
    (if negative then f.signPattern else 0) + f.nearest (m * pow2 q.toNat) (pow2 (-q).toNat)
  | .infinite negative => (if negative then f.signPattern else 0) + f.infinityPattern
  | .notANumber => f.infinityPattern + pow2 (f.fractionBits - 1)

end BinaryFormat

end DistantChunks
