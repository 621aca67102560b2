import DistantChunks.Number.Binary

/-!
# Rules for single and double precision numbers

The conversions, the rounding to whole numbers and the sorting order that the rest of the library
uses. Each is computed from the bit pattern in exact integer arithmetic.
-/

namespace DistantChunks

namespace Single

def value (x : Float32) : BinaryValue :=
  BinaryFormat.single.read x.toBits.toNat

def ofValue (v : BinaryValue) : Float32 :=
  Float32.ofBits (UInt32.ofNat (BinaryFormat.single.write v))

def ofNat (n : Nat) : Float32 :=
  ofValue (.finite false n 0)

def ofInt (n : Int) : Float32 :=
  ofValue (.finite (decide (n < 0)) n.natAbs 0)

def ofDouble (x : Float) : Float32 :=
  ofValue (BinaryFormat.double.read x.toBits.toNat)

def toDouble (x : Float32) : Float :=
  Float.ofBits (UInt64.ofNat (BinaryFormat.double.write (value x)))

/-- The greatest whole number that is not above `x`; infinities and nan stay as they are. -/
def floor (x : Float32) : Float32 :=
  match value x with
  | .finite negative m q =>
    let unit := pow2 (-q).toNat
    if 0 ≤ q then x
    else if negative then ofValue (.finite true ((m + unit - 1) / unit) 0)
    else ofValue (.finite false (m / unit) 0)
  | _ => x

/-- The whole part of `x`, moved into the range of 32-bit integers; nan gives zero. -/
def toInt (x : Float32) : Int :=
  match value x with
  | .finite negative m q =>
    let whole : Int := (m * pow2 q.toNat / pow2 (-q).toNat : Nat)
    if negative then max (-whole) (-0x80000000) else min whole 0x7fffffff
  | .infinite negative => if negative then -0x80000000 else 0x7fffffff
  | .notANumber => 0

/-- The place of a number in the total order: negative patterns count downwards from -1. -/
def rank (x : Float32) : Int :=
  let bits := x.toBits.toNat
  if bits < 0x80000000 then bits else -1 - (bits - 0x80000000 : Nat)

def greatest : Float32 :=
  Float32.ofBits 0x7f7fffff

end Single

namespace Double

def ofNat (n : Nat) : Float :=
  Float.ofBits (UInt64.ofNat (BinaryFormat.double.write (.finite false n 0)))

def ofInt (n : Int) : Float :=
  Float.ofBits (UInt64.ofNat (BinaryFormat.double.write (.finite (decide (n < 0)) n.natAbs 0)))

end Double

end DistantChunks
