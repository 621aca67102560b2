import DistantChunks.Number.Single

/-!
# Sine and cosine

An angle is reduced to a number of quarter turns and a rest of at most an eighth turn; one
polynomial then gives the sine of the rest and another one its cosine. All steps run in double
precision, and only the result is rounded to single precision. Angles from 120 radians on are
reduced exactly, with as many binary digits of `4 / π` as their exponent calls for; what is left of
a quarter turn is then counted in steps of `2 ^ (-62)` quarter turns. Angles below `2 ^ (-12)` are
their own sine and have cosine one.
-/

namespace DistantChunks

def Double.toInt (x : Float) : Int :=
  match BinaryFormat.double.read x.toBits.toNat with
  | .finite negative m q =>
    let whole : Int := (m * pow2 q.toNat / pow2 (-q).toNat : Nat)
    if negative then -whole else whole
  | _ => 0

/-- An angle as quarter turns and a rest. The polynomial is chosen by whether the number of
quarters is odd, the signs by the quadrant. -/
structure Turn where
  odd : Bool
  quadrant : Nat
  rest : Float

namespace Angle

/-- The first 192 binary digits of `4 / π`. -/
def fourOverPi : Nat := 0xA2F9836E4E441529FC2757D1F534DDC0DB6295993C439041

def halfPi : Float := Float.ofBits 0x3ff921fb54442d18

/-- Quarter turns per radian, times `2 ^ 24`. -/
def quartersPerRadian : Float := Float.ofBits 0x41645f306dc9c883

def radiansPerFineTurn : Float := Float.ofBits 0x3c1921fb54442d18

def reduceModerate (x : Float) : Turn :=
  let n := (Double.toInt (x * quartersPerRadian) + 0x800000) / 0x1000000
  ⟨n % 2 == 1, (n % 4).toNat, x - Double.ofInt n * halfPi⟩

/-- Reduces the angle with the given bits by a product with a window of 96 digits, of which the
upper two bits count the quarter turns. A negative angle is reduced without its sign, which then
moves the quadrant by one. -/
def reduceGreat (bits : Nat) : Turn :=
  let window : Nat := fourOverPi / pow2 (8 * (15 - bits / 0x4000000 % 16)) % pow2 96
  let significand : Nat := (bits % 0x800000 + 0x800000) * pow2 (bits / 0x800000 % 8)
  let turns : Nat := significand * window / 0x100000000 % 0x10000000000000000
  let n : Nat := (turns + 0x2000000000000000) / 0x4000000000000000
  let fine : Int := (turns : Int) - (n * 0x4000000000000000 : Nat)
  ⟨n % 2 == 1, (n + bits / 0x80000000) % 4, Double.ofInt fine * radiansPerFineTurn⟩

def reduce (x : Float32) : Turn :=
  let bits := x.toBits.toNat
  if bits % 0x80000000 < 0x3f400000 then ⟨false, 0, Single.toDouble x⟩
  else if bits % 0x80000000 < 0x42f00000 then reduceModerate (Single.toDouble x)
  else reduceGreat bits

def sinePolynomial (x square : Float) : Float :=
  let third := x * square
  let tail := Float.ofBits 0x3f81107605230bc4 + square * Float.ofBits 0xbf2994eb3774cf24
  (x + third * Float.ofBits 0xbfc555545995a603) + third * square * tail

def cosinePolynomial (sign square : Float) : Float :=
  let fourth := square * square
  let tail := sign * Float.ofBits 0xbf56c087e89a359d +
    square * (sign * Float.ofBits 0x3ef99343027bf8c3)
  let head := sign + square * (sign * Float.ofBits 0xbfdffffffd0c621c)
  (head + fourth * (sign * Float.ofBits 0x3fa55553e1068f19)) + fourth * square * tail

def wave (cosine : Bool) (t : Turn) : Float32 :=
  let sign : Float := if t.quadrant == 1 || t.quadrant == 2 then -1 else 1
  let square := t.rest * t.rest
  Single.ofDouble <|
    if t.odd == cosine then sinePolynomial (t.rest * sign) square
    else cosinePolynomial (if 2 ≤ t.quadrant then -1 else 1) square

def sine (x : Float32) : Float32 :=
  if x.toBits.toNat % 0x80000000 < 0x39800000 then x
  else if x.toBits.toNat % 0x80000000 < 0x7f800000 then wave false (reduce x)
  else x - x

def cosine (x : Float32) : Float32 :=
  if x.toBits.toNat % 0x80000000 < 0x39800000 then 1
  else if x.toBits.toNat % 0x80000000 < 0x7f800000 then wave true (reduce x)
  else x - x

end Angle

end DistantChunks
