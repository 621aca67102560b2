import DistantChunks.Number.Decimal
import DistantChunks.Number.Digits
import DistantChunks.Number.Single

/-!
# Numbers in JSON texts

The grammar of a number, and the values that a number stands for. An integer is written without
fraction and exponent. Any other number is read as a decimal significand of 64 bits, the digits
beyond which only move the exponent or are dropped, and is scaled by one correctly rounded power
of ten, so the result may differ from the nearest number in its last place.
-/

namespace DistantChunks

structure NumberText where
  negative : Bool
  whole : List Nat
  fraction : Option (List Nat)
  exponent : Option (Bool × List Nat)

namespace NumberText

def isNumberChar (c : Char) : Bool :=
  c.isDigit || c == '-' || c == '+' || c == '.' || c == 'e' || c == 'E'

def exponent? : List Char → Option (Option (Bool × List Nat))
  | [] => some none
  | c :: cs =>
    if c == 'e' || c == 'E' then
      let (negative, unsigned) := match cs with
        | '-' :: ds => (true, ds)
        | '+' :: ds => (false, ds)
        | ds => (false, ds)
      match Digits.split unsigned with
      | (d :: ds, []) => some (some (negative, d :: ds))
      | _ => none
    else none

/-- Reads a whole number text: an optional minus sign, digits without a leading zero, and an
optional fraction and exponent with at least one digit each. -/
def ofChars? (cs : List Char) : Option NumberText := do
  let (negative, unsigned) := match cs with
    | '-' :: ds => (true, ds)
    | ds => (false, ds)
  let (whole, rest) := Digits.split unsigned
  guard (whole.length == 1 || (!whole.isEmpty && whole.head? != some 0))
  match rest with
  | '.' :: ds =>
    let (fraction, rest) := Digits.split ds
    guard (!fraction.isEmpty)
    return ⟨negative, whole, some fraction, ← exponent? rest⟩
  | rest => return ⟨negative, whole, none, ← exponent? rest⟩

/-- The integer that a number without fraction and exponent stands for, if 64 bits hold it. The
negative zero is not an integer. -/
def integer? (t : NumberText) : Option Int :=
  if t.fraction.isSome || t.exponent.isSome then none
  else
    let n := Digits.toNat t.whole
    if t.negative then if 0 < n ∧ n ≤ 0x8000000000000000 then some (-n) else none
    else if n < 0x10000000000000000 then some n else none

/-- Appends digits to a significand while 64 bits hold it; also gives the digits left over. -/
def accumulate (significand : Nat) : List Nat → Nat × List Nat
  | [] => (significand, [])
  | d :: ds =>
    if significand * 10 + d < 0x10000000000000000 then accumulate (significand * 10 + d) ds
    else (significand, d :: ds)

def powerOfTen (e : Nat) : Float :=
  Float.ofBits (UInt64.ofNat (BinaryFormat.double.nearest (pow10 e) 1))

def scaleDown (f : Float) (e : Nat) : Float :=
  if e ≤ 308 then f / powerOfTen e
  else if f == 0 then f
  else scaleDown (f / powerOfTen 308) (e - 308)
  termination_by e

def scaled? (significand : Nat) (e : Int) : Option Float :=
  let f := Double.ofNat significand
  if e < 0 then some (scaleDown f e.natAbs)
  else if e ≤ 308 then
    let g := f * powerOfTen e.natAbs
    if g.isInf then none else some g
  else if f == 0 then some f
  else none

def decimal? (t : NumberText) : Option Float := do
  let (significand, dropped) := accumulate 0 t.whole
  let fraction := t.fraction.getD []
  let (significand, unread) := accumulate significand fraction
  let point : Int := dropped.length - (fraction.length - unread.length : Nat)
  let magnitude ← match t.exponent with
    | none => scaled? significand point
    | some (negative, digits) =>
      let e := Digits.toNat digits
      if 0x80000000 ≤ e then if significand == 0 || negative then some 0 else none
      else scaled? significand (point + if negative then -(e : Int) else e)
  return if t.negative then -magnitude else magnitude

def double? (t : NumberText) : Option Float :=
  match t.integer? with
  | some n => some (Double.ofInt n)
  | none => t.decimal?

def single? (t : NumberText) : Option Float32 :=
  match t.integer? with
  | some n => some (Single.ofInt n)
  | none => t.decimal?.map Single.ofDouble

end NumberText

/-- Written numbers keep a fraction and go over to an exponent beyond `10 ^ 12` and below
`10 ^ (-6)`. -/
def NumberText.style : DecimalStyle := ⟨some (-6, 12), true, .toEven⟩

end DistantChunks
