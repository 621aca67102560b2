import DistantChunks.Number.Digits
import DistantChunks.Number.Single

/-!
# Number literals on a command line

A decimal literal is rounded once, to the nearest number. It may have a sign, an exponent, and a
point with digits on at least one side; infinity and nan are written as words in any case.
-/

namespace DistantChunks

namespace Literal

def splitSign : List Char → Bool × List Char
  | '-' :: cs => (true, cs)
  | '+' :: cs => (false, cs)
  | cs => (false, cs)

def exponent? : List Char → Option Int
  | [] => some 0
  | c :: cs =>
    if c == 'e' || c == 'E' then
      let (negative, unsigned) := splitSign cs
      match Digits.split unsigned with
      | (d :: ds, []) =>
        let e : Int := Digits.toNat (d :: ds)
        some (if negative then -e else e)
      | _ => none
    else none

def decimal? (cs : List Char) : Option (List Nat × List Nat × Int) := do
  let (whole, rest) := Digits.split cs
  let (fraction, rest) := match rest with
    | '.' :: ds => Digits.split ds
    | rest => ([], rest)
  guard (!whole.isEmpty || !fraction.isEmpty)
  return (whole, fraction, ← exponent? rest)

/-- The value of `digits * 10 ^ e`. Exponents far outside every format need no arithmetic. -/
def valueOf (negative : Bool) (digits : Nat) (e : Int) : BinaryValue × Nat :=
  let magnitude := e + digits.repr.length
  if digits = 0 ∨ magnitude < -400 then (.finite negative 0 0, 1)
  else if 400 < magnitude then (.infinite negative, 1)
  else (.finite negative (digits * pow10 e.toNat) 0, pow10 (-e).toNat)

def bitsOf (f : BinaryFormat) (negative : Bool) (digits : Nat) (e : Int) : Nat :=
  match valueOf negative digits e with
  | (.finite negative n _, d) => (if negative then f.signPattern else 0) + f.nearest n d
  | (v, _) => f.write v

def word? (cs : List Char) : Option BinaryValue :=
  let word := String.ofList (cs.map Char.toLower)
  if word = "inf" ∨ word = "infinity" then some (.infinite false)
  else if word = "nan" then some .notANumber
  else none

def single? (s : String) : Option Float32 :=
  let (negative, unsigned) := splitSign s.toList
  match word? unsigned with
  | some (.infinite _) => some (Single.ofValue (.infinite negative))
  | some v => some (Single.ofValue v)
  | none => do
    let (whole, fraction, e) ← decimal? unsigned
    let digits := Digits.toNat (whole ++ fraction)
    return Float32.ofBits (UInt32.ofNat (bitsOf .single negative digits (e - fraction.length)))

/-- A count of at most 64 bits, with an optional plus sign. -/
def count? (s : String) : Option Nat :=
  let unsigned := match s.toList with
    | '+' :: cs => cs
    | cs => cs
  match Digits.split unsigned with
  | (d :: ds, []) =>
    let n := Digits.toNat (d :: ds)
    if n < 0x10000000000000000 then some n else none
  | _ => none

end Literal

end DistantChunks
