import DistantChunks.Number.Shortest

/-!
# Decimal texts

How the digits of a number are laid out: where plain notation ends, whether a whole number keeps a
fraction, and which digits a tie prefers. A text states its layout as one `DecimalStyle`.
-/

namespace DistantChunks

/-- The layout of a decimal text. With `plain` set to `(low, high)`, numbers whose first digit has
an exponent outside `low` to `high` are written with an exponent; without it none is. -/
structure DecimalStyle where
  plain : Option (Int × Int)
  keepsFraction : Bool
  tie : TieRule

def zeros (n : Nat) : String := String.ofList (List.replicate n '0')

namespace Decimal

def magnitude (d : Decimal) : Int := d.digits.repr.length - 1 + d.exponent

/-- Plain notation; a whole number ends in `.0` if it is to keep a fraction. -/
def plainText (d : Decimal) (keepsFraction : Bool) : String :=
  let text := d.digits.repr
  if 0 ≤ d.exponent then
    text ++ zeros d.exponent.toNat ++ (if keepsFraction then ".0" else "")
  else
    let places := (-d.exponent).toNat
    let padded := zeros (places + 1 - text.length) ++ text
    let whole := padded.length - places
    String.ofList (padded.toList.take whole) ++ "." ++ String.ofList (padded.toList.drop whole)

def exponentText (d : Decimal) : String :=
  let text := d.digits.repr
  let fraction := if text.length ≤ 1 then "" else "." ++ String.ofList (text.toList.drop 1)
  let sign := if d.magnitude < 0 then "-" else "+"
  String.ofList (text.toList.take 1) ++ fraction ++ "e" ++ sign ++ d.magnitude.natAbs.repr

def text (d : Decimal) (style : DecimalStyle) : String :=
  match style.plain with
  | none => d.plainText style.keepsFraction
  | some (low, high) =>
    if low ≤ d.magnitude ∧ d.magnitude ≤ high then d.plainText style.keepsFraction
    else d.exponentText

end Decimal

def DecimalStyle.render (style : DecimalStyle) (f : BinaryFormat) (negative : Bool) (m : Nat)
    (q : Int) : String :=
  (if negative then "-" else "") ++ (f.shortest style.tie m q).text style

/-- Numbers in messages: plain notation at any size, no fraction for whole numbers, and words for
what is not finite. -/
def BinaryFormat.displayText (f : BinaryFormat) (bits : Nat) : String :=
  match f.read bits with
  | .finite negative m q => DecimalStyle.render ⟨none, false, .upwards⟩ f negative m q
  | .infinite negative => if negative then "-inf" else "inf"
  | .notANumber => "NaN"

def Single.displayText (x : Float32) : String :=
  BinaryFormat.single.displayText x.toBits.toNat

def Double.displayText (x : Float) : String :=
  BinaryFormat.double.displayText x.toBits.toNat

end DistantChunks
