/-!
# Digit sequences

Reading the decimal digits at the start of a text.
-/

namespace DistantChunks.Digits

def valueOf (c : Char) : Nat := c.toNat - '0'.toNat

/-- The digits at the start of a text and what follows them. -/
def split : List Char → List Nat × List Char
  | [] => ([], [])
  | c :: cs =>
    if c.isDigit then
      let (digits, rest) := split cs
      (valueOf c :: digits, rest)
    else ([], c :: cs)

def toNat (digits : List Nat) : Nat := digits.foldl (fun n d => 10 * n + d) 0

end DistantChunks.Digits
