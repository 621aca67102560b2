import DistantChunks.Json.Number
import DistantChunks.Json.Quoted

/-!
# JSON values

A value keeps its numbers and texts as they were written, so that a number is read at the
precision of the field it belongs to and an escape is judged only where the text is used. Members
of an object keep their order and their repetitions.
-/

namespace DistantChunks

inductive Json where
  | null
  | bool (b : Bool)
  | number (written : String)
  | text (escaped : String)
  | array (items : List Json)
  | object (members : List (String × Json))
  deriving Inhabited

namespace Json

def ofText (s : String) : Json := .text (String.ofList (Quoted.escape s.toList))

def ofInt (n : Int) : Json := .number n.repr

def ofNat (n : Nat) : Json := .number n.repr

/-- A number in its shortest form; what is not finite is null. -/
def ofSingle (x : Float32) : Json :=
  match Single.value x with
  | .finite negative m q => .number (NumberText.style.render .single negative m q)
  | _ => .null

def member (name : String) (value : Json) : String × Json :=
  (String.ofList (Quoted.escape name.toList), value)

def unescape? (s : String) : Option String :=
  (Quoted.unescape? s.toList).map String.ofList

def text? : Json → Option String
  | .text s => unescape? s
  | _ => none

def bool? : Json → Option Bool
  | .bool b => some b
  | _ => none

def array? : Json → Option (List Json)
  | .array items => some items
  | _ => none

def number? : Json → Option NumberText
  | .number s => NumberText.ofChars? s.toList
  | _ => none

def integer? (j : Json) : Option Int := j.number? >>= NumberText.integer?

/-- An integer of a fixed-width type, by the bounds of the type. -/
def integerWithin? (low high : Int) (j : Json) : Option Int := do
  let n ← j.integer?
  guard (low ≤ n ∧ n ≤ high)
  return n

def int32? (j : Json) : Option Int := j.integerWithin? (-0x80000000) 0x7fffffff

def uint32? (j : Json) : Option Nat := (j.integerWithin? 0 0xffffffff).map Int.toNat

def single? (j : Json) : Option Float32 := j.number? >>= NumberText.single?

def double? (j : Json) : Option Float := j.number? >>= NumberText.double?

def members? : Json → Option (List (String × Json))
  | .object members => members.mapM fun (name, value) => return (← unescape? name, value)
  | _ => none

def fieldOnce? (members : List (String × Json)) (name : String) : Option (Option Json) :=
  match members.filter (·.1 == name) with
  | [] => some none
  | [(_, value)] => some (some value)
  | _ => none

/-- The values of the named fields of a record. A record is an object with each field at most
once and other members ignored, or the array of its first fields in order. -/
def fields? (names : List String) : Json → Option (List (Option Json))
  | .array items =>
    if items.length ≤ names.length then
      some (items.map some ++ List.replicate (names.length - items.length) none)
    else none
  | j => do
    let members ← j.members?
    names.mapM (fieldOnce? members)

def required {β : Type} (decode : Json → Option β) (field : Option Json) : Option β :=
  field >>= decode

/-- The value of a field that may be left out, but not be of a wrong form. -/
def defaulting {β : Type} (value : β) (decode : Json → Option β) (field : Option Json) :
    Option β :=
  match field with
  | none => some value
  | some j => decode j

def arrayOf? {β : Type} (decode : Json → Option β) (j : Json) : Option (List β) :=
  j.array? >>= (·.mapM decode)

end Json

end DistantChunks
