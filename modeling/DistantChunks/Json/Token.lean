import DistantChunks.Json.Value

/-!
# JSON tokens

The characters of a text are taken one by one into a pending token; a character that cannot
continue it ends it. White space only separates tokens.
-/

namespace DistantChunks

inductive Token where
  | openArray
  | closeArray
  | openObject
  | closeObject
  | comma
  | colon
  | value (j : Json)
  deriving Inhabited

namespace Token

/-- The token under way, its characters in reverse order. -/
inductive Pending where
  | nothing
  | word (taken : List Char)
  | number (taken : List Char)
  | text (taken : List Char)
  | escape (taken : List Char)
  | hex (taken : List Char) (left : Nat)

def isBlank (c : Char) : Bool := c == ' ' || c == '\n' || c == '\t' || c == '\r'

def ofMark? (c : Char) : Option Token :=
  if c = '[' then some .openArray
  else if c = ']' then some .closeArray
  else if c = '{' then some .openObject
  else if c = '}' then some .closeObject
  else if c = ',' then some .comma
  else if c = ':' then some .colon
  else none

def ofWord? (word : List Char) : Option Token :=
  if word = ['n', 'u', 'l', 'l'] then some (.value .null)
  else if word = ['t', 'r', 'u', 'e'] then some (.value (.bool true))
  else if word = ['f', 'a', 'l', 's', 'e'] then some (.value (.bool false))
  else none

def ofNumber? (digits : List Char) : Option Token :=
  (NumberText.ofChars? digits).map fun _ => .value (.number (String.ofList digits))

/-- Starts a token with a character that stands between tokens. The tokens so far are in reverse
order. -/
def start? (tokens : List Token) (c : Char) : Option (Pending × List Token) :=
  if isBlank c then some (.nothing, tokens)
  else if c = '"' then some (.text [], tokens)
  else if c.isAlpha then some (.word [c], tokens)
  else if NumberText.isNumberChar c then some (.number [c], tokens)
  else (ofMark? c).map fun t => (.nothing, t :: tokens)

def step? : Pending × List Token → Char → Option (Pending × List Token)
  | (.nothing, tokens), c => start? tokens c
  | (.word taken, tokens), c =>
    if c.isAlpha then some (.word (c :: taken), tokens)
    else do start? ((← ofWord? taken.reverse) :: tokens) c
  | (.number taken, tokens), c =>
    if NumberText.isNumberChar c then some (.number (c :: taken), tokens)
    else do start? ((← ofNumber? taken.reverse) :: tokens) c
  | (.text taken, tokens), c =>
    if c = '"' then some (.nothing, .value (.text (String.ofList taken.reverse)) :: tokens)
    else if c = '\\' then some (.escape (c :: taken), tokens)
    else if c.toNat < 32 then none
    else some (.text (c :: taken), tokens)
  | (.escape taken, tokens), c =>
    if c = 'u' then some (.hex (c :: taken) 4, tokens)
    else if (Quoted.simpleEscape? c).isSome then some (.text (c :: taken), tokens)
    else none
  | (.hex taken left, tokens), c =>
    if Quoted.isHex c then
      some (if left ≤ 1 then .text (c :: taken) else .hex (c :: taken) (left - 1), tokens)
    else none

def finish? : Pending × List Token → Option (List Token)
  | (.nothing, tokens) => some tokens.reverse
  | (.word taken, tokens) => do return ((← ofWord? taken.reverse) :: tokens).reverse
  | (.number taken, tokens) => do return ((← ofNumber? taken.reverse) :: tokens).reverse
  | _ => none

def run? (state : Pending × List Token) : List Char → Option (Pending × List Token)
  | [] => some state
  | c :: cs => match step? state c with
    | none => none
    | some next => run? next cs

def scan? (cs : List Char) : Option (List Token) :=
  run? (.nothing, []) cs >>= finish?

end Token

end DistantChunks
