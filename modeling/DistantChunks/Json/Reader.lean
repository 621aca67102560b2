import DistantChunks.Json.Token

/-!
# Reading JSON

Tokens are read from left to right over a stack of open arrays and objects, to any depth. A
finished value goes into the innermost open container or, without one, is the result.
-/

namespace DistantChunks.Json

/-- An open container with its finished entries in reverse order. An object that waits for the
value of a member holds the name of that member. -/
inductive Frame where
  | array (items : List Json)
  | object (members : List (String × Json))
  | member (members : List (String × Json)) (name : String)

inductive Expectation where
  | value
  | valueOrClose
  | name
  | nameOrClose
  | colon
  | separator

structure ReadState where
  stack : List Frame
  next : Expectation
  result : Option Json

namespace ReadState

def start : ReadState := ⟨[], .value, none⟩

def put (j : Json) : List Frame → ReadState
  | .array items :: stack => ⟨.array (j :: items) :: stack, .separator, none⟩
  | .member members name :: stack => ⟨.object ((name, j) :: members) :: stack, .separator, none⟩
  | stack => ⟨stack, .separator, some j⟩

def value? (stack : List Frame) : Token → Option ReadState
  | .openArray => some ⟨.array [] :: stack, .valueOrClose, none⟩
  | .openObject => some ⟨.object [] :: stack, .nameOrClose, none⟩
  | .value j => some (put j stack)
  | _ => none

def close? : List Frame → Token → Option ReadState
  | .array items :: stack, .closeArray => some (put (.array items.reverse) stack)
  | .object members :: stack, .closeObject => some (put (.object members.reverse) stack)
  | _, _ => none

def name? : List Frame → Token → Option ReadState
  | .object members :: stack, .value (.text name) =>
    some ⟨.member members name :: stack, .colon, none⟩
  | _, _ => none

def step? (s : ReadState) (t : Token) : Option ReadState :=
  match s.next with
  | .value => value? s.stack t
  | .valueOrClose => (close? s.stack t).or (value? s.stack t)
  | .name => name? s.stack t
  | .nameOrClose => (close? s.stack t).or (name? s.stack t)
  | .colon => match t with
    | .colon => some { s with next := .value }
    | _ => none
  | .separator => match t, s.stack with
    | .comma, .array _ :: _ => some { s with next := .value }
    | .comma, .object _ :: _ => some { s with next := .name }
    | t, stack => close? stack t

def run? (s : ReadState) : List Token → Option ReadState
  | [] => some s
  | t :: ts => match step? s t with
    | none => none
    | some next => run? next ts

end ReadState

def ofTokens? (ts : List Token) : Option Json :=
  (ReadState.run? .start ts).bind (·.result)

def read? (s : String) : Option Json :=
  Token.scan? s.toList >>= ofTokens?

end DistantChunks.Json
