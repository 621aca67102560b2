import DistantChunks.Json.Value

/-!
# Writing JSON

The compact form has no white space. The indented form puts every entry on a line of its own, two
spaces deeper than its container, except that empty containers stay on one line.
-/

namespace DistantChunks.Json

def quote (escaped : String) : String := "\"" ++ escaped ++ "\""

mutual

def compact : Json → String
  | .null => "null"
  | .bool b => if b then "true" else "false"
  | .number written => written
  | .text escaped => quote escaped
  | .array items => "[" ++ compactItems items ++ "]"
  | .object members => "\x7b" ++ compactMembers members ++ "\x7d"

def compactItems : List Json → String
  | [] => ""
  | [item] => compact item
  | item :: rest => compact item ++ "," ++ compactItems rest

def compactMembers : List (String × Json) → String
  | [] => ""
  | [(name, value)] => quote name ++ ":" ++ compact value
  | (name, value) :: rest => quote name ++ ":" ++ compact value ++ "," ++ compactMembers rest

end

def newLine (depth : Nat) : String := "\n" ++ String.ofList (List.replicate (2 * depth) ' ')

mutual

/-- The indented form of a value inside `depth` containers. -/
def indented (depth : Nat) : Json → String
  | .null => "null"
  | .bool b => if b then "true" else "false"
  | .number written => written
  | .text escaped => quote escaped
  | .array [] => "[]"
  | .array items => "[" ++ indentedItems (depth + 1) items ++ newLine depth ++ "]"
  | .object [] => "\x7b\x7d"
  | .object members => "\x7b" ++ indentedMembers (depth + 1) members ++ newLine depth ++ "\x7d"

def indentedItems (depth : Nat) : List Json → String
  | [] => ""
  | [item] => newLine depth ++ indented depth item
  | item :: rest => newLine depth ++ indented depth item ++ "," ++ indentedItems depth rest

def indentedMembers (depth : Nat) : List (String × Json) → String
  | [] => ""
  | [(name, value)] => newLine depth ++ quote name ++ ": " ++ indented depth value
  | (name, value) :: rest =>
    newLine depth ++ quote name ++ ": " ++ indented depth value ++ "," ++ indentedMembers depth rest

end

def pretty (j : Json) : String := indented 0 j

end DistantChunks.Json
