import DistantChunks.Number.Literal

/-!
# Arguments of the survey

An option is followed by its value. The first occurrence of an option counts, and a value that
cannot be read counts as left out.
-/

namespace DistantChunks.Survey

structure Arguments where
  worldPath : Option String
  configPath : Option String
  size : Float32
  jobs : Nat

namespace Arguments

/-- The value after the first occurrence of an option. -/
def value? (option : String) : List String → Option String
  | [] => none
  | a :: rest => if a = option then rest.head? else value? option rest

def ofList (args : List String) : Arguments where
  worldPath := value? "--world" args
  configPath := value? "--config" args
  size := (value? "--size" args >>= Literal.single?).getD 4
  jobs := (value? "--jobs" args >>= Literal.count?).getD 4

end Arguments

end DistantChunks.Survey
