/-!
# What every node carries

A state set is a material. Two drawables share a material only if it is the same state set, which
its serial number tells; a name may occur twice.
-/

namespace DistantChunks

structure StateSet where
  serial : Nat
  name : String
  transparent : Bool
  deriving DecidableEq, Repr

/-- Whether a node may change once it has been handed over for drawing. -/
inductive Variance where
  | unspecified
  | static
  | dynamic
  deriving DecidableEq, Repr

structure Attributes where
  name : String
  state : Option StateSet
  callbacks : List String
  userData : Option (List (String × String))
  variance : Variance
  mask : UInt32
  deriving DecidableEq, Repr

namespace Attributes

def maskAll : UInt32 := 0xffffffff

def maskStatic : UInt32 := 128

def fresh : Attributes := ⟨"", none, [], none, .unspecified, maskAll⟩

end Attributes

end DistantChunks
