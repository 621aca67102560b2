import DistantChunks.Space.Vector
import DistantChunks.Text.Lowercase

/-!
# Placed objects

A reference places one object in the world. It is named by the content file it comes from and its
index there, which order references first by file, then by index.
-/

namespace DistantChunks

structure RefNum where
  file : Int32
  index : UInt32
  deriving DecidableEq, Repr

namespace RefNum

def text (n : RefNum) : String := n.file.toInt.repr ++ ":" ++ n.index.toNat.repr

instance : Ord RefNum := ⟨compareLex (compareOn file) (compareOn index)⟩

instance : Std.TransOrd RefNum := inferInstanceAs (Std.TransCmp (compareLex _ _))

instance : Std.LawfulEqOrd RefNum where
  eq_of_compare {a b} h := by
    obtain ⟨hf, hi⟩ : compare a.file b.file = .eq ∧ compare a.index b.index = .eq :=
      Ordering.then_eq_eq.1 h
    cases a
    cases b
    simp_all

def sort (ns : List RefNum) : List RefNum := ns.mergeSort fun a b => (compare a b).isLE

end RefNum

/-- The type of the record that a reference places. -/
inductive RecordKind where
  | static
  | activator
  | door
  | container
  | creature
  | npc
  | light
  | misc
  | other
  deriving DecidableEq, Repr

namespace RecordKind

def all : List RecordKind :=
  [static, activator, door, container, creature, npc, light, misc, other]

/-- The name in messages. -/
def title : RecordKind → String
  | static => "Static"
  | activator => "Activator"
  | door => "Door"
  | container => "Container"
  | creature => "Creature"
  | npc => "Npc"
  | light => "Light"
  | misc => "Misc"
  | other => "Other"

/-- The name in documents. -/
def name (k : RecordKind) : String := lowercase k.title

def ofName? (s : String) : Option RecordKind := all.find? (·.name == s)

end RecordKind

structure Reference where
  number : RefNum
  kind : RecordKind
  /-- The id of the placed record, in lower case. -/
  id : String
  position : Vec3 Float32
  /-- Angles in radians about the three axes, applied to z first and x last. -/
  rotation : Vec3 Float32
  scale : Float32
  /-- A deleted entry takes back earlier entries of its number. -/
  deleted : Bool
  deriving DecidableEq, Repr

namespace Reference

def new (number : RefNum) (kind : RecordKind) (id : String) (position : Vec3 Float32) :
    Reference :=
  ⟨number, kind, lowercase id, position, 0, 1, false⟩

def asDeleted (r : Reference) : Reference := { r with deleted := true }

end Reference

end DistantChunks
