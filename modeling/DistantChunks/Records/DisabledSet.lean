import Std.Data.ExtTreeSet.Basic
import Std.Data.ExtTreeSet.Lemmas
import DistantChunks.Records.World

/-!
# Disabled objects

The numbers of the objects that are hidden at run time, whatever the records say.
-/

namespace DistantChunks

structure DisabledSet where
  refs : Std.ExtTreeSet RefNum

namespace DisabledSet

def empty : DisabledSet := ⟨∅⟩

def contains (s : DisabledSet) (n : RefNum) : Bool := s.refs.contains n

/-- Shows or hides an object, and says whether that is a change. -/
def enable (s : DisabledSet) (n : RefNum) (enabled : Bool) : Bool × DisabledSet :=
  if enabled then (s.contains n, ⟨s.refs.erase n⟩)
  else (!s.contains n, ⟨s.refs.insert n⟩)

theorem contains_enable (s : DisabledSet) (n m : RefNum) (enabled : Bool) :
    (s.enable n enabled).2.contains m = if n = m then !enabled else s.contains m := by
  cases enabled <;> by_cases h : n = m <;>
    simp [enable, contains, Std.ExtTreeSet.contains_insert, Std.ExtTreeSet.contains_erase, h]

def size (s : DisabledSet) : Nat := s.refs.size

def toList (s : DisabledSet) : List RefNum := s.refs.toList

def ofList (ns : List RefNum) : DisabledSet := ns.foldl (fun s n => (s.enable n false).2) empty

end DisabledSet

end DistantChunks
