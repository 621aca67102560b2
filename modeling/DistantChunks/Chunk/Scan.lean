import DistantChunks.Chunk.Coverage
import DistantChunks.Records.DisabledSet

/-!
# Scanning cells for references

The contexts of a cell are read in order, then its leased references. A later entry of a number
replaces an earlier one and a deletion takes it back, in whatever cell it stands. In contexts,
moved references and types that are not shown are passed over before deletions are looked at;
leased deletions always count. A context that cannot be read is noted and passed over.
-/

namespace DistantChunks

abbrev RefTable := Std.ExtTreeMap RefNum Reference

/-- The references found so far, and the contexts that could not be read. -/
structure Scan where
  refs : RefTable
  unreadable : List Failure

namespace Scan

variable (disabled : DisabledSet) (far : Bool)

def empty : Scan := ⟨∅, []⟩

/-- Takes an entry that may be shown unless it is disabled. -/
def put (refs : RefTable) (r : Reference) : RefTable :=
  if disabled.contains r.number then refs else refs.insert r.number r

def takeEntry (moved : List RefNum) (refs : RefTable) (r : Reference) : RefTable :=
  if moved.contains r.number then refs
  else if !r.kind.isShown far then refs
  else if r.deleted then refs.erase r.number
  else put disabled refs r

def takeLeased (refs : RefTable) (r : Reference) : RefTable :=
  if r.deleted then refs.erase r.number
  else if !r.kind.isShown far then refs
  else put disabled refs r

def takeContext (moved : List RefNum) (s : Scan) : Except Failure (List Reference) → Scan
  | .error e => { s with unreadable := s.unreadable ++ [e] }
  | .ok entries => { s with refs := entries.foldl (takeEntry disabled far moved) s.refs }

variable (records : CellStore)

def takeCell (s : Scan) (h : CellHandle) : Scan :=
  let contexts := (List.range (records.contextCount h)).map (records.readContext h)
  let s := contexts.foldl (takeContext disabled far (records.movedRefs h)) s
  { s with refs := (records.leasedRefs h).foldl (takeLeased disabled far) s.refs }

def takeAt (s : Scan) (position : Int × Int) : Scan :=
  match records.find? (Int32.ofInt position.1) (Int32.ofInt position.2) with
  | some h => takeCell disabled far records s h
  | none => s

def run (size : Float32) (center : Vec2 Float32) : Scan :=
  (Coverage.cells size center).foldl (takeAt disabled far records) empty

end Scan

end DistantChunks
