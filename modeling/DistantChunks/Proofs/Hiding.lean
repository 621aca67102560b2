import DistantChunks.Proofs.ChunkContents

/-!
# What disabling hides

A scan with disabled objects and one without any go side by side: after every step the table of the
first is that of the second without the disabled numbers. So disabling an object takes its own
number out of what is found and changes nothing else, whatever overrides, deletes or moves it on
the way.
-/

namespace DistantChunks

namespace DisabledSet

theorem contains_empty (n : RefNum) : empty.contains n = false := by
  simp [empty, contains]

variable (disabled : DisabledSet)

def hide (refs : RefTable) : RefTable := refs.filter fun n _ => !disabled.contains n

theorem getElem?_hide (refs : RefTable) (n : RefNum) :
    (disabled.hide refs)[n]? = if disabled.contains n then none else refs[n]? := by
  rw [hide, Std.ExtTreeMap.getElem?_filter']
  cases disabled.contains n <;> cases refs[n]? <;> rfl

theorem hide_empty : disabled.hide ∅ = ∅ := by
  ext n
  simp [getElem?_hide]

theorem hide_erase (refs : RefTable) (n : RefNum) :
    disabled.hide (refs.erase n) = (disabled.hide refs).erase n := by
  ext m
  grind [getElem?_hide]

/-- What one scan puts is passed over by the other if it is disabled. -/
theorem hide_put (refs : RefTable) (r : Reference) :
    disabled.hide (Scan.put .empty refs r) = Scan.put disabled (disabled.hide refs) r := by
  ext m
  grind [getElem?_hide, Scan.getElem?_put, contains_empty]

end DisabledSet

namespace Scan

/-- The scan that has found the same without what is disabled. -/
def without (s : Scan) (disabled : DisabledSet) : Scan := { s with refs := disabled.hide s.refs }

variable (disabled : DisabledSet) (far : Bool)

theorem empty_without : empty.without disabled = empty := by
  rw [without, empty, disabled.hide_empty]

theorem takeEntry_hide (moved : List RefNum) (refs : RefTable) (r : Reference) :
    takeEntry disabled far moved (disabled.hide refs) r =
      disabled.hide (takeEntry .empty far moved refs r) := by
  simp only [takeEntry, apply_ite disabled.hide, disabled.hide_erase, disabled.hide_put]

theorem takeLeased_hide (refs : RefTable) (r : Reference) :
    takeLeased disabled far (disabled.hide refs) r =
      disabled.hide (takeLeased .empty far refs r) := by
  simp only [takeLeased, apply_ite disabled.hide, disabled.hide_erase, disabled.hide_put]

theorem takeContext_without (moved : List RefNum) (s : Scan)
    (context : Except Failure (List Reference)) :
    takeContext disabled far moved (s.without disabled) context =
      (takeContext .empty far moved s context).without disabled := by
  cases context with
  | error e => rfl
  | ok entries =>
    simp only [takeContext, without]
    rw [List.foldl_hom disabled.hide (takeEntry_hide disabled far moved)]

variable (records : CellStore)

theorem takeCell_without (s : Scan) (h : CellHandle) :
    takeCell disabled far records (s.without disabled) h =
      (takeCell .empty far records s h).without disabled := by
  simp only [takeCell]
  rw [List.foldl_hom (without · disabled) (takeContext_without disabled far (records.movedRefs h))]
  simp only [without]
  rw [List.foldl_hom disabled.hide (takeLeased_hide disabled far)]

theorem takeAt_without (s : Scan) (position : Int × Int) :
    takeAt disabled far records (s.without disabled) position =
      (takeAt .empty far records s position).without disabled := by
  simp only [takeAt]
  split
  · exact takeCell_without disabled far records s _
  · rfl

theorem run_eq_without (size : Float32) (center : Vec2 Float32) :
    run disabled far records size center =
      (run .empty far records size center).without disabled := by
  simp only [run]
  rw [← List.foldl_hom (without · disabled) (takeAt_without disabled far records),
    empty_without]

end Scan

/-- What a scan finds with disabled objects is what it finds without any, restricted to the other
numbers. So a chunk places no object that is disabled when it is built. -/
theorem Sources.refs_scan_eq_filter (s : Sources) :
    (∀ size center far, (s.scan size center far).refs =
      ({ s with disabled := .empty }.scan size center far).refs.filter
        fun n _ => !s.disabled.contains n) ∧
    (∀ size center far n, (s.scan size center far).refs[n]? =
      if s.disabled.contains n then none
      else ({ s with disabled := .empty }.scan size center far).refs[n]?) ∧
    (∀ v uploads cache chunk, (s.build v uploads cache).1.result = .ok chunk →
      ∀ p ∈ chunk.placements, s.disabled.contains p.number = false) := by
  have hscan (size : Float32) (center : Vec2 Float32) (far : Bool) :
      (s.scan size center far).refs =
        s.disabled.hide ({ s with disabled := .empty }.scan size center far).refs :=
    congrArg Scan.refs (Scan.run_eq_without s.disabled far s.records size center)
  refine ⟨hscan, fun size center far n => ?_, fun v uploads cache chunk hchunk p hp => ?_⟩
  · rw [hscan, s.disabled.getElem?_hide]
  · have hcontains : chunk.contains p.number = true :=
      List.any_eq_true.2 ⟨p, hp, beq_self_eq_true p.number⟩
    exact enabled_of_build hchunk hcontains

end DistantChunks
