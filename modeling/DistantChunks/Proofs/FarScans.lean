import DistantChunks.Proofs.CellRange

/-!
# Scans of far chunks

A scan for a far chunk passes over containers where a scan for a near one takes them. Entries in
contexts are judged by their types before their deletions and leased entries after them, so the two
scans could part ways over a number that is a container here and something else there. Where every
number has one type, they meet the same events of all numbers but those of containers, and of these
a far scan finds none, `refs_run_far`.
-/

namespace DistantChunks

namespace CellStore

/-- The entries that a scan can come by, in the contexts and the leased lists of cells that are
found. -/
inductive Holds (records : CellStore) (r : Reference) : Prop
  | entry {x y : Int32} {h : CellHandle} {i : Nat} {entries : List Reference} :
    records.find? x y = some h → i < records.contextCount h →
    records.readContext h i = .ok entries → r ∈ entries → Holds records r
  | leased {x y : Int32} {h : CellHandle} :
    records.find? x y = some h → r ∈ records.leasedRefs h → Holds records r

def HasOneKindPerNumber (records : CellStore) : Prop :=
  ∀ r s : Reference, records.Holds r → records.Holds s → r.number = s.number → r.kind = s.kind

end CellStore

theorem RecordKind.isShown_far {k : RecordKind} (h : k ≠ .container) :
    k.isShown true = k.isShown false := by
  cases k <;> first | rfl | exact absurd rfl h

namespace Scan

variable {disabled : DisabledSet} {far : Bool} {n : RefNum} {records : CellStore}
  {size : Float32} {center : Vec2 Float32}

section Far

variable {r : Reference}

theorem entryEvent?_far (moved : List RefNum) (h : r.number = n → r.kind ≠ .container) :
    entryEvent? disabled true n moved r = entryEvent? disabled false n moved r := by
  by_cases hn : r.number = n
  · rw [entryEvent?, entryEvent?, RecordKind.isShown_far (h hn)]
  · rw [entryEvent?, entryEvent?, if_pos hn, if_pos hn]

theorem leasedEvent?_far (h : r.number = n → r.kind ≠ .container) :
    leasedEvent? disabled true n r = leasedEvent? disabled false n r := by
  by_cases hn : r.number = n
  · rw [leasedEvent?, leasedEvent?, RecordKind.isShown_far (h hn)]
  · rw [leasedEvent?, leasedEvent?, if_pos hn, if_pos hn]

/-- A number that is no container has the same events, near or far. -/
theorem events_far (h : ∀ r, records.Holds r → r.number = n → r.kind ≠ .container) :
    events disabled true n records size center = events disabled false n records size center := by
  refine List.flatMap_congr fun position _ => ?_
  rw [eventsAt, eventsAt]
  cases hfind : records.find? (Int32.ofInt position.1) (Int32.ofInt position.2) with
  | none => rfl
  | some cell =>
    dsimp only [cellEvents]
    congr 1
    · refine List.flatMap_congr fun context hcontext => ?_
      obtain ⟨i, hi, rfl⟩ := List.mem_map.1 hcontext
      cases hread : records.readContext cell i with
      | error e => rfl
      | ok entries =>
        refine List.filterMap_congr fun r hr => entryEvent?_far _ (h r ?_)
        exact .entry hfind (List.mem_range.1 hi) hread hr
    · exact List.filterMap_congr fun r hr => leasedEvent?_far (h r (.leased hfind hr))

end Far

theorem eq_of_entryEvent? {moved : List RefNum} {r e : Reference}
    (h : entryEvent? disabled far n moved r = some (.insert e)) : e = r := by
  grind [entryEvent?]

theorem eq_of_leasedEvent? {r e : Reference}
    (h : leasedEvent? disabled far n r = some (.insert e)) : e = r := by
  grind [leasedEvent?]

theorem holds_of_getElem?_run {e : Reference}
    (he : (run disabled far records size center).refs[n]? = some e) : records.Holds e := by
  rw [getElem?_run, settle_eq_some_iff] at he
  obtain ⟨position, -, hevent⟩ := List.mem_flatMap.1 (List.mem_of_getLast? he)
  rw [eventsAt] at hevent
  split at hevent
  · next cell hfind =>
    rcases List.mem_append.1 hevent with hevent | hevent
    · obtain ⟨context, hcontext, hevent⟩ := List.mem_flatMap.1 hevent
      obtain ⟨i, hi, rfl⟩ := List.mem_map.1 hcontext
      cases hread : records.readContext cell i with
      | error _ => rw [hread] at hevent; cases hevent
      | ok entries =>
        rw [hread] at hevent
        obtain ⟨r, hr, hr'⟩ := List.mem_filterMap.1 hevent
        exact .entry hfind (List.mem_range.1 hi) hread (eq_of_entryEvent? hr' ▸ hr)
    · obtain ⟨r, hr, hr'⟩ := List.mem_filterMap.1 hevent
      exact .leased hfind (eq_of_leasedEvent? hr' ▸ hr)
  · cases hevent

theorem kind_ne_container_of_far {e : Reference}
    (he : (run disabled true records size center).refs[n]? = some e) : e.kind ≠ .container := by
  obtain ⟨-, -, hshown, -⟩ := fits_of_getElem?_run disabled true n records he
  rintro hkind
  rw [hkind] at hshown
  cases hshown

theorem getElem?_run_far (h : records.HasOneKindPerNumber) {e : Reference} (he : records.Holds e)
    (hn : e.number = n) (hkind : e.kind ≠ .container) :
    (run disabled true records size center).refs[n]? =
      (run disabled false records size center).refs[n]? := by
  rw [getElem?_run, getElem?_run, events_far fun r hr hrn => ?_]
  rwa [h r e hr he (hrn.trans hn.symm)]

theorem getElem?_run_far_eq_some_iff (h : records.HasOneKindPerNumber) {e : Reference} :
    (run disabled true records size center).refs[n]? = some e ↔
      (run disabled false records size center).refs[n]? = some e ∧ e.kind ≠ .container := by
  constructor
  · intro he
    obtain ⟨hn, -⟩ := fits_of_getElem?_run disabled true n records he
    have hkind := kind_ne_container_of_far he
    rw [← getElem?_run_far h (holds_of_getElem?_run he) hn hkind]
    exact ⟨he, hkind⟩
  · rintro ⟨he, hkind⟩
    obtain ⟨hn, -⟩ := fits_of_getElem?_run disabled false n records he
    rwa [getElem?_run_far h (holds_of_getElem?_run he) hn hkind]

/-- A far scan finds what a near scan finds without the containers, and meets the same events of
every number that is none. -/
theorem refs_run_far (h : records.HasOneKindPerNumber) (disabled : DisabledSet) (size : Float32)
    (center : Vec2 Float32) :
    (run disabled true records size center).refs =
      (run disabled false records size center).refs.filter
        (fun _ r => decide (r.kind ≠ .container)) ∧
    ∀ n : RefNum, (∀ r, records.Holds r → r.number = n → r.kind ≠ .container) →
      events disabled true n records size center = events disabled false n records size center := by
  refine ⟨?_, fun n => events_far⟩
  ext n e
  rw [Std.ExtTreeMap.getElem?_filter', Option.filter_eq_some_iff, decide_eq_true_iff,
    getElem?_run_far_eq_some_iff h]

end Scan

theorem World.exists_of_holds {w : World} {r : Reference} (h : w.store.Holds r) :
    ∃ c ∈ w.cells, (∃ context ∈ c.contexts, r ∈ context.refs) ∨ r ∈ c.leased := by
  cases h with
  | @entry x y handle i entries hfind hi hread hr =>
    obtain ⟨c, hc, hcell, -⟩ := cell?_of_find? hfind
    refine ⟨c, hc, .inl ?_⟩
    simp only [store, readContext, hcell] at hread
    split at hread
    · cases hread
    · next context hcontext =>
      split at hread
      · cases hread
      · cases hread
        exact ⟨context, List.mem_of_getElem? hcontext, hr⟩
  | @leased x y handle hfind hr =>
    obtain ⟨c, hc, hcell, -⟩ := cell?_of_find? hfind
    simp only [store, leasedRefs, hcell] at hr
    exact ⟨c, hc, .inr hr⟩

/-- A market with a stall that is taken away and leased again, a chest, and a barrel that is leased
and whose lease is taken back. -/
def market : World :=
  let place (index : UInt32) (kind : RecordKind) (id : String) : Reference :=
    .new ⟨0, index⟩ kind id ⟨4096, 4096, 0⟩
  let stall := place 1 .static "stall"
  let chest := place 2 .container "chest"
  let barrel := place 3 .container "barrel"
  ⟨[(Cell.new 0 0).pushContext [stall, chest] |>.pushContext [stall.asDeleted]
    |>.lease stall |>.lease barrel |>.leaseDelete barrel], ∅⟩

theorem market_refs_run_far :
    market.store.HasOneKindPerNumber ∧
      (Scan.run .empty false market.store 1 ⟨0.5, 0.5⟩).refs.keys = [⟨0, 1⟩, ⟨0, 2⟩] ∧
      (Scan.run .empty true market.store 1 ⟨0.5, 0.5⟩).refs.keys = [⟨0, 1⟩] ∧
      (Scan.run .empty true market.store 1 ⟨0.5, 0.5⟩).refs =
        (Scan.run .empty false market.store 1 ⟨0.5, 0.5⟩).refs.filter
          fun _ r => decide (r.kind ≠ .container) := by
  have hcells : ∀ c ∈ market.cells,
      (∀ context ∈ c.contexts, ∀ r ∈ context.refs,
        r.kind = if r.number.index = 1 then .static else .container) ∧
      ∀ r ∈ c.leased, r.kind = if r.number.index = 1 then .static else .container := by
    decide
  have hkind (r : Reference) (h : market.store.Holds r) :
      r.kind = if r.number.index = 1 then .static else .container := by
    obtain ⟨c, hc, ⟨context, hcontext, hr⟩ | hr⟩ := World.exists_of_holds h
    · exact (hcells c hc).1 context hcontext r hr
    · exact (hcells c hc).2 r hr
  have hkinds : market.store.HasOneKindPerNumber := fun r s hr hs hnumber => by
    rw [hkind r hr, hkind s hs, hnumber]
  exact ⟨hkinds, by decide +kernel, by decide +kernel,
    (Scan.refs_run_far hkinds .empty 1 ⟨0.5, 0.5⟩).1⟩

end DistantChunks
