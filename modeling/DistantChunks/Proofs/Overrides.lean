import DistantChunks.Chunk.Scan
import Mathlib.Data.List.Basic

/-!
# Overriding entries

What a scan finds for one number depends on the entries of that number alone. Each of them is an
event that erases the reference, puts one in its place, or is passed over. The events of a number
stand in the order in which the scan meets them, cell by cell, and `getElem?_refs_run` says that
the last one decides. Contexts that cannot be read and entries of other numbers leave no events.
-/

namespace DistantChunks

/-- The part of a store that concerns one number, with nothing in the place of what cannot be
read. -/
def CellStore.only (records : CellStore) (n : RefNum) : CellStore where
  find? := records.find?
  contextCount := records.contextCount
  readContext h context := match records.readContext h context with
    | .error _ => .ok []
    | .ok entries => .ok (entries.filter (·.number = n))
  movedRefs h := (records.movedRefs h).filter (· = n)
  leasedRefs h := (records.leasedRefs h).filter (·.number = n)

namespace Scan

/-- What an entry does to the reference of its number. -/
inductive Event where
  | erase
  | insert (r : Reference)

def Event.result : Event → Option Reference
  | erase => none
  | insert r => some r

/-- The reference that is known after some events, of which the last one decides. -/
def settle (known : Option Reference) (events : List Event) : Option Reference :=
  events.foldl (fun _ e => e.result) known

@[simp] theorem settle_nil (known : Option Reference) : settle known [] = known := rfl

theorem settle_append (known : Option Reference) (es fs : List Event) :
    settle known (es ++ fs) = settle (settle known es) fs := List.foldl_append

theorem settle_eq_some_iff (es : List Event) (r : Reference) :
    settle none es = some r ↔ es.getLast? = some (.insert r) := by
  rcases List.eq_nil_or_concat' es with rfl | ⟨front, last, rfl⟩
  · simp
  · rw [settle_append]
    cases last <;> simp [settle, Event.result]

/-- A loop whose steps leave events leaves those of its steps one after the other. -/
theorem settle_foldl {σ β : Type} (known : σ → Option Reference) (step : σ → β → σ)
    (events : β → List Event)
    (hstep : ∀ s b, known (step s b) = settle (known s) (events b)) (bs : List β) (s : σ) :
    known (bs.foldl step s) = settle (known s) (bs.flatMap events) := by
  induction bs generalizing s with
  | nil => rfl
  | cons b bs ih => rw [List.foldl_cons, ih, hstep, List.flatMap_cons, settle_append]

variable (disabled : DisabledSet) (far : Bool) (n : RefNum)

/-- The event of an entry of a context, in a cell with the given moved numbers. -/
def entryEvent? (moved : List RefNum) (r : Reference) : Option Event :=
  if r.number ≠ n then none
  else if n ∈ moved ∨ r.kind.isShown far = false then none
  else if r.deleted then some .erase
  else if disabled.contains n then none
  else some (.insert r)

def leasedEvent? (r : Reference) : Option Event :=
  if r.number ≠ n then none
  else if r.deleted then some .erase
  else if r.kind.isShown far = false ∨ disabled.contains n then none
  else some (.insert r)

def contextEvents (moved : List RefNum) : Except Failure (List Reference) → List Event
  | .error _ => []
  | .ok entries => entries.filterMap (entryEvent? disabled far n moved)

variable (records : CellStore)

/-- The events of a cell: those of its contexts in order, then those of its leased entries. -/
def cellEvents (h : CellHandle) : List Event :=
  ((List.range (records.contextCount h)).map (records.readContext h)).flatMap
      (contextEvents disabled far n (records.movedRefs h)) ++
    (records.leasedRefs h).filterMap (leasedEvent? disabled far n)

def eventsAt (position : Int × Int) : List Event :=
  match records.find? (Int32.ofInt position.1) (Int32.ofInt position.2) with
  | some h => cellEvents disabled far n records h
  | none => []

def events (size : Float32) (center : Vec2 Float32) : List Event :=
  (Coverage.cells size center).flatMap (eventsAt disabled far n records)

theorem getElem?_put (refs : RefTable) (r : Reference) :
    (put disabled refs r)[n]? =
      if r.number = n ∧ disabled.contains n = false then some r else refs[n]? := by
  by_cases hn : r.number = n
  · subst hn
    cases hd : disabled.contains r.number <;> simp [put, hd]
  · cases hd : disabled.contains r.number <;>
      simp [put, hd, hn, Std.ExtTreeMap.getElem?_insert]

theorem getElem?_takeEntry (moved : List RefNum) (refs : RefTable) (r : Reference) :
    (takeEntry disabled far moved refs r)[n]? =
      settle refs[n]? (entryEvent? disabled far n moved r).toList := by
  simp only [takeEntry, entryEvent?, List.contains_iff_mem]
  by_cases hn : r.number = n
  · subst hn
    grind [getElem?_put, settle, Event.result]
  · grind [getElem?_put, settle]

theorem getElem?_takeLeased (refs : RefTable) (r : Reference) :
    (takeLeased disabled far refs r)[n]? =
      settle refs[n]? (leasedEvent? disabled far n r).toList := by
  simp only [takeLeased, leasedEvent?]
  by_cases hn : r.number = n
  · subst hn
    grind [getElem?_put, settle, Event.result]
  · grind [getElem?_put, settle]

theorem getElem?_takeContext (moved : List RefNum) (s : Scan)
    (context : Except Failure (List Reference)) :
    (takeContext disabled far moved s context).refs[n]? =
      settle s.refs[n]? (contextEvents disabled far n moved context) := by
  cases context with
  | error e => rfl
  | ok entries =>
    simp only [takeContext, contextEvents, List.filterMap_eq_flatMap_toList]
    exact settle_foldl (fun refs : RefTable => refs[n]?) _ _
      (getElem?_takeEntry disabled far n moved) entries s.refs

theorem getElem?_takeCell (s : Scan) (h : CellHandle) :
    (takeCell disabled far records s h).refs[n]? =
      settle s.refs[n]? (cellEvents disabled far n records h) := by
  simp only [takeCell, cellEvents, List.filterMap_eq_flatMap_toList, settle_append]
  rw [settle_foldl (fun refs : RefTable => refs[n]?) _ _ (getElem?_takeLeased disabled far n),
    settle_foldl (fun s : Scan => s.refs[n]?) _ _
      (getElem?_takeContext disabled far n (records.movedRefs h))]

theorem getElem?_takeAt (s : Scan) (position : Int × Int) :
    (takeAt disabled far records s position).refs[n]? =
      settle s.refs[n]? (eventsAt disabled far n records position) := by
  cases h : records.find? (Int32.ofInt position.1) (Int32.ofInt position.2) with
  | none => simp only [takeAt, eventsAt, h, settle_nil]
  | some cell =>
    simpa only [takeAt, eventsAt, h] using getElem?_takeCell disabled far n records s cell

theorem getElem?_run (size : Float32) (center : Vec2 Float32) :
    (run disabled far records size center).refs[n]? =
      settle none (events disabled far n records size center) :=
  (settle_foldl (fun s : Scan => s.refs[n]?) _ _ (getElem?_takeAt disabled far n records) _
    empty).trans (by simp [empty, events])

/-- Only entries of the number that are shown and enabled are put in its place. -/
def Fits (r : Reference) : Prop :=
  r.number = n ∧ r.deleted = false ∧ r.kind.isShown far = true ∧ disabled.contains n = false

theorem fits_of_entryEvent? {moved : List RefNum} {r e : Reference}
    (h : entryEvent? disabled far n moved r = some (.insert e)) : Fits disabled far n e := by
  grind [entryEvent?, Fits]

theorem fits_of_leasedEvent? {r e : Reference}
    (h : leasedEvent? disabled far n r = some (.insert e)) : Fits disabled far n e := by
  grind [leasedEvent?, Fits]

theorem fits_of_insert_mem_cellEvents {h : CellHandle} {e : Reference}
    (he : .insert e ∈ cellEvents disabled far n records h) : Fits disabled far n e := by
  simp only [cellEvents, List.mem_append, List.mem_flatMap, List.mem_filterMap] at he
  rcases he with ⟨context, -, hc⟩ | ⟨r, -, hr⟩
  · cases context with
    | error _ => cases hc
    | ok entries =>
      obtain ⟨r, -, hr⟩ := List.mem_filterMap.1 hc
      exact fits_of_entryEvent? disabled far n hr
  · exact fits_of_leasedEvent? disabled far n hr

theorem fits_of_insert_mem_events {size : Float32} {center : Vec2 Float32} {e : Reference}
    (he : .insert e ∈ events disabled far n records size center) : Fits disabled far n e := by
  obtain ⟨position, -, hp⟩ := List.mem_flatMap.1 he
  simp only [eventsAt] at hp
  split at hp
  · exact fits_of_insert_mem_cellEvents disabled far n records hp
  · cases hp

theorem fits_of_getElem?_run {size : Float32} {center : Vec2 Float32} {e : Reference}
    (he : (run disabled far records size center).refs[n]? = some e) : Fits disabled far n e := by
  rw [getElem?_run, settle_eq_some_iff] at he
  exact fits_of_insert_mem_events disabled far n records (List.mem_of_getLast? he)

theorem entryEvent?_only (moved : List RefNum) :
    entryEvent? disabled far n (moved.filter (· = n)) = entryEvent? disabled far n moved := by
  funext r
  simp [entryEvent?]

theorem filterMap_entryEvent?_only (moved : List RefNum) (entries : List Reference) :
    (entries.filter (·.number = n)).filterMap (entryEvent? disabled far n moved) =
      entries.filterMap (entryEvent? disabled far n moved) := by
  rw [List.filterMap_filter]
  congr 1
  funext r
  by_cases hr : r.number = n <;> simp [entryEvent?, hr]

theorem filterMap_leasedEvent?_only (entries : List Reference) :
    (entries.filter (·.number = n)).filterMap (leasedEvent? disabled far n) =
      entries.filterMap (leasedEvent? disabled far n) := by
  rw [List.filterMap_filter]
  congr 1
  funext r
  by_cases hr : r.number = n <;> simp [leasedEvent?, hr]

theorem cellEvents_only (h : CellHandle) :
    cellEvents disabled far n (records.only n) h = cellEvents disabled far n records h := by
  have hcontext (i : Nat) :
      contextEvents disabled far n ((records.only n).movedRefs h)
          ((records.only n).readContext h i) =
        contextEvents disabled far n (records.movedRefs h) (records.readContext h i) := by
    simp only [CellStore.only]
    cases records.readContext h i with
    | error _ => rfl
    | ok entries =>
      simp only [contextEvents, entryEvent?_only, filterMap_entryEvent?_only]
  simp only [cellEvents, List.flatMap_map, hcontext]
  congr 1
  exact filterMap_leasedEvent?_only disabled far n (records.leasedRefs h)

theorem events_only (size : Float32) (center : Vec2 Float32) :
    events disabled far n (records.only n) size center =
      events disabled far n records size center := by
  simp only [events]
  congr 1
  funext position
  simp only [eventsAt, cellEvents_only]
  rfl

/-- The last event of a number decides what a scan finds for it, which is then an entry of that
number that is neither deleted nor filtered nor disabled. What cannot be read and what concerns
other numbers could as well be missing from the store. -/
theorem getElem?_refs_run (size : Float32) (center : Vec2 Float32) :
    (∀ e, (run disabled far records size center).refs[n]? = some e ↔
      (events disabled far n records size center).getLast? = some (.insert e)) ∧
    ((run disabled far records size center).refs[n]? = none ↔
      ∀ e, (events disabled far n records size center).getLast? ≠ some (.insert e)) ∧
    (∀ e, (run disabled far records size center).refs[n]? = some e →
      e.number = n ∧ e.deleted = false ∧ e.kind.isShown far = true ∧
        disabled.contains n = false) ∧
    (run disabled far (records.only n) size center).refs[n]? =
      (run disabled far records size center).refs[n]? := by
  have hlast (e : Reference) : (run disabled far records size center).refs[n]? = some e ↔
      (events disabled far n records size center).getLast? = some (.insert e) := by
    rw [getElem?_run, settle_eq_some_iff]
  refine ⟨hlast, ?_, ?_, ?_⟩
  · simp only [Option.eq_none_iff_forall_ne_some, ne_eq, hlast]
  · intro e he
    exact fits_of_getElem?_run disabled far n records he
  · rw [getElem?_run, getElem?_run, events_only]

end Scan

end DistantChunks
