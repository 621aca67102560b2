import DistantChunks.Proofs.CellRange
import DistantChunks.Proofs.SavedWorlds
import Mathlib.Data.List.Nodup

/-!
# Cells at the same coordinates

A document may split a cell over several entries. All of them are loaded, but a look-up finds only
the last entry at its coordinates, so what the others place is read only as far as the last one
places it as well. Nothing is lost exactly when every entry is covered by the last one at its
coordinates, as in documents that have one entry for each cell, `reads_of_nodup`.
-/

namespace DistantChunks

section LastIndex

variable {α : Type} {p : α → Bool} {before after as : List α} {a : α}

theorem lastIndex?_eq_none (h : ∀ b ∈ as, p b = false) : lastIndex? p as = none := by
  induction as with
  | nil => rfl
  | cons b as ih =>
    obtain ⟨hb, has⟩ := List.forall_mem_cons.1 h
    rw [lastIndex?, ih has, hb]
    rfl

theorem lastIndex?_append_cons (ha : p a = true) (hafter : ∀ b ∈ after, p b = false) :
    lastIndex? p (before ++ a :: after) = some before.length := by
  induction before with
  | nil => rw [List.nil_append, lastIndex?, lastIndex?_eq_none hafter, ha]; rfl
  | cons b before ih => rw [List.cons_append, lastIndex?, ih, List.length_cons]

theorem exists_last_of_mem (hmem : a ∈ as) (ha : p a = true) :
    ∃ before b after, as = before ++ b :: after ∧ p b = true ∧ ∀ c ∈ after, p c = false := by
  induction as generalizing a with
  | nil => cases hmem
  | cons c as ih =>
    by_cases hlater : ∃ d ∈ as, p d = true
    · obtain ⟨d, hd, hpd⟩ := hlater
      obtain ⟨before, b, after, rfl, hb, hafter⟩ := ih hd hpd
      exact ⟨c :: before, b, after, rfl, hb, hafter⟩
    · have hnone : ∀ d ∈ as, p d = false := fun d hd =>
        Bool.eq_false_iff.2 fun hpd => hlater ⟨d, hd, hpd⟩
      rcases List.mem_cons.1 hmem with rfl | hmem
      · exact ⟨[], a, as, rfl, ha, hnone⟩
      · exact absurd ⟨a, hmem, ha⟩ hlater

end LastIndex

def Cell.Places (c : Cell) (r : Reference) : Prop :=
  ∃ context ∈ c.contexts, context.corrupt = false ∧ r ∈ context.refs

/-- The handle counts the cells that stand before the last one at the coordinates. -/
def CellHandle.IsLastAt (h : CellHandle) (cells : List Cell) (x y : Int32) : Prop :=
  ∃ before c after, cells = before ++ c :: after ∧ before.length = h.index ∧
    c.isAt x y = true ∧ ∀ d ∈ after, d.isAt x y = false

/-- The cell that the last handle at the coordinates denotes. -/
def Cell.IsLastAt (cells : List Cell) (x y : Int32) (c : Cell) : Prop :=
  ∃ h : CellHandle, h.IsLastAt cells x y ∧ cells[h.index]? = some c

/-- Everything that one cell places or leases, another one does as well. -/
structure Cell.IsCoveredBy (c d : Cell) : Prop where
  places : ∀ r, c.Places r → d.Places r
  leases : ∀ r ∈ c.leased, r ∈ d.leased

namespace World

def Reads (w : World) (x y : Int32) (r : Reference) : Prop :=
  ∃ h, w.find? x y = some h ∧ ∃ context refs, w.readContext h context = .ok refs ∧ r ∈ refs

def Leases (w : World) (x y : Int32) (r : Reference) : Prop :=
  ∃ h, w.find? x y = some h ∧ r ∈ w.leasedRefs h

/-- The cell entries of a document. -/
def entries? (text : String) : Option (List Cell) := do
  match ← (← Json.read? text).fields? ["cells", "models"] with
  | [cells, _] => Json.defaulting [] (Json.arrayOf? Cell.ofJson?) cells
  | _ => none

variable {w : World} {x y : Int32} {c d : Cell} {handle : CellHandle} {r : Reference}

theorem entries?_of_load {text : String} (hload : load text = .ok w) :
    entries? text = some w.cells := by
  obtain ⟨j, hread, hw⟩ : ∃ j, Json.read? text = some j ∧ ofJson? j = some w := by
    rw [load] at hload
    split at hload
    · next w' hw =>
      cases hload
      exact Option.bind_eq_some_iff.1 hw
    · cases hload
  rw [ofJson?] at hw
  obtain ⟨fields, hfields, hw⟩ := Option.bind_eq_some_iff.1 hw
  simp only [entries?, hread, Option.bind_eq_bind, Option.bind_some, hfields]
  split at hw
  · obtain ⟨cells, hcells, hw⟩ := Option.bind_eq_some_iff.1 hw
    obtain ⟨models, -, hw⟩ := Option.bind_eq_some_iff.1 hw
    cases hw
    exact hcells
  · cases hw

theorem find?_of_isLastAt (h : handle.IsLastAt w.cells x y) : w.find? x y = some handle := by
  obtain ⟨before, c, after, hcells, hindex, hc, hafter⟩ := h
  rw [find?, hcells, lastIndex?_append_cons hc hafter, hindex]
  rfl

theorem exists_find?_of_isLastAt (h : c.IsLastAt w.cells x y) :
    ∃ handle, w.find? x y = some handle ∧ w.cell? handle = some c := by
  obtain ⟨handle, hlast, hcell⟩ := h
  exact ⟨handle, find?_of_isLastAt hlast, hcell⟩

theorem isLastAt_unique (hc : c.IsLastAt w.cells x y) (hd : d.IsLastAt w.cells x y) : c = d := by
  obtain ⟨handle, hfind, hcell⟩ := exists_find?_of_isLastAt hc
  obtain ⟨handle', hfind', hcell'⟩ := exists_find?_of_isLastAt hd
  rw [hfind, Option.some.injEq] at hfind'
  rw [hfind', hcell', Option.some.injEq] at hcell
  exact hcell.symm

theorem exists_isLastAt (hc : c ∈ w.cells) : ∃ d : Cell, d.IsLastAt w.cells c.x c.y := by
  obtain ⟨before, d, after, hcells, hd, hafter⟩ :=
    exists_last_of_mem hc (p := Cell.isAt c.x c.y) (by simp [Cell.isAt])
  exact ⟨d, ⟨before.length⟩, ⟨before, d, after, hcells, rfl, hd, hafter⟩, by simp [hcells]⟩

theorem exists_readContext_iff (hcell : w.cell? handle = some c) :
    (∃ context refs, w.readContext handle context = .ok refs ∧ r ∈ refs) ↔ c.Places r := by
  constructor
  · rintro ⟨i, refs, hread, hr⟩
    simp only [readContext, hcell] at hread
    split at hread
    · cases hread
    · next data hdata =>
      split at hread
      · cases hread
      · next hintact =>
        cases hread
        exact ⟨data, List.mem_of_getElem? hdata, by simpa using hintact, hr⟩
  · rintro ⟨data, hdata, hintact, hr⟩
    obtain ⟨i, hi⟩ := List.getElem?_of_mem hdata
    refine ⟨i, data.refs, ?_, hr⟩
    simp [readContext, hcell, hi, hintact]

theorem reads_iff (hd : d.IsLastAt w.cells x y) : w.Reads x y r ↔ d.Places r := by
  obtain ⟨handle, hfind, hcell⟩ := exists_find?_of_isLastAt hd
  simp only [Reads, hfind, Option.some.injEq, exists_eq_left', exists_readContext_iff hcell]

theorem leases_iff (hd : d.IsLastAt w.cells x y) : w.Leases x y r ↔ r ∈ d.leased := by
  obtain ⟨handle, hfind, hcell⟩ := exists_find?_of_isLastAt hd
  simp [Leases, hfind, leasedRefs, hcell]

theorem reads_of_nodup (hnodup : (w.cells.map fun c => (c.x, c.y)).Nodup) (hc : c ∈ w.cells) :
    (∀ r, c.Places r → w.Reads c.x c.y r) ∧ ∀ r ∈ c.leased, w.Leases c.x c.y r := by
  obtain ⟨d, hd⟩ := exists_isLastAt hc
  have hsame : d = c := by
    obtain ⟨handle, hfind, hcell⟩ := exists_find?_of_isLastAt hd
    obtain ⟨e, hmem, he, hx, hy⟩ := cell?_of_find? hfind
    obtain rfl : e = d := Option.some.inj (he.symm.trans hcell)
    exact List.inj_on_of_nodup_map hnodup hmem hc (Prod.ext hx hy)
  subst hsame
  exact ⟨fun r => (reads_iff hd).2, fun r => (leases_iff hd).2⟩

/-- Every entry of a document has a handle in the loaded world, through which exactly what the last
entry at its coordinates places or leases is read. So nothing that an entry has is lost if and only
if each entry is covered by the last one at its coordinates. -/
theorem load_reads_iff {text : String} (hload : load text = .ok w) :
    ∃ entries, entries? text = some entries ∧
      (∀ c ∈ entries, ∃ (d : Cell) (handle : CellHandle), d.IsLastAt entries c.x c.y ∧
        w.find? c.x c.y = some handle ∧ w.leasedRefs handle = d.leased ∧
        ∀ r, (∃ context refs, w.readContext handle context = .ok refs ∧ r ∈ refs) ↔ d.Places r) ∧
      ((∀ c ∈ entries, (∀ r, c.Places r → w.Reads c.x c.y r) ∧
          ∀ r ∈ c.leased, w.Leases c.x c.y r) ↔
        ∀ c ∈ entries, ∀ d : Cell, d.IsLastAt entries c.x c.y → c.IsCoveredBy d) := by
  refine ⟨w.cells, entries?_of_load hload, ?_, ?_⟩
  · intro c hc
    obtain ⟨d, hd⟩ := exists_isLastAt hc
    obtain ⟨handle, hfind, hcell⟩ := exists_find?_of_isLastAt hd
    exact ⟨d, handle, hd, hfind, by simp [leasedRefs, hcell],
      fun r => exists_readContext_iff hcell⟩
  · refine forall₂_congr fun c hc => ?_
    constructor
    · rintro ⟨hplaces, hleases⟩ d hd
      exact ⟨fun r hr => (reads_iff hd).1 (hplaces r hr),
        fun r hr => (leases_iff hd).1 (hleases r hr)⟩
    · intro hcovered
      obtain ⟨d, hd⟩ := exists_isLastAt hc
      exact ⟨fun r hr => (reads_iff hd).2 ((hcovered d hd).places r hr),
        fun r hr => (leases_iff hd).2 ((hcovered d hd).leases r hr)⟩

def well : Reference := ⟨⟨0, 3⟩, .static, "well", ⟨20000, -4096, 12.5⟩, 0, 1, false⟩

theorem load_save_of_wells {cells : List Cell}
    (hwells : ∀ r ∈ (⟨cells, ∅⟩ : World).references, r = well) :
    load (⟨cells, ∅⟩ : World).save = .ok ⟨cells, ∅⟩ := by
  refine load_of_save ?_ ?_ ?_
  · intro r hr
    rw [hwells r hr]
    decide
  · intro id hid
    exact absurd hid Std.ExtTreeMap.not_mem_empty
  · intro r hr
    rw [hwells r hr]
    decide +kernel

/-- A garden that is written as two entries, of which the second repeats what the first places. -/
def garden : World :=
  ⟨[(Cell.new 2 (-1)).pushContext [well],
    ((Cell.new 2 (-1)).pushCorruptContext.pushContext [well]).lease well], ∅⟩

theorem garden_load_reads :
    load garden.save = .ok garden ∧
      ∀ c ∈ garden.cells, (∀ r, c.Places r → garden.Reads c.x c.y r) ∧
        ∀ r ∈ c.leased, garden.Leases c.x c.y r := by
  have hload : load garden.save = .ok garden :=
    load_save_of_wells (by simp [references, Cell.references, Cell.new, Cell.pushContext,
      Cell.pushCorruptContext, Cell.lease])
  obtain ⟨entries, hentries, -, hall⟩ := load_reads_iff hload
  rw [entries?_of_load hload, Option.some.injEq] at hentries
  subst hentries
  refine ⟨hload, hall.2 fun c hc d hd => ?_⟩
  have hlast : Cell.IsLastAt garden.cells 2 (-1)
      (((Cell.new 2 (-1)).pushCorruptContext.pushContext [well]).lease well) :=
    ⟨⟨1⟩, ⟨[_], _, [], rfl, rfl, by decide, by simp⟩, rfl⟩
  have hposition : c.x = 2 ∧ c.y = -1 := by
    rcases List.mem_cons.1 hc with rfl | hc
    · exact ⟨rfl, rfl⟩
    · rw [List.mem_singleton.1 hc]
      exact ⟨rfl, rfl⟩
  rw [hposition.1, hposition.2] at hd
  rw [isLastAt_unique hd hlast]
  rcases List.mem_cons.1 hc with rfl | hc
  · refine ⟨fun r hr => ?_, fun r hr => by cases hr⟩
    obtain ⟨context, hcontext, hintact, hr⟩ := hr
    rw [List.mem_singleton.1 hcontext] at hr
    exact ⟨⟨[well], false⟩, by simp [Cell.new, Cell.pushContext, Cell.pushCorruptContext,
      Cell.lease], rfl, hr⟩
  · rw [List.mem_singleton.1 hc]
    exact ⟨fun r hr => hr, fun r hr => hr⟩

def meadow : World := ⟨[(Cell.new 2 (-1)).pushContext [well], .new 2 (-1)], ∅⟩

/-- The second entry of the meadow hides the well. -/
theorem meadow_loses_well :
    load meadow.save = .ok meadow ∧ ∃ entries, entries? meadow.save = some entries ∧
      ∃ c ∈ entries, c.Places well ∧ ¬ meadow.Reads c.x c.y well := by
  have hload : load meadow.save = .ok meadow :=
    load_save_of_wells (by simp [references, Cell.references, Cell.new, Cell.pushContext])
  have hlast : Cell.IsLastAt meadow.cells 2 (-1) (.new 2 (-1)) :=
    ⟨⟨1⟩, ⟨[_], _, [], rfl, rfl, by decide, by simp⟩, rfl⟩
  refine ⟨hload, meadow.cells, entries?_of_load hload, _, List.mem_cons_self, ?_, ?_⟩
  · exact ⟨⟨[well], false⟩, List.mem_singleton_self _, rfl, List.mem_singleton_self well⟩
  · change ¬ meadow.Reads 2 (-1) well
    rw [reads_iff hlast]
    simp [Cell.Places, Cell.new]

end World

end DistantChunks
