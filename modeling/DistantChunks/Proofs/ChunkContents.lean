import DistantChunks.Proofs.BuildSteps
import DistantChunks.Proofs.Overrides

/-!
# What a chunk contains

Grouping lists no reference that was not scanned, synthesis places no reference that is not listed,
and a scan passes over what is disabled. So a chunk never contains an object that was disabled when
it was built.
-/

namespace DistantChunks

section Values

variable {α β : Type} [Ord α] [Std.TransOrd α]

theorem values_eq_map_toList (t : Std.ExtTreeMap α β) : t.values = t.toList.map (·.2) := by
  obtain ⟨t⟩ := t
  induction t with
  | mk t =>
    change t.inner.values = (Std.DTreeMap.Internal.Impl.Const.toList t.inner).map (·.2)
    rw [Std.DTreeMap.Internal.Impl.values_eq_map_snd,
      Std.DTreeMap.Internal.Impl.Const.toList_eq_toListModel_map, List.map_map]
    rfl

theorem mem_values_iff [Std.LawfulEqOrd α] {t : Std.ExtTreeMap α β} {b : β} :
    b ∈ t.values ↔ ∃ a : α, t[a]? = some b := by
  simp [values_eq_map_toList, Std.ExtTreeMap.mem_toList_iff_getElem?_eq_some]

end Values

namespace Collection

def references (c : Collection) : List Reference := c.lists.flatMap (·.instances)

theorem references_add_subset (c : Collection) (path : String) (template : Shared Template)
    (r : Reference) : (c.add path template r).references ⊆ r :: c.references := by
  intro s hs
  simp only [references, add] at hs ⊢
  split at hs
  · simp only [List.flatMap_map, List.mem_flatMap] at hs
    obtain ⟨l, hl, hs⟩ := hs
    have hmem : s ∈ l.instances ++ [r] := by
      split at hs
      · exact hs
      · exact List.mem_append_left _ hs
    rcases List.mem_append.1 hmem with hs | hs
    · exact List.mem_cons_of_mem r (List.mem_flatMap.2 ⟨l, hl, hs⟩)
    · rw [List.mem_singleton.1 hs]
      exact List.mem_cons_self
  · simp only [List.flatMap_append, List.flatMap_singleton, List.mem_append] at hs
    rcases hs with hs | hs
    · exact List.mem_cons_of_mem r hs
    · rw [List.mem_singleton.1 hs]
      exact List.mem_cons_self

end Collection

namespace Grouping

variable {σ : Type} {v : ChunkView} {config : PagingConfig} {models : ModelResolver}
  {source : TemplateSource σ}

theorem references_subset_of_step {c c' : Collection} {r : Reference} {s s' : σ}
    (h : step v config models source c r s = (.ok c', s')) : c'.references ⊆ r :: c.references := by
  have htakes := takes v config models source c r s
  rw [h] at htakes
  cases htakes with
  | skipped | invisible | small => exact List.subset_cons_self r _
  | listed => exact c.references_add_subset _ _ r

theorem references_subset_of_run {c c' : Collection} {rs : List Reference} {s s' : σ}
    (h : run v config models source c rs s = (.ok c', s')) :
    c'.references ⊆ rs ++ c.references := by
  induction rs generalizing c s with
  | nil =>
    cases h
    exact List.Subset.refl _
  | cons r rs ih =>
    unfold run at h
    split at h
    · cases h
    · rename_i d t hstep
      have hd := references_subset_of_step hstep
      intro e he
      rcases List.mem_append.1 (ih h he) with he | he
      · simp [he]
      · rcases List.mem_cons.1 (hd he) with rfl | he <;> simp_all

end Grouping

theorem Synthesis.mem_references_of_contains {config : PagingConfig} {v : ChunkView}
    {c : Collection} {n : RefNum} (h : (ofCollection config v c).chunk.contains n = true) :
    ∃ r ∈ c.references, r.number = n := by
  simp only [ofCollection, Chunk.contains, List.any_map, List.any_eq_true, placeAll,
    List.mem_flatMap, List.mem_filterMap, place?, Option.map_eq_some_iff] at h
  obtain ⟨p, ⟨l, hl, r, hr, copy, -, rfl⟩, hn⟩ := h
  exact ⟨r, List.mem_flatMap.2 ⟨l, hl, hr⟩, by simpa using hn⟩

namespace Sources

variable {s : Sources} {v : ChunkView} {uploads : Bool} {cache : TemplateCache} {chunk : Chunk}

/-- A build that succeeds groups what it has scanned and synthesizes it. -/
theorem exists_collection_of_build (h : (s.build v uploads cache).1.result = .ok chunk) :
    ∃ c : Collection, c.references ⊆ (s.refs v).values ∧
      (Synthesis.ofCollection s.config v c).chunk = chunk := by
  have hsubset {c : Collection} (hc : (s.group v cache).1 = .ok c) :
      c.references ⊆ (s.refs v).values := by
    have hrun := Grouping.references_subset_of_run (Prod.ext hc rfl)
    simpa [Collection.references, Collection.empty] using hrun
  have hbuilds := s.builds v uploads cache
  rw [h] at hbuilds
  generalize (s.build v uploads cache).2 = grown at hbuilds
  cases hbuilds with
  | built hc | queued _ hc => exact ⟨_, hsubset hc, rfl⟩

theorem id_of_build (h : (s.build v uploads cache).1.result = .ok chunk) : chunk.id = v.id := by
  obtain ⟨c, -, rfl⟩ := exists_collection_of_build h
  rfl

/-- A chunk contains nothing that is disabled when it is built. -/
theorem enabled_of_build (h : (s.build v uploads cache).1.result = .ok chunk) {n : RefNum}
    (hn : chunk.contains n = true) : s.disabled.contains n = false := by
  obtain ⟨c, hsubset, rfl⟩ := exists_collection_of_build h
  obtain ⟨r, hr, rfl⟩ := Synthesis.mem_references_of_contains hn
  obtain ⟨m, hm⟩ := mem_values_iff.1 (hsubset hr)
  obtain ⟨hnumber, -, -, henabled⟩ := Scan.fits_of_getElem?_run s.disabled _ m s.records hm
  exact hnumber ▸ henabled

end Sources

end DistantChunks
