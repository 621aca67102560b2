import DistantChunks.Proofs.ChunkContents

/-!
# What a build does to the templates

A build asks the template cache for one template after the other. Whether or not it succeeds in the
end, the cache keeps what it had and gains only templates that the loader has supplied. It fails
only for a reference that it draws, by the look-up of its model or by the loader.
-/

namespace DistantChunks

namespace TemplateCache

/-- The second cache is the first with templates that its loader has supplied. -/
structure Grows (c d : TemplateCache) : Prop where
  loader_eq : d.loader = c.loader
  uploads_eq : d.uploads = c.uploads
  kept : ∀ (path : String) (t : Shared Template), c.templates[path]? = some t →
    d.templates[path]? = some t
  gained : ∀ (path : String) (t : Shared Template), d.templates[path]? = some t →
    c.templates[path]? = some t ∨
      c.templates[path]? = none ∧ ∃ root, c.loader path = .ok root ∧ t.value = .new path root

/-- A cache that grows and puts nothing but trees of new templates into the queue. -/
structure Loads (c d : TemplateCache) : Prop extends c.Grows d where
  queued : ∃ roots : List (Node Float32), d.queue = roots.foldl UploadQueue.enqueue c.queue ∧
    (c.uploads = false → roots = []) ∧
      ∀ root ∈ roots, ∃ (path : String) (t : Shared Template),
        c.templates[path]? = none ∧ d.templates[path]? = some t ∧ t.value.root = root

variable {b c d : TemplateCache}

namespace Grows

theorem refl (c : TemplateCache) : c.Grows c := ⟨rfl, rfl, fun _ _ h => h, fun _ _ h => .inl h⟩

theorem eq_none (h : c.Grows d) {path : String} (hd : d.templates[path]? = none) :
    c.templates[path]? = none := by
  cases hc : c.templates[path]? with
  | none => rfl
  | some t => rw [h.kept path t hc] at hd; cases hd

theorem trans (h : b.Grows c) (h' : c.Grows d) : b.Grows d where
  loader_eq := h'.loader_eq.trans h.loader_eq
  uploads_eq := h'.uploads_eq.trans h.uploads_eq
  kept path t ht := h'.kept path t (h.kept path t ht)
  gained path t ht := by
    rcases h'.gained path t ht with ht | ⟨hnone, hroot⟩
    · exact h.gained path t ht
    · exact .inr ⟨h.eq_none hnone, h.loader_eq ▸ hroot⟩

theorem enqueue (h : c.Grows d) (n : Node Float32) : c.Grows (d.enqueue n) :=
  ⟨h.loader_eq, h.uploads_eq, h.kept, h.gained⟩

end Grows

theorem grows_insert {path : String} {root : Node Float32} (hnone : c.templates[path]? = none)
    (hroot : c.loader path = .ok root) (serial : Nat) :
    c.Grows { c with templates := c.templates.insert path ⟨serial, .new path root⟩ } where
  loader_eq := rfl
  uploads_eq := rfl
  kept p t ht := by
    have hp : path ≠ p := by
      rintro rfl
      rw [hnone] at ht
      cases ht
    rw [Std.ExtTreeMap.getElem?_insert, if_neg (by simpa using hp)]
    exact ht
  gained p t ht := by
    by_cases hp : path = p
    · subst hp
      rw [Std.ExtTreeMap.getElem?_insert_self] at ht
      cases ht
      exact .inr ⟨hnone, root, hroot, rfl⟩
    · rw [Std.ExtTreeMap.getElem?_insert, if_neg (by simpa using hp)] at ht
      exact .inl ht

namespace Loads

theorem refl (c : TemplateCache) : c.Loads c := ⟨.refl c, [], rfl, fun _ => rfl, by simp⟩

theorem trans (h : b.Loads c) (h' : c.Loads d) : b.Loads d where
  toGrows := h.toGrows.trans h'.toGrows
  queued := by
    obtain ⟨roots, hqueue, hnone, hnew⟩ := h.queued
    obtain ⟨roots', hqueue', hnone', hnew'⟩ := h'.queued
    refine ⟨roots ++ roots', ?_, fun huploads => ?_, fun root hroot => ?_⟩
    · rw [hqueue', hqueue, List.foldl_append]
    · rw [hnone huploads, hnone' (h.uploads_eq.trans huploads), List.append_nil]
    · rcases List.mem_append.1 hroot with hroot | hroot
      · obtain ⟨path, t, hb, hc, ht⟩ := hnew root hroot
        exact ⟨path, t, hb, h'.kept path t hc, ht⟩
      · obtain ⟨path, t, hc, hd, ht⟩ := hnew' root hroot
        exact ⟨path, t, h.eq_none hc, hd, ht⟩

end Loads

/-- The three ways in which a cache answers, with the cache after it. -/
inductive Gets (c : TemplateCache) (path : String) (compile : Bool) :
    Except Failure (Shared Template) × TemplateCache → Prop
  | cached {t : Shared Template} : c.templates[path]? = some t → Gets c path compile (.ok t, c)
  | failed {cause : Failure} : c.templates[path]? = none → c.loader path = .error cause →
    Gets c path compile (.error (loadFailure path cause), { c with loads := c.loads + 1 })
  | loaded {root : Node Float32} : c.templates[path]? = none → c.loader path = .ok root →
    Gets c path compile (.ok ⟨c.nextSerial, .new path root⟩, { c with
      loads := c.loads + 1
      templates := c.templates.insert path ⟨c.nextSerial, .new path root⟩
      nextSerial := c.nextSerial + 1
      queue := if compile && c.uploads then c.queue.enqueue root else c.queue })

theorem gets (c : TemplateCache) (path : String) (compile : Bool) :
    c.Gets path compile (get path compile c) := by
  cases ht : c.templates[path]? with
  | some t =>
    simp only [get, ht]
    exact .cached ht
  | none =>
    cases hl : c.loader path with
    | error cause =>
      simp only [get, ht, load, hl]
      exact .failed ht hl
    | ok root =>
      have hloaded : c.Gets path compile _ := .loaded ht hl
      simp only [get, ht, load, hl]
      split
      · rwa [if_pos ‹_›] at hloaded
      · rwa [if_neg ‹_›] at hloaded

theorem loads_get (c : TemplateCache) (path : String) (compile : Bool) :
    c.Loads (get path compile c).2 := by
  have hgets := c.gets path compile
  generalize get path compile c = got at hgets
  cases hgets with
  | cached => exact .refl c
  | failed =>
    exact ⟨⟨rfl, rfl, fun _ _ h => h, fun _ _ h => .inl h⟩, [], rfl, fun _ => rfl, by simp⟩
  | @loaded root hnone hroot =>
    have hgrows := grows_insert hnone hroot c.nextSerial
    refine ⟨⟨rfl, rfl, hgrows.kept, hgrows.gained⟩, ?_⟩
    by_cases hup : (compile && c.uploads) = true
    · refine ⟨[root], by simp [hup], fun h => by simp [h] at hup, fun r hr => ?_⟩
      exact ⟨path, ⟨c.nextSerial, .new path root⟩, hnone, Std.ExtTreeMap.getElem?_insert_self,
        (List.mem_singleton.1 hr).symm⟩
    · exact ⟨[], by simp [hup], fun _ => rfl, by simp⟩

end TemplateCache

namespace Grouping

variable {v : ChunkView} {config : PagingConfig} {models : ModelResolver}

theorem loads_run (c : Collection) (rs : List Reference) (cache : TemplateCache) :
    cache.Loads (run v config models TemplateCache.get c rs cache).2 :=
  rel_run .refl .trans (fun path cache => cache.loads_get path v.compile) c rs cache

variable (models) in
/-- Why a reference makes a build fail: its model cannot be looked up, or its template is not in the
cache and cannot be loaded. -/
inductive Fault (cache : TemplateCache) (r : Reference) : Failure → Prop
  | model {e : Failure} : models r.kind (lowercase r.id) = .error e → Fault cache r e
  | template {model : String} {cause : Failure} : models r.kind (lowercase r.id) = .ok model →
    model ≠ "" → cache.templates[meshPath model]? = none →
    cache.loader (meshPath model) = .error cause →
    Fault cache r (TemplateCache.loadFailure (meshPath model) cause)

theorem Fault.of_grows {c d : TemplateCache} (h : c.Grows d) {r : Reference} {e : Failure}
    (hd : Fault models d r e) : Fault models c r e := by
  cases hd with
  | model hmodel => exact .model hmodel
  | template hmodel hne hnone hcause =>
    exact .template hmodel hne (h.eq_none hnone) (h.loader_eq ▸ hcause)

theorem exists_fault_of_run {c : Collection} {rs : List Reference} {cache : TemplateCache}
    {e : Failure} (h : (run v config models TemplateCache.get c rs cache).1 = .error e) :
    ∃ r ∈ rs, v.admits config r = true ∧ Fault models cache r e := by
  induction rs generalizing c cache with
  | nil => cases h
  | cons r rs ih =>
    have hlater {d : Collection} {later : TemplateCache} (hgrows : cache.Grows later)
        (hlater : (run v config models TemplateCache.get d rs later).1 = .error e) :
        ∃ r' ∈ r :: rs, v.admits config r' = true ∧ Fault models cache r' e := by
      obtain ⟨r', hmem, hadmits, hfault⟩ := ih hlater
      exact ⟨r', List.mem_cons_of_mem r hmem, hadmits, hfault.of_grows hgrows⟩
    have htakes := takes v config models TemplateCache.get c r cache
    unfold run at h
    generalize step v config models TemplateCache.get c r cache = taken at htakes h
    cases htakes with
    | skipped | invisible => exact hlater (.refl cache) h
    | small | listed => exact hlater (cache.loads_get _ v.compile).toGrows h
    | unresolved hadmits hmodel =>
      cases h
      exact ⟨r, List.mem_cons_self, hadmits, .model hmodel⟩
    | @unloaded model _ hadmits hmodel hne hfailed =>
      cases h
      have hgets := cache.gets (meshPath model) v.compile
      generalize TemplateCache.get (meshPath model) v.compile cache = got at hgets hfailed
      cases hgets with
      | cached | loaded => cases hfailed
      | failed hnone hcause =>
        cases hfailed
        exact ⟨r, List.mem_cons_self, hadmits, .template hmodel hne hnone hcause⟩

theorem exists_fault_of_ofTable {refs : RefTable} {cache : TemplateCache} {e : Failure}
    (h : (ofTable v config models TemplateCache.get refs cache).1 = .error e) :
    ∃ (n : RefNum) (r : Reference), refs[n]? = some r ∧ v.admits config r = true ∧
      Fault models cache r e := by
  obtain ⟨r, hr, hadmits, hfault⟩ := exists_fault_of_run h
  obtain ⟨n, hn⟩ := mem_values_iff.1 hr
  exact ⟨n, r, hn, hadmits, hfault⟩

end Grouping

namespace Sources

variable {s : Sources} {v : ChunkView} {uploads : Bool} {cache : TemplateCache} {e : Failure}

theorem grows_build (s : Sources) (v : ChunkView) (uploads : Bool) (cache : TemplateCache) :
    cache.Grows (s.build v uploads cache).2 := by
  have hbuilds := s.builds v uploads cache
  have hgrows : cache.Grows (s.group v cache).2 := (Grouping.loads_run _ _ _).toGrows
  generalize (s.build v uploads cache).1.result = result, (s.build v uploads cache).2 = grown
    at hbuilds
  cases hbuilds with
  | failed | built => exact hgrows
  | queued n => exact hgrows.enqueue n

theorem loads_build (h : (s.build v uploads cache).1.result = .error e) :
    cache.Loads (s.build v uploads cache).2 := by
  have hbuilds := s.builds v uploads cache
  generalize (s.build v uploads cache).1.result = result, (s.build v uploads cache).2 = grown
    at hbuilds h
  cases hbuilds with
  | failed => exact Grouping.loads_run _ _ _
  | built | queued => cases h

theorem exists_fault_of_build (h : (s.build v uploads cache).1.result = .error e) :
    ∃ (n : RefNum) (r : Reference), (s.refs v)[n]? = some r ∧ v.admits s.config r = true ∧
      Grouping.Fault s.models cache r e := by
  have hbuilds := s.builds v uploads cache
  generalize (s.build v uploads cache).1.result = result, (s.build v uploads cache).2 = grown
    at hbuilds h
  cases hbuilds with
  | failed hgroup =>
    cases h
    exact Grouping.exists_fault_of_ofTable hgroup
  | built | queued => cases h

end Sources

end DistantChunks
