import DistantChunks.Proofs.Handles
import DistantChunks.Proofs.Serving
import DistantChunks.Proofs.TemplateGrowth

/-!
# Chunks keep their templates

As long as a chunk is cached or held, the template cache has the very templates that the chunk was
built from, and no others for their paths. Pruning cannot drop them, since the chunk holds them;
and what is held is always what the cache has, since a path is loaded anew only after its template
has been dropped.
-/

namespace DistantChunks

namespace TemplateCache

/-- The cache has this very template. -/
def Has (c : TemplateCache) (t : Shared Template) : Prop := c.templates[t.value.path]? = some t

/-- Every template stands at its own path and has a serial number of its own. -/
structure IsNumbered (c : TemplateCache) : Prop where
  path_eq : ∀ (path : String) (t : Shared Template), c.templates[path]? = some t →
    t.value.path = path
  serial_lt : ∀ (path : String) (t : Shared Template), c.templates[path]? = some t →
    t.serial < c.nextSerial
  serial_inj : ∀ (path path' : String) (t t' : Shared Template), c.templates[path]? = some t →
    c.templates[path']? = some t' → t.serial = t'.serial → path = path'

variable {c d : TemplateCache} {t u : Shared Template} {path : String} {compile : Bool}

theorem Grows.has (h : c.Grows d) (ht : c.Has t) : d.Has t := h.kept _ t ht

theorem getElem?_prune (held : Nat → Bool) (path : String) (t : Shared Template) :
    (c.prune held).2.templates[path]? = some t ↔
      c.templates[path]? = some t ∧ held t.serial = true := by
  simp only [prune, Std.ExtTreeMap.getElem?_filter', Option.filter_eq_some_iff]

theorem fst_prune (c : TemplateCache) (held : Nat → Bool) :
    (c.prune held).1 =
      (c.templates.toList.filter fun e => (c.prune held).2.templates[e.1]?.isNone).length := by
  have hgone : (c.templates.toList.filter fun e => (c.prune held).2.templates[e.1]?.isNone) =
      c.templates.toList.filter fun e => !held e.2.serial := by
    refine List.filter_congr fun e he => ?_
    rw [Std.ExtTreeMap.mem_toList_iff_getElem?_eq_some] at he
    simp only [prune, Std.ExtTreeMap.getElem?_filter', he]
    cases hheld : held e.2.serial <;> simp [hheld]
  have hsplit := List.length_eq_length_filter_add (l := c.templates.toList) fun e => held e.2.serial
  rw [hgone]
  simp only [prune, ← Std.ExtTreeMap.length_toList, Std.ExtTreeMap.toList_filter]
  omega

theorem isNumbered_new (loader : String → Except Failure (Node Float32)) (uploads : Bool) :
    (new loader uploads).IsNumbered := by
  constructor <;> simp [new]

namespace IsNumbered

theorem has (h : c.IsNumbered) (ht : c.templates[path]? = some t) : c.Has t := by
  rw [Has, h.path_eq path t ht]
  exact ht

theorem of_eq (h : c.IsNumbered) (htemplates : d.templates = c.templates)
    (hserial : d.nextSerial = c.nextSerial) : d.IsNumbered := by
  obtain ⟨hpath, hlt, hinj⟩ := h
  rw [← htemplates, ← hserial] at hlt
  rw [← htemplates] at hpath hinj
  exact ⟨hpath, hlt, hinj⟩

theorem eq_of_serial (h : c.IsNumbered) (ht : c.Has t) (hu : c.Has u)
    (hserial : t.serial = u.serial) : t = u := by
  have hpath := h.serial_inj _ _ t u ht hu hserial
  rw [Has, hpath] at ht
  exact Option.some.inj (ht.symm.trans hu)

theorem insert (h : c.IsNumbered) (root : Node Float32) (loads : Nat)
    (queue : UploadQueue Float32) :
    { c with
      loads := loads
      templates := c.templates.insert path ⟨c.nextSerial, .new path root⟩
      nextSerial := c.nextSerial + 1
      queue := queue }.IsNumbered := by
  have hcases {p : String} {t : Shared Template}
      (ht : (c.templates.insert path ⟨c.nextSerial, .new path root⟩)[p]? = some t) :
      path = p ∧ t = ⟨c.nextSerial, .new path root⟩ ∨ c.templates[p]? = some t := by
    rw [Std.ExtTreeMap.getElem?_insert] at ht
    split at ht
    · rename_i heq
      exact .inl ⟨Std.LawfulEqOrd.eq_of_compare heq, (Option.some.inj ht).symm⟩
    · exact .inr ht
  refine ⟨fun p t ht => ?_, fun p t ht => ?_, fun p q t u ht hu hserial => ?_⟩
  · rcases hcases ht with ⟨rfl, rfl⟩ | ht
    · rfl
    · exact h.path_eq p t ht
  · rcases hcases ht with ⟨rfl, rfl⟩ | ht
    · exact Nat.lt_succ_self c.nextSerial
    · exact Nat.lt_succ_of_lt (h.serial_lt p t ht)
  · rcases hcases ht with ⟨rfl, rfl⟩ | ht <;> rcases hcases hu with ⟨rfl, rfl⟩ | hu
    · rfl
    · exact absurd hserial.symm (Nat.ne_of_lt (h.serial_lt q u hu))
    · exact absurd hserial (Nat.ne_of_lt (h.serial_lt p t ht))
    · exact h.serial_inj p q t u ht hu hserial

theorem get (h : c.IsNumbered) (path : String) (compile : Bool) :
    (c.get path compile).2.IsNumbered := by
  have hgets := c.gets path compile
  generalize TemplateCache.get path compile c = got at hgets
  cases hgets with
  | cached => exact h
  | failed => exact h.of_eq rfl rfl
  | loaded => exact h.insert _ _ _

theorem has_get (h : c.IsNumbered) (ht : (c.get path compile).1 = .ok t) :
    (c.get path compile).2.Has t := by
  have hgets := c.gets path compile
  generalize TemplateCache.get path compile c = got at hgets ht
  cases hgets with
  | cached hcached =>
    cases ht
    exact h.has hcached
  | failed => cases ht
  | loaded =>
    cases ht
    exact Std.ExtTreeMap.getElem?_insert_self

theorem prune (h : c.IsNumbered) (held : Nat → Bool) : (c.prune held).2.IsNumbered where
  path_eq path t ht := h.path_eq path t ((getElem?_prune held path t).1 ht).1
  serial_lt path t ht := h.serial_lt path t ((getElem?_prune held path t).1 ht).1
  serial_inj path path' t t' ht ht' := h.serial_inj path path' t t'
    ((getElem?_prune held path t).1 ht).1 ((getElem?_prune held path' t').1 ht').1

end IsNumbered

end TemplateCache

namespace Collection

def templates (c : Collection) : List (Shared Template) := c.lists.map (·.template)

theorem templates_add_subset (c : Collection) (path : String) (t : Shared Template)
    (r : Reference) : (c.add path t r).templates ⊆ t :: c.templates := by
  intro u hu
  obtain ⟨l, hl, rfl⟩ := List.mem_map.1 hu
  simp only [add] at hl
  split at hl
  · obtain ⟨l', hl', rfl⟩ := List.mem_map.1 hl
    have hmem : l'.template ∈ c.templates := List.mem_map_of_mem hl'
    refine List.mem_cons_of_mem t ?_
    split <;> exact hmem
  · rcases List.mem_append.1 hl with hl | hl
    · exact List.mem_cons_of_mem t (List.mem_map_of_mem hl)
    · rw [List.mem_singleton.1 hl]
      exact List.mem_cons_self

end Collection

namespace Grouping

variable {v : ChunkView} {config : PagingConfig} {models : ModelResolver} {cache : TemplateCache}

theorem isNumbered_run (h : cache.IsNumbered) (c : Collection) (rs : List Reference) :
    (run v config models TemplateCache.get c rs cache).2.IsNumbered := by
  refine rel_run (R := fun c d => c.IsNumbered → d.IsNumbered) (fun _ => id)
    (fun h h' => h' ∘ h) (fun path cache h => h.get path v.compile) c rs cache h

theorem has_of_run (h : cache.IsNumbered) {c c' : Collection}
    (hc : ∀ t ∈ c.templates, cache.Has t) {rs : List Reference}
    (hrun : (run v config models TemplateCache.get c rs cache).1 = .ok c') :
    ∀ t ∈ c'.templates, (run v config models TemplateCache.get c rs cache).2.Has t := by
  induction rs generalizing c cache with
  | nil =>
    cases hrun
    exact hc
  | cons r rs ih =>
    have hkept (path : String) (t : Shared Template) (ht : cache.Has t) :
        (cache.get path v.compile).2.Has t := (cache.loads_get path v.compile).toGrows.has ht
    have htakes := takes v config models TemplateCache.get c r cache
    unfold run at hrun ⊢
    generalize step v config models TemplateCache.get c r cache = taken at htakes hrun ⊢
    cases htakes with
    | skipped | invisible => exact ih h hc hrun
    | unresolved | unloaded => cases hrun
    | small => exact ih (h.get _ v.compile) (fun t ht => hkept _ t (hc t ht)) hrun
    | listed _ _ _ hgot =>
      refine ih (h.get _ v.compile) (fun t ht => ?_) hrun
      rcases List.mem_cons.1 (c.templates_add_subset _ _ r ht) with rfl | ht
      · exact h.has_get hgot
      · exact hkept _ t (hc t ht)

end Grouping

namespace Sources

variable {s : Sources} {v : ChunkView} {cache : TemplateCache}

theorem isNumbered_build (h : cache.IsNumbered) (uploads : Bool) :
    (s.build v uploads cache).2.IsNumbered := by
  have hbuilds := s.builds v uploads cache
  have hgroup : (s.group v cache).2.IsNumbered := Grouping.isNumbered_run h _ _
  generalize (s.build v uploads cache).1.result = result, (s.build v uploads cache).2 = grown
    at hbuilds
  cases hbuilds with
  | failed | built => exact hgroup
  | queued => exact hgroup.of_eq rfl rfl

theorem has_of_build (h : cache.IsNumbered) {uploads : Bool} {chunk : Chunk}
    (hchunk : (s.build v uploads cache).1.result = .ok chunk) :
    ∀ t ∈ chunk.templates, (s.build v uploads cache).2.Has t := by
  have hbuilds := s.builds v uploads cache
  have hnone : ∀ t ∈ Collection.empty.templates, cache.Has t := by
    simp [Collection.templates, Collection.empty]
  generalize (s.build v uploads cache).1.result = result, (s.build v uploads cache).2 = grown
    at hbuilds hchunk
  cases hbuilds with
  | failed => cases hchunk
  | built hgroup | queued _ hgroup =>
    cases hchunk
    exact Grouping.has_of_run h hnone hgroup

end Sources

namespace ChunkCache

variable {c : ChunkCache} {chunk : Shared Chunk}

theorem mem_chunks_iff : chunk ∈ c.chunks ↔ ∃ (key : ChunkKey) (e : CacheEntry),
    c.entries[key]? = some e ∧ e.chunk = chunk := by
  simp only [chunks, List.mem_map, mem_values_iff]
  constructor
  · rintro ⟨e, ⟨key, he⟩, hchunk⟩
    exact ⟨key, e, he, hchunk⟩
  · rintro ⟨key, e, he, hchunk⟩
    exact ⟨e, ⟨key, he⟩, hchunk⟩

theorem mem_chunks_insert {new : Shared Chunk} (h : chunk ∈ (c.insert new).chunks) :
    chunk = new ∨ chunk ∈ c.chunks := by
  obtain ⟨key, e, he, rfl⟩ := mem_chunks_iff.1 h
  rw [getElem?_insert] at he
  split at he
  · cases he
    exact .inl rfl
  · exact .inr (mem_chunks_iff.2 ⟨key, e, he, rfl⟩)

theorem mem_chunks_of_get? {id : ChunkId} (h : c.get? id = some chunk) : chunk ∈ c.chunks := by
  obtain ⟨e, he, hchunk⟩ := Option.map_eq_some_iff.1 h
  exact mem_chunks_iff.2 ⟨id.key, e, he, hchunk⟩

theorem mem_chunks_update {now : Float} {held : Nat → Bool}
    (h : chunk ∈ (c.update now held).2.chunks) : chunk ∈ c.chunks := by
  obtain ⟨key, e, he, rfl⟩ := mem_chunks_iff.1 h
  obtain ⟨old, hold, hrefresh⟩ := exists_of_getElem?_update he
  exact mem_chunks_iff.2 ⟨key, old, hold, (chunk_of_refresh? hrefresh).symm⟩

theorem not_mem_chunks_clear : chunk ∉ c.clear.chunks := by
  simp [mem_chunks_iff, clear]

end ChunkCache

namespace Session

variable {s : Session} {t : Shared Template}

theorem mem_templates_of_mem_chunks {c : Chunk} (hc : c ∈ s.chunks) (ht : t ∈ c.templates) :
    t ∈ s.templates := by
  rcases List.mem_append.1 hc with hc | hc
  · obtain ⟨chunk, hchunk, rfl⟩ := List.mem_map.1 hc
    exact List.mem_append_left _ (List.mem_flatMap.2 ⟨chunk, hchunk, ht⟩)
  · obtain ⟨h, hh, hchunk⟩ := List.mem_filterMap.1 hc
    rw [← Handle.templates_of_chunk? hchunk] at ht
    exact List.mem_append_right _ (List.mem_flatMap.2 ⟨h, hh, ht⟩)

/-- What is held outside of the template cache is what the cache has. -/
structure Pins (s : Session) : Prop where
  numbered : s.pager.resources.IsNumbered
  cached : ∀ chunk ∈ s.pager.cache.chunks, ∀ t ∈ chunk.value.templates, s.pager.resources.Has t
  held : ∀ h ∈ s.handles, ∀ t ∈ h.templates, s.pager.resources.Has t

namespace Pins

theorem has (h : s.Pins) (ht : t ∈ s.templates) : s.pager.resources.Has t := by
  rcases List.mem_append.1 ht with ht | ht
  · obtain ⟨chunk, hchunk, ht⟩ := List.mem_flatMap.1 ht
    exact h.cached chunk hchunk t ht
  · obtain ⟨handle, hhandle, ht⟩ := List.mem_flatMap.1 ht
    exact h.held handle hhandle t ht

theorem new (src : Sources) (loader : String → Except Failure (Node Float32))
    (early uploads : Bool) :
    Pins ⟨.new src.records src.models src.config (.new loader early) uploads, []⟩ where
  numbered := TemplateCache.isNumbered_new loader early
  cached chunk hchunk := by simp [Pager.new, ChunkCache.mem_chunks_iff, ChunkCache.new] at hchunk
  held h hh := by cases hh

/-- Templates are loaded, and chunks that are new in the cache have only such as are then there. -/
theorem grow (h : s.Pins) {p : Pager} (hnumbered : p.resources.IsNumbered)
    (hgrows : s.pager.resources.Grows p.resources)
    (hcached : ∀ chunk ∈ p.cache.chunks, chunk ∈ s.pager.cache.chunks ∨
      ∀ t ∈ chunk.value.templates, p.resources.Has t) : Pins ⟨p, s.handles⟩ where
  numbered := hnumbered
  cached chunk hchunk t ht := by
    rcases hcached chunk hchunk with hold | hnew
    · exact hgrows.has (h.cached chunk hold t ht)
    · exact hnew t ht
  held handle hhandle t ht := hgrows.has (h.held handle hhandle t ht)

theorem hold (h : s.Pins) (handle : Handle)
    (hnew : ∀ t ∈ handle.templates, s.pager.resources.Has t) :
    Pins ⟨s.pager, handle :: s.handles⟩ :=
  ⟨h.numbered, h.cached, List.forall_mem_cons.2 ⟨hnew, h.held⟩⟩

theorem get (h : s.Pins) (r : Request) : (s.apply (.get r)).Pins := by
  have hnumbered : (s.pager.create r.view).2.resources.IsNumbered :=
    Sources.isNumbered_build h.numbered s.pager.uploads
  have hgrows : s.pager.resources.Grows (s.pager.create r.view).2.resources :=
    Sources.grows_build _ _ _ _
  have hserves := s.pager.serves r
  simp only [apply]
  generalize s.pager.get r = served, s.pager.getEvents r = events at hserves
  cases hserves with
  | near => exact h
  | @hit chunk _ hcached =>
    have hchunk := h.cached chunk (ChunkCache.mem_chunks_of_get? hcached)
    refine hold (s := ⟨_, s.handles⟩) ?_ (.cached chunk) hchunk
    exact h.grow h.numbered (.refl _) fun _ => .inl
  | failed => exact h.grow hnumbered hgrows fun _ => .inl
  | built _ _ hc =>
    have hnew := Sources.has_of_build h.numbered hc
    refine hold (s := ⟨_, s.handles⟩) ?_ (.cached ⟨_, _⟩) hnew
    refine h.grow hnumbered hgrows fun chunk hchunk => ?_
    rcases ChunkCache.mem_chunks_insert hchunk with rfl | hold
    · exact .inr hnew
    · exact .inl hold

theorem create (h : s.Pins) (v : ChunkView) : (s.apply (.create v)).Pins := by
  have hpins : Pins ⟨(s.pager.create v).2, s.handles⟩ :=
    h.grow (Sources.isNumbered_build h.numbered s.pager.uploads) (Sources.grows_build _ _ _ _)
      fun _ => .inl
  have hnew {chunk : Chunk} (hc : (s.pager.create v).1 = .ok chunk) :
      ∀ t ∈ chunk.templates, (s.pager.create v).2.resources.Has t :=
    Sources.has_of_build h.numbered hc
  simp only [apply]
  generalize s.pager.create v = made at hpins hnew
  obtain ⟨result, p⟩ := made
  cases result with
  | error e => exact hpins
  | ok chunk => exact hpins.hold (.created chunk) (hnew rfl)

theorem getTemplate (h : s.Pins) (path : String) (compile : Bool) :
    (s.apply (.getTemplate path compile)).Pins := by
  have hpins : Pins ⟨{ s.pager with resources := (s.pager.resources.get path compile).2 },
      s.handles⟩ :=
    h.grow (h.numbered.get path compile) (s.pager.resources.loads_get path compile).toGrows
      fun _ => .inl
  have hnew {t : Shared Template} (ht : (s.pager.resources.get path compile).1 = .ok t) :=
    h.numbered.has_get ht
  simp only [apply]
  generalize s.pager.resources.get path compile = got at hpins hnew
  obtain ⟨result, resources⟩ := got
  cases result with
  | error e => exact hpins
  | ok t =>
    refine hpins.hold (.template t) fun u hu => ?_
    rw [List.mem_singleton.1 hu]
    exact hnew rfl

theorem holdsTemplate_eq_true (ht : t ∈ s.templates) : s.holdsTemplate t.serial = true :=
  List.any_eq_true.2 ⟨t, ht, beq_self_eq_true t.serial⟩

theorem prune (h : s.Pins) : s.prune.2.Pins where
  numbered := h.numbered.prune s.holdsTemplate
  cached chunk hchunk t ht := by
    have hmem : t ∈ s.templates :=
      List.mem_append_left _ (List.mem_flatMap.2 ⟨chunk, hchunk, ht⟩)
    exact (TemplateCache.getElem?_prune _ _ _).2 ⟨h.has hmem, holdsTemplate_eq_true hmem⟩
  held handle hhandle t ht := by
    have hmem : t ∈ s.templates :=
      List.mem_append_right _ (List.mem_flatMap.2 ⟨handle, hhandle, ht⟩)
    exact (TemplateCache.getElem?_prune _ _ _).2 ⟨h.has hmem, holdsTemplate_eq_true hmem⟩

theorem apply (h : s.Pins) (op : Operation) : (s.apply op).Pins := by
  cases op with
  | get r => exact h.get r
  | create v => exact h.create v
  | getTemplate path compile => exact h.getTemplate path compile
  | prune => exact h.prune
  | drop i =>
    exact ⟨h.numbered, h.cached, fun handle hhandle =>
      h.held handle (List.mem_of_mem_eraseIdx hhandle)⟩
  | update now =>
    exact h.grow h.numbered (.refl _) fun chunk hchunk =>
      .inl (ChunkCache.mem_chunks_update hchunk)
  | clearCache =>
    exact h.grow h.numbered (.refl _) fun chunk hchunk =>
      absurd hchunk ChunkCache.not_mem_chunks_clear
  | reload loader => exact ⟨h.numbered.of_eq rfl rfl, h.cached, h.held⟩
  | enable | enableAll | setExpiryDelay => exact ⟨h.numbered, h.cached, h.held⟩

theorem run (h : s.Pins) (ops : List Operation) : (s.run ops).Pins := by
  induction ops generalizing s with
  | nil => exact h
  | cons op ops ih => exact ih (h.apply op)

end Pins

/-- A pruned cache has the templates that something else holds, and no others. -/
theorem Pins.getElem?_prune_iff (h : s.Pins) (path : String) (t : Shared Template) :
    s.prune.2.pager.resources.templates[path]? = some t ↔
      s.pager.resources.templates[path]? = some t ∧ t ∈ s.templates := by
  refine (TemplateCache.getElem?_prune s.holdsTemplate path t).trans ?_
  refine and_congr_right fun ht => ⟨fun hholds => ?_, holdsTemplate_eq_true⟩
  obtain ⟨u, hu, hserial⟩ := List.any_eq_true.1 hholds
  have hsame : u = t :=
    h.numbered.eq_of_serial (h.has hu) (h.numbered.has ht) (eq_of_beq hserial)
  exact hsame ▸ hu

/-- Along every run, the cache has the templates of all chunks that are cached or held, hands them
out again without loading, and keeps them when it is pruned, and there are no others for their
paths. Pruning drops what nothing else holds and counts it. -/
theorem run_pins_templates (src : Sources) (loader : String → Except Failure (Node Float32))
    (early uploads : Bool) (ops : List Operation) :
    let s := run ⟨.new src.records src.models src.config (.new loader early) uploads, []⟩ ops
    let cache := s.pager.resources
    let pruned := s.prune.2.pager.resources
    (∀ c ∈ s.chunks, ∀ t ∈ c.templates,
      cache.templates[t.value.path]? = some t ∧ pruned.templates[t.value.path]? = some t ∧
      (∀ compile, cache.get t.value.path compile = (.ok t, cache)) ∧
      ∀ u : Shared Template, u ∈ s.templates ∨ (∃ path : String, cache.templates[path]? = some u) →
        u.value.path = t.value.path → u = t) ∧
    (∀ (path : String) (t : Shared Template), pruned.templates[path]? = some t ↔
      cache.templates[path]? = some t ∧ t ∈ s.templates) ∧
    s.prune.1 =
      (cache.templates.toList.filter fun e => pruned.templates[e.1]?.isNone).length := by
  intro s cache pruned
  have h : s.Pins := (Pins.new src loader early uploads).run ops
  refine ⟨fun c hc t ht => ?_, h.getElem?_prune_iff,
    TemplateCache.fst_prune s.pager.resources s.holdsTemplate⟩
  have hheld : t ∈ s.templates := mem_templates_of_mem_chunks hc ht
  have hhas : cache.templates[t.value.path]? = some t := h.has hheld
  refine ⟨hhas, (h.getElem?_prune_iff _ t).2 ⟨hhas, hheld⟩, fun compile => ?_, ?_⟩
  · simp only [TemplateCache.get, hhas]
  · intro u hu hpath
    have hu : cache.Has u := by
      rcases hu with hu | ⟨path, hu⟩
      · exact h.has hu
      · exact h.numbered.has hu
    rw [TemplateCache.Has, hpath, hhas] at hu
    exact (Option.some.inj hu).symm

def quarry : World :=
  { World.empty.addModel "rock" .static "rock.nif" with
    cells := [(Cell.new 0 0).pushContext [.new ⟨0, 1⟩ .static "rock" ⟨4096, 4096, 0⟩]] }

def quarrySession : Session :=
  run ⟨.new quarry.store quarry.resolveModel .standard
    (.new (fun _ => .ok (.drawable .fresh (.cuboid ⟨1, 1, 1⟩))) false) false, []⟩
    [.get ⟨⟨2, ⟨1, 1⟩, ⟨4096, 4096, 0⟩, false⟩, true⟩]

-- The rock goes only when both the cache and the last handle have let go of the chunk.
example :
    quarrySession.prune.1 = 0 ∧ (quarrySession.run [.clearCache]).prune.1 = 0 ∧
      (quarrySession.run [.drop 0]).prune.1 = 0 ∧
      (quarrySession.run [.clearCache, .drop 0]).prune.1 = 1 := by
  decide +kernel

end Session

end DistantChunks
