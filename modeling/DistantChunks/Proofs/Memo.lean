import DistantChunks.Proofs.BuildAnswers
import DistantChunks.Proofs.Serving

/-!
# The cache is a memo of builds

Along every run of operations the cache holds for each key what the history remembers of it: the
chunk of the last build, as long as the key has not been removed. Each build of the history is what
its view and the objects disabled at that moment determine.
-/

namespace DistantChunks

namespace Pager

structure Build.Holds (loader : String → Except Failure (Node Float32)) (s : Sources) (b : Build) :
    Prop where
  answer : { s with disabled := b.disabled }.answer loader b.view = .ok b.chunk.value.anonymous
  enabled : ∀ n, b.chunk.value.contains n = true → b.disabled.contains n = false

/-- The cache of a pager holds what a history remembers, and the history is sound. -/
structure IsMemo (loader : String → Except Failure (Node Float32)) (s : Sources)
    (es : List Event) (p : Pager) : Prop where
  setting : ∀ disabled, (⟨p.records, p.models, disabled, p.config⟩ : Sources) =
    { s with disabled := disabled }
  follows : p.resources.Follows loader
  entries : ∀ key, (p.cache.entries[key]?).map (·.chunk) = (remembered key es).map (·.chunk)
  once : BuildsOnce es
  holds : ∀ b, .built b ∈ es → b.Holds loader s
  serials : (es.filterMap Event.build?).map (·.chunk.serial) = List.range p.nextSerial

namespace IsMemo

variable {loader : String → Except Failure (Node Float32)} {s : Sources} {es : List Event}
  {p : Pager}

theorem new (s : Sources) (loader : String → Except Failure (Node Float32))
    (early uploads : Bool) :
    IsMemo loader s [] (.new s.records s.models s.config (.new loader early) uploads) where
  setting _ := rfl
  follows := TemplateCache.follows_new early
  entries key := by simp [Pager.new, ChunkCache.new]
  once := buildsOnce_nil
  holds _ h := by cases h
  serials := rfl

theorem create (h : IsMemo loader s es p) (v : ChunkView) :
    (p.create v).1.map Chunk.anonymous = { s with disabled := p.disabled }.answer loader v ∧
      IsMemo loader s es (p.create v).2 := by
  have hbuild := p.sources.build_follows h.follows v p.uploads
  have hsources : p.sources = { s with disabled := p.disabled } := h.setting p.disabled
  exact ⟨hsources ▸ hbuild.1, h.setting, hbuild.2, h.entries, h.once, h.holds, h.serials⟩

theorem holds_create (h : IsMemo loader s es p) {v : ChunkView} {chunk : Chunk}
    (hc : (p.create v).1 = .ok chunk) (serial : Nat) :
    Build.Holds loader s ⟨v, p.disabled, ⟨serial, chunk⟩⟩ where
  answer := by
    rw [← (h.create v).1, hc]
    rfl
  enabled _ hn := Sources.enabled_of_build (s := p.sources) hc hn

theorem remembered_eq_none (h : IsMemo loader s es p) {v : ChunkView}
    (hc : p.cache.get? v.id = none) : remembered v.id.key es = none := by
  have hentry := h.entries v.id.key
  rw [show (p.cache.entries[v.id.key]?).map (·.chunk) = none from hc] at hentry
  exact Option.map_eq_none_iff.1 hentry.symm

theorem get (h : IsMemo loader s es p) (r : Request) :
    IsMemo loader s (es ++ p.getEvents r) (p.get r).2 := by
  have hserves := p.serves r
  generalize p.get r = served, p.getEvents r = events at hserves
  cases hserves with
  | near => simpa using h
  | hit =>
    rw [List.append_nil]
    exact ⟨h.setting, h.follows, h.entries, h.once, h.holds, h.serials⟩
  | failed =>
    rw [List.append_nil]
    have hcreate := (h.create r.view).2
    exact ⟨hcreate.setting, hcreate.follows, h.entries, h.once, h.holds, h.serials⟩
  | @built chunk hfar hcached hc =>
    have hcreate := (h.create r.view).2
    have hid : chunk.id = r.view.id := Sources.id_of_build (s := p.sources) hc
    refine ⟨hcreate.setting, hcreate.follows, fun key => ?_, ?_, fun b hb => ?_, ?_⟩
    · rw [remembered_concat]
      by_cases hkey : r.view.id.key = key
      · subst hkey
        simp [ChunkCache.getElem?_insert, hid, Event.key, Event.build?, Build.key]
      · have hne : chunk.id.key ≠ key := hid ▸ hkey
        simp [ChunkCache.getElem?_insert, hne, Event.key, Build.key, hkey, h.entries key]
    · refine h.once.concat fun b hb => ?_
      cases hb
      exact h.remembered_eq_none hcached
    · rcases List.mem_append.1 hb with hb | hb
      · exact h.holds b hb
      · cases List.mem_singleton.1 hb
        exact h.holds_create hc p.nextSerial
    · simp [List.filterMap_append, h.serials, List.range_succ, Event.build?]

theorem prefetch (h : IsMemo loader s es p) (rs : List Request) :
    IsMemo loader s (es ++ p.prefetchEvents rs) (p.prefetch rs).2 := by
  induction rs generalizing p es with
  | nil => simpa [prefetchEvents, Pager.prefetch] using h
  | cons r rs ih =>
    have hget := h.get r
    rw [snd_prefetch_cons, prefetchEvents]
    generalize p.get r = served at hget
    rcases served with ⟨_ | chunk, q⟩
    · exact hget
    · have hrest := ih hget
      rwa [List.append_assoc] at hrest

theorem forget (h : IsMemo loader s es p) {cache : ChunkCache} (evictions : Nat)
    (hkeep : ∀ (key : ChunkKey) (e : CacheEntry), cache.entries[key]? = some e →
      (p.cache.entries[key]?).map (·.chunk) = some e.chunk) :
    IsMemo loader s (es ++ p.removals { p with cache := cache, evictions := evictions })
      { p with cache := cache, evictions := evictions } := by
  refine ⟨h.setting, h.follows, fun key => ?_, h.once.append_removed _, fun b hb => ?_, ?_⟩
  · rw [removals, remembered_append_removed]
    cases hq : cache.entries[key]? with
    | some e =>
      have hstays : cache.entries.contains key = true := by
        rw [Std.ExtTreeMap.contains_eq_isSome_getElem?, hq]
        rfl
      rw [if_neg (by simp [hstays]), ← h.entries key, hkeep key e hq]
      rfl
    | none =>
      have hgone : cache.entries.contains key = false := by
        rw [Std.ExtTreeMap.contains_eq_isSome_getElem?, hq]
        rfl
      by_cases hp : key ∈ p.cache.entries
      · rw [if_pos (by simp [hp, hgone])]
        rfl
      · have hunknown : p.cache.entries[key]? = none := by simpa using hp
        have hnone := h.entries key
        rw [hunknown] at hnone
        rw [if_neg (by simp [hp]), ← hnone]
  · rcases List.mem_append.1 hb with hb | hb
    · exact h.holds b hb
    · simp [removals] at hb
  · have hbuilds : (p.removals { p with cache := cache, evictions := evictions }).filterMap
        Event.build? = [] := by
      simp [removals, Event.build?, List.filterMap_map]
    simpa [List.filterMap_append, hbuilds] using h.serials

theorem update (h : IsMemo loader s es p) (now : Float) (held : Nat → Bool) :
    IsMemo loader s (es ++ p.removals (p.update now held).2) (p.update now held).2 := by
  refine h.forget _ fun key e he => ?_
  obtain ⟨old, hold, hrefresh⟩ := ChunkCache.exists_of_getElem?_update he
  rw [hold, Option.map_some, ChunkCache.chunk_of_refresh? hrefresh]

theorem apply (h : IsMemo loader s es p) (op : Operation) :
    IsMemo loader s (es ++ p.events op) (p.apply op) := by
  cases op with
  | get r => exact h.get r
  | prefetch rs => exact h.prefetch rs
  | create v =>
    rw [show p.events _ = [] from rfl, List.append_nil]
    exact (h.create v).2
  | update now held => exact h.update now held
  | clearCache =>
    exact h.forget p.evictions fun key e he => by simp [ChunkCache.clear] at he
  | prune held =>
    rw [show p.events _ = [] from rfl, List.append_nil]
    refine ⟨h.setting, ?_, h.entries, h.once, h.holds, h.serials⟩
    simp only [Pager.apply, Pager.prune]
    exact h.follows.prune _
  | takeUploads max =>
    rw [show p.events _ = [] from rfl, List.append_nil]
    have hfollows : (p.apply (.takeUploads max)).resources.Follows loader :=
      ⟨h.follows.loader_eq, h.follows.answered⟩
    exact ⟨h.setting, hfollows, h.entries, h.once, h.holds, h.serials⟩
  | enable | enableAll | setExpiryDelay =>
    rw [show p.events _ = [] from rfl, List.append_nil]
    exact ⟨h.setting, h.follows, h.entries, h.once, h.holds, h.serials⟩

theorem run (h : IsMemo loader s es p) (ops : List Operation) :
    IsMemo loader s (es ++ p.history ops) (p.run ops) := by
  induction ops generalizing p es with
  | nil => simpa [history, Pager.run] using h
  | cons op ops ih =>
    have hrest := ih (h.apply op)
    rwa [List.append_assoc] at hrest

/-- A far request gets the chunk that is remembered of its key, and otherwise what can be created at
that moment. -/
theorem get_eq (h : IsMemo loader s es p) {r : Request} (hfar : r.far = true) :
    (p.get r).1 = match remembered r.view.id.key es with
      | some b => .ok (some b.chunk)
      | none => (p.create r.view).1.map fun chunk => some ⟨p.nextSerial, chunk⟩ := by
  have hentry : p.cache.get? r.view.id = (remembered r.view.id.key es).map (·.chunk) :=
    h.entries r.view.id.key
  have hserves := p.serves r
  generalize p.get r = served, p.getEvents r = events at hserves
  cases hserves with
  | near hnear => rw [hnear] at hfar; cases hfar
  | hit _ hcached =>
    obtain ⟨b, hb, rfl⟩ := Option.map_eq_some_iff.1 (hentry.symm.trans hcached)
    rw [hb]
  | failed _ hcached hc | built _ hcached hc =>
    rw [h.remembered_eq_none hcached, hc]
    rfl

theorem exists_build_of_get (h : IsMemo loader s es p) {r : Request}
    {chunk : Shared Chunk} (hc : (p.get r).1 = .ok (some chunk)) :
    ∃ b, .built b ∈ es ++ p.getEvents r ∧ b.key = r.view.id.key ∧ b.chunk = chunk ∧
      b.Holds loader s := by
  have hget := h.get r
  have hentry := (hget.entries r.view.id.key).symm.trans (cached_of_get hc)
  obtain ⟨b, hb, rfl⟩ := Option.map_eq_some_iff.1 hentry
  obtain ⟨hmem, hkey⟩ := mem_of_remembered hb
  exact ⟨b, hmem, hkey, rfl, hget.holds b hmem⟩

theorem removed_mem (h : IsMemo loader s es p) {xs ys zs : List Event} {b b' : Build}
    (heq : es = xs ++ .built b :: ys ++ .built b' :: zs) (hkey : b.key = b'.key) :
    .removed b.key ∈ ys :=
  removed_mem_of_remembered_eq_none (hkey ▸ h.once _ b' zs heq)

end IsMemo

/-- What holds after every run that starts with an empty cache. Far requests are answered from the
history, and otherwise by what their view and the disabled objects of the moment determine. -/
theorem run_isMemo (s : Sources) (loader : String → Except Failure (Node Float32))
    (early uploads : Bool) (ops : List Operation) :
    let start := Pager.new s.records s.models s.config (.new loader early) uploads
    let p := start.run ops
    let es := start.history ops
    (∀ r : Request, r.far = true → (p.get r).1 = match remembered r.view.id.key es with
      | some b => .ok (some b.chunk)
      | none => (p.create r.view).1.map fun chunk => some ⟨p.nextSerial, chunk⟩) ∧
    (∀ v, (p.create v).1.map Chunk.anonymous =
      { s with disabled := p.disabled }.answer loader v) ∧
    p.disabled = ops.foldl Operation.disabling .empty ∧
    (∀ a b : ChunkId, a.key = b.key ↔ ChunkId.Agree a.center.x b.center.x ∧
      ChunkId.Agree a.center.y b.center.y ∧ ChunkId.Agree a.size b.size) ∧
    (∀ xs b ys b' zs, es = xs ++ .built b :: ys ++ .built b' :: zs → b.key = b'.key →
      .removed b.key ∈ ys) ∧
    (es.filterMap Event.build?).map (·.chunk.serial) = List.range p.nextSerial ∧
    (∀ n enabled, (p.enable n enabled).cache = p.cache) ∧ p.enableAll.cache = p.cache ∧
    (∀ r chunk, (p.get r).1 = .ok (some chunk) → ∃ b, .built b ∈ es ++ p.getEvents r ∧
      b.key = r.view.id.key ∧ b.chunk = chunk ∧
      { s with disabled := b.disabled }.answer loader b.view = .ok chunk.value.anonymous ∧
      ∀ n, chunk.value.contains n = true → b.disabled.contains n = false) ∧
    (∀ rs chunks q, p.prefetch rs = (.ok chunks, q) ↔ p.gets rs = (chunks.map .ok, q)) ∧
    (∀ rs chunks q, p.prefetch rs = (.ok chunks, q) →
      (rs.zip chunks).Pairwise fun x y => x.1.far = true → y.1.far = true →
        x.1.view.id.key = y.1.view.id.key → x.2 = y.2) := by
  intro start p es
  have h : IsMemo loader s es p := (IsMemo.new s loader early uploads).run ops
  refine ⟨fun r hfar => h.get_eq hfar, fun v => (h.create v).1, start.disabled_run ops,
    fun a b => ChunkId.key_eq_iff, fun xs b ys b' zs heq hkey => h.removed_mem heq hkey, h.serials,
    fun n enabled => rfl, rfl, fun r chunk hchunk => ?_,
    fun rs chunks q => prefetch_eq_ok_iff, fun rs chunks q => pairwise_of_prefetch⟩
  obtain ⟨b, hmem, hkey, rfl, hholds⟩ := h.exists_build_of_get hchunk
  exact ⟨b, hmem, hkey, rfl, hholds.answer, hholds.enabled⟩

end Pager

end DistantChunks
