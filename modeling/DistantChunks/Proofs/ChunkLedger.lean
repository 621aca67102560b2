import DistantChunks.Proofs.Serving

/-!
# Where built chunks go

Every chunk that has been built is in the cache, was dropped by an update, which counts it as an
eviction, or was dropped when the cache was cleared, which is not counted. For this each build must
put its chunk where none was: a request builds only what the cache does not hold, and the chunk has
the id that was asked for.
-/

namespace DistantChunks

namespace ChunkCache

/-- The second cache holds one chunk more than the first, which has none under its key. -/
structure Gains (c : ChunkCache) (chunk : Shared Chunk) (c' : ChunkCache) : Prop where
  absent : c.contains chunk.value.id = false
  size : c'.size = c.size + 1
  entries : ∀ key, c'.entries[key]? =
    if chunk.value.id.key = key then some ⟨chunk, c.now⟩ else c.entries[key]?

/-- The second cache lacks `n` entries of the first and has the others with their chunks. -/
structure Loses (c : ChunkCache) (n : Nat) (c' : ChunkCache) : Prop where
  number : n = (c.entries.keys.filter fun key => !c'.entries.contains key).length
  size : c'.size + n = c.size
  kept : ∀ (key : ChunkKey) (e' : CacheEntry), c'.entries[key]? = some e' →
    ∃ e, c.entries[key]? = some e ∧ e'.chunk = e.chunk

theorem contains_eq_isSome_get? (c : ChunkCache) (id : ChunkId) :
    c.contains id = (c.get? id).isSome := by
  rw [contains, Std.ExtTreeMap.contains_eq_isSome_getElem?, get?, Option.isSome_map]

theorem gains_insert {c : ChunkCache} {chunk : Shared Chunk}
    (h : c.contains chunk.value.id = false) : c.Gains chunk (c.insert chunk) where
  absent := h
  size := by
    rw [contains] at h
    rw [size, entries_insert, Std.ExtTreeMap.size_insert, h]
    rfl
  entries := c.getElem?_insert chunk

theorem size_add_length_lost {c c' : ChunkCache}
    (h : ∀ key, c'.entries.contains key = true → c.entries.contains key = true) :
    c'.size + (c.entries.keys.filter fun key => !c'.entries.contains key).length = c.size := by
  have hperm : c'.entries.keys.Perm (c.entries.keys.filter fun key => c'.entries.contains key) := by
    rw [List.perm_ext_iff_of_nodup Std.ExtTreeMap.nodup_keys
      (Std.ExtTreeMap.nodup_keys.filter _)]
    intro key
    rw [List.mem_filter, Std.ExtTreeMap.mem_keys, Std.ExtTreeMap.mem_keys,
      ← Std.ExtTreeMap.contains_iff_mem, ← Std.ExtTreeMap.contains_iff_mem]
    exact ⟨fun hkey => ⟨h key hkey, hkey⟩, fun hkey => hkey.2⟩
  rw [size, size, ← Std.ExtTreeMap.length_keys, ← Std.ExtTreeMap.length_keys, hperm.length_eq]
  exact (List.length_eq_length_filter_add _).symm

theorem loses_update (c : ChunkCache) (now : Float) (held : Nat → Bool) :
    c.Loses (c.update now held).1 (c.update now held).2 := by
  have hkept : ∀ (key : ChunkKey) (e' : CacheEntry),
      (c.update now held).2.entries[key]? = some e' →
      ∃ e, c.entries[key]? = some e ∧ e'.chunk = e.chunk := by
    intro key e' he'
    obtain ⟨e, he, hrefresh⟩ := exists_of_getElem?_update he'
    exact ⟨e, he, chunk_of_refresh? hrefresh⟩
  have hsub : ∀ key, (c.update now held).2.entries.contains key = true →
      c.entries.contains key = true := by
    intro key hkey
    rw [Std.ExtTreeMap.contains_eq_isSome_getElem?] at hkey ⊢
    obtain ⟨e', he'⟩ := Option.isSome_iff_exists.1 hkey
    obtain ⟨e, he, -⟩ := hkept key e' he'
    exact Option.isSome_iff_exists.2 ⟨e, he⟩
  have hlost := size_add_length_lost hsub
  have hcount : (c.update now held).1 = c.size - (c.update now held).2.size := rfl
  exact ⟨by omega, by omega, hkept⟩

end ChunkCache

namespace Pager

/-- What happens to a pager: an operation, or another use of its template cache in between. -/
inductive Step where
  | operate (op : Operation)
  | share (resources : TemplateCache)

def step (p : Pager) : Step → Pager
  | .operate op => p.apply op
  | .share resources => { p with resources := resources }

def clearedBy (p : Pager) : Step → Nat
  | .operate .clearCache => p.cache.size
  | _ => 0

def after (p : Pager) (steps : List Step) : Pager := steps.foldl step p

def cleared (p : Pager) : List Step → Nat
  | [] => 0
  | st :: steps => p.clearedBy st + (p.step st).cleared steps

/-- Of what is built on the way from one pager to another, all is cached, evicted or dropped. -/
def Balances (p : Pager) (dropped : Nat) (q : Pager) : Prop :=
  p.builds + (q.cache.size + q.evictions + dropped) = q.builds + (p.cache.size + p.evictions)

namespace Balances

theorem refl (p : Pager) : p.Balances 0 p := rfl

theorem trans {p q t : Pager} {m n : Nat} (h : p.Balances m q) (h' : q.Balances n t) :
    p.Balances (m + n) t := by
  unfold Balances at h h' ⊢
  omega

end Balances

/-- The books after a request: nothing is entered for one that needs no build or whose build fails,
and for any other a build whose chunk is new in the cache. -/
inductive Enters (p : Pager) (r : Request) : Except Failure (Option (Shared Chunk)) × Pager → Prop
  | nothing {result : Except Failure (Option (Shared Chunk))} {q : Pager} :
    r.far = false ∨ p.cache.contains r.view.id = true ∨ (∃ e, (p.create r.view).1 = .error e) →
    q.cache = p.cache → q.builds = p.builds → q.evictions = p.evictions → Enters p r (result, q)
  | build {chunk : Shared Chunk} {q : Pager} : (p.create r.view).1 = .ok chunk.value →
    chunk.value.id = r.view.id → p.cache.Gains chunk q.cache → q.builds = p.builds + 1 →
    q.evictions = p.evictions → Enters p r (.ok (some chunk), q)

structure KeepsBooks (p : Pager) : Prop where
  get : ∀ r, p.Enters r (p.get r)
  prefetch : ∀ rs, ∃ n, (p.prefetch rs).2 = (p.gets (rs.take n)).2
  create : ∀ v, (p.create v).2.cache = p.cache ∧ (p.create v).2.builds = p.builds ∧
    (p.create v).2.evictions = p.evictions
  update : ∀ now held, p.cache.Loses (p.update now held).1 (p.update now held).2.cache ∧
    (p.update now held).2.builds = p.builds ∧
    (p.update now held).2.evictions = p.evictions + (p.update now held).1

theorem enters_get (p : Pager) (r : Request) : p.Enters r (p.get r) := by
  have hserves := p.serves r
  generalize p.get r = served, p.getEvents r = events at hserves
  cases hserves with
  | near hnear => exact .nothing (.inl hnear) rfl rfl rfl
  | hit _ hcached =>
    refine .nothing (.inr (.inl ?_)) rfl rfl rfl
    rw [ChunkCache.contains_eq_isSome_get?, hcached, Option.isSome_some]
  | failed _ _ hc => exact .nothing (.inr (.inr ⟨_, hc⟩)) rfl rfl rfl
  | @built made _ hcached hc =>
    have hid : made.id = r.view.id := Sources.id_of_build (s := p.sources) hc
    have habsent : p.cache.contains made.id = false := by
      rw [hid, ChunkCache.contains_eq_isSome_get?, hcached, Option.isSome_none]
    exact .build hc hid (ChunkCache.gains_insert habsent) rfl rfl

theorem exists_prefetch_eq_gets (p : Pager) (rs : List Request) :
    ∃ n, (p.prefetch rs).2 = (p.gets (rs.take n)).2 := by
  induction rs generalizing p with
  | nil => exact ⟨0, rfl⟩
  | cons r rs ih =>
    rw [snd_prefetch_cons]
    cases (p.get r).1 with
    | error e => exact ⟨1, rfl⟩
    | ok chunk =>
      obtain ⟨n, hn⟩ := ih (p.get r).2
      exact ⟨n + 1, hn⟩

theorem keepsBooks (p : Pager) : p.KeepsBooks where
  get := p.enters_get
  prefetch := p.exists_prefetch_eq_gets
  create _ := ⟨rfl, rfl, rfl⟩
  update now held := ⟨p.cache.loses_update now held, rfl, rfl⟩

theorem Enters.balances {p q : Pager} {r : Request}
    {result : Except Failure (Option (Shared Chunk))} (h : p.Enters r (result, q)) :
    p.Balances 0 q := by
  unfold Balances
  cases h with
  | nothing _ hcache hbuilds hevictions => rw [hcache, hbuilds, hevictions]; rfl
  | build _ _ hgains hbuilds hevictions =>
    rw [hgains.size, hbuilds, hevictions]
    omega

theorem balances_gets (p : Pager) (rs : List Request) : p.Balances 0 (p.gets rs).2 := by
  induction rs generalizing p with
  | nil => exact .refl p
  | cons r rs ih => exact (p.enters_get r).balances.trans (ih (p.get r).2)

theorem balances_update (p : Pager) (now : Float) (held : Nat → Bool) :
    p.Balances 0 (p.update now held).2 := by
  obtain ⟨hloses, hbuilds, hevictions⟩ := p.keepsBooks.update now held
  have hsize := hloses.size
  unfold Balances
  omega

theorem balances_step (p : Pager) (st : Step) : p.Balances (p.clearedBy st) (p.step st) := by
  cases st with
  | share resources => exact rfl
  | operate op =>
    cases op with
    | get r => exact (p.enters_get r).balances
    | prefetch rs =>
      obtain ⟨n, hn⟩ := p.exists_prefetch_eq_gets rs
      rw [step, apply, hn]
      exact p.balances_gets _
    | update now held => exact p.balances_update now held
    | clearCache =>
      change p.builds + (0 + p.evictions + p.cache.size) = p.builds + (p.cache.size + p.evictions)
      omega
    | _ => exact rfl

theorem balances_after (p : Pager) (steps : List Step) :
    p.Balances (p.cleared steps) (p.after steps) := by
  induction steps generalizing p with
  | nil => exact .refl p
  | cons st steps ih => exact (p.balances_step st).trans (ih (p.step st))

/-- After every run from a new pager, the chunks that have been built are those in the cache, those
that were evicted and those that were dropped when the cache was cleared. -/
theorem builds_eq_size_add_evictions_add_cleared (s : Sources) (resources : TemplateCache)
    (uploads : Bool) (steps : List Step) :
    let start := Pager.new s.records s.models s.config resources uploads
    let p := start.after steps
    p.builds = p.cache.size + p.evictions + start.cleared steps ∧ p.KeepsBooks := by
  intro start p
  have hbalances : 0 + (p.cache.size + p.evictions + start.cleared steps) = p.builds + (0 + 0) :=
    start.balances_after steps
  exact ⟨by omega, p.keepsBooks⟩

end Pager

end DistantChunks
