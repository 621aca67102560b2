import DistantChunks.Proofs.ChunkContents
import DistantChunks.Proofs.History

/-!
# How requests are served

A request is near, finds its chunk in the cache, or has it built, which may fail. Only the last way
puts a chunk into the cache, and none takes one out. So the requests of one prefetch get the same
chunk wherever their keys are equal, and a prefetch in which none fails is the requests one after
the other.
-/

namespace DistantChunks

namespace ChunkId

/-- The same number, where zeros of both signs are one. -/
def Agree (a b : Float32) : Prop := a = b ∨ (a == 0) = true ∧ (b == 0) = true

theorem toBits_inj {a b : Float32} (h : a.toBits = b.toBits) : a = b := by
  obtain ⟨⟨bits, valid⟩⟩ := a
  obtain ⟨⟨bits', valid'⟩⟩ := b
  change bits = bits' at h
  subst h
  rfl

theorem beq_zero_of_toBits {a : Float32} (h : a.toBits = 0) : (a == 0) = true := by
  have hzero : a = 0 := toBits_inj (h.trans (by decide))
  subst hzero
  decide

theorem canonicalBits_eq_iff {a b : Float32} :
    canonicalBits a = canonicalBits b ↔ Agree a b := by
  by_cases ha : (a == 0) = true <;> by_cases hb : (b == 0) = true
  · simp [canonicalBits, Agree, ha, hb]
  · rw [canonicalBits, canonicalBits, if_pos ha, if_neg hb]
    refine ⟨fun h => absurd (beq_zero_of_toBits h.symm) hb, ?_⟩
    rintro (rfl | h)
    · exact absurd ha hb
    · exact absurd h.2 hb
  · rw [canonicalBits, canonicalBits, if_neg ha, if_pos hb]
    refine ⟨fun h => absurd (beq_zero_of_toBits h) ha, ?_⟩
    rintro (rfl | h)
    · exact absurd hb ha
    · exact absurd h.1 ha
  · rw [canonicalBits, canonicalBits, if_neg ha, if_neg hb]
    refine ⟨fun h => .inl (toBits_inj h), ?_⟩
    rintro (rfl | h)
    · rfl
    · exact absurd h.1 ha

theorem key_eq_iff {a b : ChunkId} : a.key = b.key ↔
    Agree a.center.x b.center.x ∧ Agree a.center.y b.center.y ∧ Agree a.size b.size := by
  simp only [key, ChunkKey.mk.injEq, canonicalBits_eq_iff]

end ChunkId

theorem ChunkCache.get?_congr {c : ChunkCache} {a b : ChunkId} (h : a.key = b.key) :
    c.get? a = c.get? b := by
  rw [get?, get?, h]

namespace Pager

/-- The four ways in which a request is served, with the pager and the events after it. -/
inductive Serves (p : Pager) (r : Request) :
    Except Failure (Option (Shared Chunk)) × Pager → List Event → Prop
  | near : r.far = false → Serves p r (.ok none, p) []
  | hit {chunk : Shared Chunk} : r.far = true → p.cache.get? r.view.id = some chunk →
    Serves p r (.ok (some chunk), { p with hits := p.hits + 1 }) []
  | failed {e : Failure} : r.far = true → p.cache.get? r.view.id = none →
    (p.create r.view).1 = .error e →
    Serves p r (.error e, { (p.create r.view).2 with misses := p.misses + 2 }) []
  | built {chunk : Chunk} : r.far = true → p.cache.get? r.view.id = none →
    (p.create r.view).1 = .ok chunk →
    Serves p r (.ok (some ⟨p.nextSerial, chunk⟩), { (p.create r.view).2 with
      cache := p.cache.insert ⟨p.nextSerial, chunk⟩
      nextSerial := p.nextSerial + 1
      builds := p.builds + 1
      misses := p.misses + 2 }) [.built ⟨r.view, p.disabled, ⟨p.nextSerial, chunk⟩⟩]

theorem get_hit {p : Pager} {r : Request} (hfar : r.far = true) {chunk : Shared Chunk}
    (h : p.cache.get? r.view.id = some chunk) :
    p.get r = (.ok (some chunk), { p with hits := p.hits + 1 }) := by
  simp [get, hfar, lookUp, h]

theorem get_miss {p : Pager} {r : Request} (hfar : r.far = true)
    (h : p.cache.get? r.view.id = none) :
    p.get r = match (p.create r.view).1 with
      | .error e => (.error e, { (p.create r.view).2 with misses := p.misses + 2 })
      | .ok chunk => (.ok (some ⟨p.nextSerial, chunk⟩), { (p.create r.view).2 with
          cache := p.cache.insert ⟨p.nextSerial, chunk⟩
          nextSerial := p.nextSerial + 1
          builds := p.builds + 1
          misses := p.misses + 2 }) := by
  obtain ⟨records, models, config, resources, uploads, disabled, cache, building, nextSerial, hits,
    misses, builds, evictions, unreadable⟩ := p
  dsimp only at h
  simp only [get, hfar, Bool.not_true, Bool.false_eq_true, if_false, lookUp, h, announce, supply,
    buildAndInsert, create, sources, conclude]
  generalize Sources.build _ r.view uploads resources = built
  obtain ⟨⟨missing, result⟩, resources⟩ := built
  cases result <;> simp [Except.map]

theorem serves (p : Pager) (r : Request) : Serves p r (p.get r) (p.getEvents r) := by
  cases hfar : r.far with
  | false =>
    have hget : p.get r = (.ok none, p) := by simp [get, hfar]
    simp only [getEvents, hget]
    exact .near hfar
  | true =>
    cases hcached : p.cache.get? r.view.id with
    | some chunk =>
      simp only [getEvents, get_hit hfar hcached, if_true]
      exact .hit hfar hcached
    | none =>
      have hget := get_miss hfar hcached
      cases hcreate : (p.create r.view).1 with
      | error e =>
        rw [hcreate] at hget
        simp only [getEvents, hget]
        exact .failed hfar hcached hcreate
      | ok chunk =>
        rw [hcreate] at hget
        simp only [getEvents, hget, Nat.add_eq_left, Nat.one_ne_zero, if_false]
        exact .built hfar hcached hcreate

theorem cached_get {p : Pager} {id : ChunkId} {chunk : Shared Chunk}
    (h : p.cache.get? id = some chunk) (r : Request) :
    (p.get r).2.cache.get? id = some chunk := by
  have hserves := p.serves r
  generalize p.get r = served, p.getEvents r = events at hserves
  cases hserves with
  | near | hit | failed => exact h
  | @built made _ hcached hc =>
    have hid : made.id = r.view.id := Sources.id_of_build (s := p.sources) hc
    have hne : made.id.key ≠ id.key := by
      intro heq
      rw [hid] at heq
      rw [ChunkCache.get?, heq] at hcached
      rw [ChunkCache.get?, hcached] at h
      cases h
    rw [ChunkCache.get?_insert, if_neg hne]
    exact h

theorem cached_of_get {p : Pager} {r : Request} {chunk : Shared Chunk}
    (h : (p.get r).1 = .ok (some chunk)) : (p.get r).2.cache.get? r.view.id = some chunk := by
  have hserves := p.serves r
  generalize p.get r = served, p.getEvents r = events at hserves h
  cases hserves with
  | near | failed => cases h
  | hit _ hcached =>
    cases h
    exact hcached
  | built _ _ hc =>
    cases h
    have hid := Sources.id_of_build (s := p.sources) hc
    rw [ChunkCache.get?_insert, if_pos (by rw [hid])]

/-- A request that fails changes nothing but the templates, its misses and what it could not
read. -/
theorem frame_of_get {p : Pager} {r : Request} {e : Failure} (he : (p.get r).1 = .error e) :
    (p.get r).2 = { p with
        resources := (p.create r.view).2.resources
        misses := p.misses + 2
        unreadable := (p.create r.view).2.unreadable } ∧
      r.far = true ∧ p.cache.get? r.view.id = none ∧ (p.create r.view).1 = .error e := by
  have hserves := p.serves r
  generalize p.get r = served, p.getEvents r = events at hserves he
  cases hserves with
  | near | hit | built => cases he
  | failed hfar hcached hc =>
    cases he
    exact ⟨rfl, hfar, hcached, hc⟩

theorem get_of_create {p : Pager} {r : Request} (hfar : r.far = true)
    (hcached : p.cache.get? r.view.id = none) {chunk : Chunk}
    (hc : (p.create r.view).1 = .ok chunk) :
    (p.get r).1 = .ok (some ⟨p.nextSerial, chunk⟩) ∧
      (p.get r).2.cache = p.cache.insert ⟨p.nextSerial, chunk⟩ ∧
      (p.get r).2.builds = p.builds + 1 ∧
      ((p.get r).2.get r).1 = .ok (some ⟨p.nextSerial, chunk⟩) := by
  have hget := get_miss hfar hcached
  rw [hc] at hget
  have hchunk : (p.get r).1 = .ok (some ⟨p.nextSerial, chunk⟩) := by rw [hget]
  refine ⟨hchunk, by rw [hget], by rw [hget], ?_⟩
  rw [get_hit hfar (cached_of_get hchunk)]

theorem exists_chunk_of_get {p : Pager} {r : Request} (hfar : r.far = true)
    {found : Option (Shared Chunk)} (h : (p.get r).1 = .ok found) :
    ∃ chunk, found = some chunk := by
  have hserves := p.serves r
  generalize p.get r = served, p.getEvents r = events at hserves h
  cases hserves with
  | near hnear => rw [hnear] at hfar; cases hfar
  | failed => cases h
  | hit | built => exact ⟨_, (Except.ok.inj h).symm⟩

theorem disabled_get (p : Pager) (r : Request) : (p.get r).2.disabled = p.disabled := by
  have hserves := p.serves r
  generalize p.get r = served, p.getEvents r = events at hserves
  cases hserves <;> rfl

theorem snd_prefetch_cons (p : Pager) (r : Request) (rs : List Request) :
    (p.prefetch (r :: rs)).2 = match (p.get r).1 with
      | .error _ => (p.get r).2
      | .ok _ => ((p.get r).2.prefetch rs).2 := by
  rw [prefetch]
  rcases p.get r with ⟨_ | chunk, q⟩
  · rfl
  · dsimp only
    rcases q.prefetch rs with ⟨_ | _, _⟩ <;> rfl

theorem disabled_prefetch (p : Pager) (rs : List Request) :
    (p.prefetch rs).2.disabled = p.disabled := by
  induction rs generalizing p with
  | nil => rfl
  | cons r rs ih =>
    rw [snd_prefetch_cons]
    split
    · exact p.disabled_get r
    · exact (ih _).trans (p.disabled_get r)

theorem disabled_run (p : Pager) (ops : List Operation) :
    (p.run ops).disabled = ops.foldl Operation.disabling p.disabled := by
  induction ops generalizing p with
  | nil => rfl
  | cons op ops ih =>
    have happly : (p.apply op).disabled = op.disabling p.disabled := by
      cases op with
      | get r => exact p.disabled_get r
      | prefetch rs => exact p.disabled_prefetch rs
      | _ => rfl
    rw [List.foldl_cons, ← happly, ← ih]
    rfl

/-- Requests one after the other, whether or not they fail. -/
def gets (p : Pager) : List Request → List (Except Failure (Option (Shared Chunk))) × Pager
  | [] => ([], p)
  | r :: rest => ((p.get r).1 :: ((p.get r).2.gets rest).1, ((p.get r).2.gets rest).2)

theorem prefetch_cons_eq_ok_iff {p q : Pager} {r : Request} {rs : List Request}
    {chunks : List (Option (Shared Chunk))} :
    p.prefetch (r :: rs) = (.ok chunks, q) ↔ ∃ chunk rest, (p.get r).1 = .ok chunk ∧
      (p.get r).2.prefetch rs = (.ok rest, q) ∧ chunks = chunk :: rest := by
  rw [prefetch]
  rcases p.get r with ⟨_ | chunk, t⟩
  · simp
  · dsimp only
    rcases t.prefetch rs with ⟨_ | rest, u⟩
    · simp
    · simp [and_comm, eq_comm]

/-- A prefetch in which no request fails is the requests one after the other. -/
theorem prefetch_eq_ok_iff {p q : Pager} {rs : List Request}
    {chunks : List (Option (Shared Chunk))} :
    p.prefetch rs = (.ok chunks, q) ↔ p.gets rs = (chunks.map .ok, q) := by
  induction rs generalizing p chunks with
  | nil => cases chunks <;> simp [prefetch, gets]
  | cons r rs ih =>
    rw [prefetch_cons_eq_ok_iff]
    constructor
    · rintro ⟨chunk, rest, hchunk, hrest, rfl⟩
      simp [gets, hchunk, ih.1 hrest]
    · intro h
      cases chunks with
      | nil => simp [gets] at h
      | cons chunk rest =>
        simp only [gets, List.map_cons, Prod.mk.injEq, List.cons.injEq] at h
        obtain ⟨⟨hchunk, hrest⟩, hq⟩ := h
        exact ⟨chunk, rest, hchunk, ih.2 (Prod.ext hrest hq), rfl⟩

theorem eq_of_prefetch_of_cached {p q : Pager} {id : ChunkId} {chunk : Shared Chunk}
    (hcached : p.cache.get? id = some chunk) {rs : List Request}
    {chunks : List (Option (Shared Chunk))} (h : p.prefetch rs = (.ok chunks, q)) :
    ∀ x ∈ rs.zip chunks, x.1.far = true → x.1.view.id.key = id.key → x.2 = some chunk := by
  induction rs generalizing p chunks with
  | nil => simp
  | cons r rs ih =>
    obtain ⟨c, rest, hc, hrest, rfl⟩ := prefetch_cons_eq_ok_iff.1 h
    intro x hx hfar hkey
    rcases List.mem_cons.1 hx with rfl | hx
    · rw [← ChunkCache.get?_congr hkey] at hcached
      rw [get_hit hfar hcached] at hc
      exact (Except.ok.inj hc).symm
    · exact ih (cached_get hcached r) hrest x hx hfar hkey

/-- Requests of one prefetch with equal keys get the same chunk. -/
theorem pairwise_of_prefetch {p q : Pager} {rs : List Request}
    {chunks : List (Option (Shared Chunk))} (h : p.prefetch rs = (.ok chunks, q)) :
    (rs.zip chunks).Pairwise fun x y => x.1.far = true → y.1.far = true →
      x.1.view.id.key = y.1.view.id.key → x.2 = y.2 := by
  induction rs generalizing p chunks with
  | nil => exact .nil
  | cons r rs ih =>
    obtain ⟨c, rest, hc, hrest, rfl⟩ := prefetch_cons_eq_ok_iff.1 h
    refine .cons (fun y hy hfar hyfar hkey => ?_) (ih hrest)
    obtain ⟨chunk, rfl⟩ := exists_chunk_of_get hfar hc
    exact (eq_of_prefetch_of_cached (cached_of_get hc) hrest y hy hyfar hkey.symm).symm

end Pager

end DistantChunks
