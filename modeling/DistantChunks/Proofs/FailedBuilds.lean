import DistantChunks.Proofs.LoaderFailures
import DistantChunks.Proofs.Memo

/-!
# Requests that fail

A request whose build fails leaves no trace but the templates that were loaded on the way, the
misses it has counted and the contexts it could not read. The same request succeeds as soon as the
loader supplies what is still missing, and is then served like the first request for its chunk.
-/

namespace DistantChunks

inductive Sources.Needs (s : Sources) (v : ChunkView) : String → Prop
  | intro {n : RefNum} {r : Reference} {model : String} : (s.refs v)[n]? = some r →
    v.admits s.config r = true → s.models r.kind (lowercase r.id) = .ok model → model ≠ "" →
    Needs s v (Grouping.meshPath model)

/-- A build succeeds if all models are found and no template is missing that cannot be loaded. -/
theorem Sources.exists_chunk_of_build {s : Sources} (h : Resolves s.models) {v : ChunkView}
    {cache : TemplateCache} (hloads : ∀ path, s.Needs v path → cache.templates[path]? = none →
      ∃ root, cache.loader path = .ok root) (uploads : Bool) :
    ∃ chunk, (s.build v uploads cache).1.result = .ok chunk := by
  cases hresult : (s.build v uploads cache).1.result with
  | ok chunk => exact ⟨chunk, rfl⟩
  | error e =>
    obtain ⟨n, r, hr, hadmits, hfault⟩ := exists_fault_of_build hresult
    exfalso
    cases hfault with
    | model hmodel =>
      obtain ⟨model, hfound⟩ := exists_model_of_scan h hr (lowercase r.id)
      rw [hmodel] at hfound
      cases hfound
    | template hmodel hne hnone hcause =>
      obtain ⟨root, hroot⟩ := hloads _ (.intro hr hadmits hmodel hne) hnone
      rw [hcause] at hroot
      cases hroot

namespace Pager

/-- The states that a pager comes to. Its template cache may be used by others as well, so that
between two operations it can become any other. -/
inductive Reachable (start : Pager) : Pager → Prop
  | refl : Reachable start start
  | apply {p : Pager} (op : Operation) : Reachable start p → Reachable start (p.apply op)
  | share {p : Pager} (resources : TemplateCache) : Reachable start p →
    Reachable start { p with resources := resources }

theorem building_get (p : Pager) (r : Request) : (p.get r).2.building = p.building := by
  have hserves := p.serves r
  generalize p.get r = served, p.getEvents r = events at hserves
  cases hserves <;> rfl

theorem building_prefetch (p : Pager) (rs : List Request) :
    (p.prefetch rs).2.building = p.building := by
  induction rs generalizing p with
  | nil => rfl
  | cons r rs ih =>
    rw [snd_prefetch_cons]
    split
    · exact p.building_get r
    · exact (ih _).trans (p.building_get r)

theorem building_apply (p : Pager) (op : Operation) : (p.apply op).building = p.building := by
  cases op with
  | get r => exact p.building_get r
  | prefetch rs => exact p.building_prefetch rs
  | _ => rfl

theorem Reachable.building_eq {start p : Pager} (h : start.Reachable p) :
    p.building = start.building := by
  induction h with
  | refl => rfl
  | apply op _ ih => exact (building_apply _ op).trans ih
  | share _ _ ih => exact ih

/-- A request that fails leaves the cache with its clock, the counts of builds and evictions, the
disabled objects and the queue as they were, announces no build any longer, and adds only templates
that were loaded. Once the loader supplies what is missing, the same request builds and caches its
chunk. -/
theorem get_error_keeps {s : Sources} {resources : TemplateCache} {uploads : Bool} {p : Pager}
    (h : (Pager.new s.records s.models s.config resources uploads).Reachable p) {r : Request}
    {e : Failure} (he : (p.get r).1 = .error e) :
    let q := (p.get r).2
    (q.cache = p.cache ∧ q.builds = p.builds ∧ q.evictions = p.evictions ∧
      q.disabled = p.disabled ∧ q.building = []) ∧
    (p.resources.uploads = false → q.resources.queue = p.resources.queue) ∧
    p.resources.Loads q.resources ∧
    ∀ loader : String → Except Failure (Node Float32), Resolves p.models →
      (∀ path, p.sources.Needs r.view path → q.resources.templates[path]? = none →
        ∃ root, loader path = .ok root) →
      ∃ chunk, ((q.reload loader).create r.view).1 = .ok chunk ∧
        ((q.reload loader).get r).1 = .ok (some ⟨p.nextSerial, chunk⟩) ∧
        ((q.reload loader).get r).2.cache = p.cache.insert ⟨p.nextSerial, chunk⟩ ∧
        ((q.reload loader).get r).2.builds = p.builds + 1 ∧
        ((q.reload loader).get r).2.building = [] ∧
        (((q.reload loader).get r).2.get r).1 = .ok (some ⟨p.nextSerial, chunk⟩) ∧
        ((q.reload loader).resources.Follows loader →
          p.sources.answer loader r.view = .ok chunk.anonymous) := by
  intro q
  obtain ⟨hq, hfar, hcached, hc⟩ := frame_of_get he
  have hbuilding : p.building = [] := h.building_eq
  have hloads : p.resources.Loads q.resources := by
    simp only [q, hq]
    exact Sources.loads_build hc
  refine ⟨?_, fun huploads => ?_, hloads, fun loader hresolves hneeds => ?_⟩
  · simp only [q, hq]
    exact ⟨trivial, trivial, trivial, trivial, hbuilding⟩
  · obtain ⟨roots, hqueue, hnone, -⟩ := hloads.queued
    rw [hqueue, hnone huploads, List.foldl_nil]
  · let again := q.reload loader
    have hsources : again.sources = p.sources := by
      simp only [again, q, hq]
      rfl
    obtain ⟨chunk, hchunk⟩ : ∃ chunk, (again.create r.view).1 = .ok chunk :=
      Sources.exists_chunk_of_build (hsources ▸ hresolves) (hsources ▸ hneeds) again.uploads
    have hcache : again.cache = p.cache := by simp only [again, q, hq, reload]
    have hserial : again.nextSerial = p.nextSerial := by simp only [again, q, hq, reload]
    have hbuilds : again.builds = p.builds := by simp only [again, q, hq, reload]
    have hidle : again.building = p.building := by simp only [again, q, hq, reload]
    have hget := get_of_create hfar (hcache ▸ hcached) hchunk
    rw [hcache, hserial, hbuilds] at hget
    refine ⟨chunk, hchunk, hget.1, hget.2.1, hget.2.2.1,
      (building_get _ r).trans (hidle.trans hbuilding), hget.2.2.2, fun hfollows => ?_⟩
    have hanswer := (again.sources.build_follows hfollows r.view again.uploads).1
    rw [← hsources, ← hanswer]
    exact congrArg (Except.map Chunk.anonymous) hchunk

def barrel : Reference := .new ⟨0, 1⟩ .static "barrel" ⟨4096, 4096, 0⟩

def crane : Reference := .new ⟨0, 2⟩ .static "crane" ⟨4096, 6144, 0⟩

def quay : World :=
  { (World.empty.addModel "barrel" .static "barrel.nif").addModel "crane" .static "crane.nif" with
    cells := [(Cell.new 0 0).pushContext [barrel, crane]] }

def loadBarrel (path : String) : Except Failure (Node Float32) :=
  if path = "meshes/barrel.nif" then .ok (.drawable .fresh (.cuboid ⟨1, 1, 1⟩))
  else .error (.config "no such file")

def quayRequest : Request := ⟨⟨2, ⟨1, 1⟩, ⟨4096, 4096, 0⟩, false⟩, true⟩

def quayPager : Pager := .new quay.store quay.resolveModel .standard (.new loadBarrel true) true

/-- The barrel is loaded before the crane is missing, and stays. -/
theorem quay_get_keeps :
    let p := quayPager.apply (.enable ⟨0, 9⟩ false)
    let q := (p.get quayRequest).2
    let again := q.reload fun _ => .ok (.drawable .fresh (.cuboid ⟨1, 1, 1⟩))
    quayPager.Reachable p ∧
    (p.get quayRequest).1 =
      .error (.templateLoad "meshes/crane.nif" "Config error: no such file") ∧
    q.cache = p.cache ∧ q.building = [] ∧ q.resources.contains "meshes/barrel.nif" = true ∧
    ∃ chunk, (again.get quayRequest).1 = .ok (some ⟨0, chunk⟩) ∧
      (again.get quayRequest).2.builds = 1 := by
  intro p q again
  have hreachable : quayPager.Reachable p := .apply _ .refl
  have hmissing : ((p.get quayRequest).1.map fun _ => ()) =
      .error (.templateLoad "meshes/crane.nif" "Config error: no such file") := by
    decide +kernel
  have he : (p.get quayRequest).1 =
      .error (.templateLoad "meshes/crane.nif" "Config error: no such file") := by
    cases hget : (p.get quayRequest).1 with
    | error e =>
      rw [hget] at hmissing
      cases hmissing
      rfl
    | ok chunk =>
      rw [hget] at hmissing
      cases hmissing
  obtain ⟨⟨hcache, -, -, -, hidle⟩, -, -, hagain⟩ := get_error_keeps
    (s := ⟨quay.store, quay.resolveModel, .empty, .standard⟩) hreachable he
  obtain ⟨chunk, -, hchunk, -, hbuilds, -⟩ :=
    hagain (fun _ => .ok (.drawable .fresh (.cuboid ⟨1, 1, 1⟩))) quay.resolves
      fun _ _ _ => ⟨_, rfl⟩
  exact ⟨hreachable, he, hcache, hidle, by decide +kernel, chunk, hchunk, hbuilds⟩

end Pager

end DistantChunks
