import DistantChunks.Proofs.FailedBuilds

/-!
# How requests are counted

A far request that the cache answers counts one hit. Any other is looked up a second time before
its chunk is built, and both look-ups count as misses. So hits and misses add up to the far
requests that were made only as long as none was made, since the first one is always missed.
-/

namespace DistantChunks

structure Call where
  pager : Pager
  request : Request

namespace Call

def isFar (c : Call) : Bool := c.request.far

def isHit (c : Call) : Bool := (c.pager.cache.get? c.request.view.id).isSome

end Call

namespace Pager

/-- The calls of a prefetch, which ends with the first one that fails. -/
def prefetchCalls (p : Pager) : List Request → List Call
  | [] => []
  | r :: rest => match p.get r with
    | (.error _, _) => [⟨p, r⟩]
    | (.ok _, q) => ⟨p, r⟩ :: q.prefetchCalls rest

def calls (p : Pager) : Operation → List Call
  | .get r => [⟨p, r⟩]
  | .prefetch rs => p.prefetchCalls rs
  | _ => []

/-- The calls that are made on the way from a pager to another. Between two operations its template
cache can become any other. -/
inductive Answers (start : Pager) : List Call → Pager → Prop
  | refl : Answers start [] start
  | apply {cs : List Call} {p : Pager} (op : Operation) : Answers start cs p →
    Answers start (cs ++ p.calls op) (p.apply op)
  | share {cs : List Call} {p : Pager} (resources : TemplateCache) : Answers start cs p →
    Answers start cs { p with resources := resources }

def hitCount (cs : List Call) : Nat := cs.countP fun c => c.isFar && c.isHit

def missCount (cs : List Call) : Nat := cs.countP fun c => c.isFar && !c.isHit

theorem hitCount_append (cs ds : List Call) : hitCount (cs ++ ds) = hitCount cs + hitCount ds :=
  List.countP_append

theorem missCount_append (cs ds : List Call) :
    missCount (cs ++ ds) = missCount cs + missCount ds := List.countP_append

theorem hitCount_add_missCount (cs : List Call) :
    hitCount cs + missCount cs = cs.countP Call.isFar := by
  induction cs with
  | nil => rfl
  | cons c cs ih =>
    simp only [hitCount, missCount, List.countP_cons] at ih ⊢
    cases c.isFar <;> cases c.isHit <;> simp <;> omega

/-- Some calls lead from one pager to the next, which has counted them. An empty cache answers none
of them and stays empty until the first is missed. -/
structure Counts (p : Pager) (cs : List Call) (q : Pager) : Prop where
  hits : q.hits = p.hits + hitCount cs
  misses : q.misses = p.misses + 2 * missCount cs
  idle : p.cache.entries = ∅ → missCount cs = 0 → hitCount cs = 0 ∧ q.cache.entries = ∅

namespace Counts

theorem refl (p : Pager) : p.Counts [] p := ⟨rfl, rfl, fun h _ => ⟨rfl, h⟩⟩

theorem append {p q t : Pager} {cs ds : List Call} (h : p.Counts cs q) (h' : q.Counts ds t) :
    p.Counts (cs ++ ds) t where
  hits := by rw [h'.hits, h.hits, hitCount_append, Nat.add_assoc]
  misses := by rw [h'.misses, h.misses, missCount_append, Nat.mul_add, Nat.add_assoc]
  idle hempty hnone := by
    rw [missCount_append, Nat.add_eq_zero_iff] at hnone
    obtain ⟨hhits, hempty⟩ := h.idle hempty hnone.1
    obtain ⟨hhits', hempty⟩ := h'.idle hempty hnone.2
    exact ⟨by rw [hitCount_append, hhits, hhits'], hempty⟩

end Counts

theorem counts_get (p : Pager) (r : Request) : p.Counts [⟨p, r⟩] (p.get r).2 := by
  have hserves := p.serves r
  generalize p.get r = served, p.getEvents r = events at hserves
  cases hserves with
  | near hnear => constructor <;> simp [hitCount, missCount, Call.isFar, hnear]
  | hit hfar hcached =>
    refine ⟨?_, ?_, fun hempty => ?_⟩
    · simp [hitCount, Call.isFar, Call.isHit, hfar, hcached]
    · simp [missCount, Call.isFar, Call.isHit, hfar, hcached]
    · simp [ChunkCache.get?, hempty] at hcached
  | failed hfar hcached | built hfar hcached =>
    constructor <;> simp [hitCount, missCount, Call.isFar, Call.isHit, hfar, hcached, create]

theorem counts_prefetch (p : Pager) (rs : List Request) :
    p.Counts (p.prefetchCalls rs) (p.prefetch rs).2 := by
  induction rs generalizing p with
  | nil => exact .refl p
  | cons r rs ih =>
    have hget := p.counts_get r
    rw [snd_prefetch_cons, prefetchCalls]
    generalize p.get r = served at hget
    rcases served with ⟨_ | chunk, q⟩
    · exact hget
    · exact hget.append (ih q)

theorem counts_apply (p : Pager) (op : Operation) : p.Counts (p.calls op) (p.apply op) := by
  cases op with
  | get r => exact p.counts_get r
  | prefetch rs => exact p.counts_prefetch rs
  | update now held =>
    refine ⟨rfl, rfl, fun hempty _ => ⟨rfl, Std.ExtTreeMap.ext_getElem? fun key => ?_⟩⟩
    simp [apply, update, ChunkCache.update, hempty]
  | clearCache => exact ⟨rfl, rfl, fun _ _ => ⟨rfl, rfl⟩⟩
  | _ => exact ⟨rfl, rfl, fun hempty _ => ⟨rfl, hempty⟩⟩

theorem Answers.counts {start p : Pager} {cs : List Call} (h : start.Answers cs p) :
    start.Counts cs p := by
  induction h with
  | refl => exact .refl start
  | apply op _ ih => exact ih.append (counts_apply _ op)
  | share resources _ ih => exact ⟨ih.hits, ih.misses, ih.idle⟩

/-- Along every run from a new pager the hits are the far requests that the cache has answered, and
the misses are twice the others. They add up to the far requests that were made only if none was
made. -/
theorem counts_of_answers {s : Sources} {resources : TemplateCache} {uploads : Bool}
    {cs : List Call} {p : Pager}
    (h : (Pager.new s.records s.models s.config resources uploads).Answers cs p) :
    p.hits = hitCount cs ∧ p.misses = 2 * missCount cs ∧
      (p.hits + p.misses = cs.countP Call.isFar ↔ ∀ c ∈ cs, c.isFar = false) := by
  have hhits : p.hits = hitCount cs := h.counts.hits.trans (Nat.zero_add _)
  have hmisses : p.misses = 2 * missCount cs := h.counts.misses.trans (Nat.zero_add _)
  have hfar := hitCount_add_missCount cs
  have hnone : cs.countP Call.isFar = 0 ↔ ∀ c ∈ cs, c.isFar = false := by
    simp [List.countP_eq_zero]
  refine ⟨hhits, hmisses, ?_⟩
  rw [← hnone, hhits, hmisses]
  constructor
  · intro hsum
    have hmissed : missCount cs = 0 := by omega
    have hhit := (h.counts.idle rfl hmissed).1
    omega
  · omega

def plenty : TemplateCache := .new (fun _ => .ok (.drawable .fresh (.cuboid ⟨1, 1, 1⟩))) true

/-- A chunk that cannot be built at first is asked for twice when all templates are there, and once
more as a near one. -/
theorem quay_counts :
    let p := quayPager.apply (.get quayRequest)
    let full : Pager := { p with resources := plenty }
    let near : Request := { quayRequest with far := false }
    let op := Operation.prefetch [quayRequest, near, quayRequest]
    let cs := [⟨quayPager, quayRequest⟩] ++ full.calls op
    quayPager.Answers cs (full.apply op) ∧ cs.countP Call.isFar = 3 ∧
      (full.apply op).hits = 1 ∧ (full.apply op).misses = 4 := by
  intro p full near op cs
  have hanswers : quayPager.Answers cs (full.apply op) :=
    .apply op (.share plenty (.apply (.get quayRequest) .refl))
  obtain ⟨hhits, hmisses, -⟩ := counts_of_answers
    (s := ⟨quay.store, quay.resolveModel, .empty, .standard⟩) hanswers
  have hhit : hitCount cs = 1 := by decide +kernel
  have hmiss : missCount cs = 2 := by decide +kernel
  refine ⟨hanswers, ?_, by rw [hhits, hhit], by rw [hmisses, hmiss]⟩
  rw [← hitCount_add_missCount, hhit, hmiss]

/-- A first request whose chunk is built counts two misses. -/
theorem first_request_counts_twice :
    let start := Pager.new quay.store quay.resolveModel .standard plenty true
    let cs : List Call := [⟨start, quayRequest⟩]
    let q := (start.get quayRequest).2
    start.Answers cs q ∧ q.builds = 1 ∧ cs.countP Call.isFar = 1 ∧ q.hits + q.misses = 2 := by
  intro start cs q
  have hanswers : start.Answers cs q := .apply (.get quayRequest) .refl
  have hhits : q.hits = 0 := hanswers.counts.hits.trans (by decide)
  have hmisses : q.misses = 2 := hanswers.counts.misses.trans (by decide)
  exact ⟨hanswers, by decide +kernel, by decide, by rw [hhits, hmisses]⟩

end Pager

end DistantChunks
