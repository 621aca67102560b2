import DistantChunks.Chunk.Build

/-!
# How a build proceeds

A build groups the references that are scanned, one after the other, and synthesizes the groups if
none of them fails. What each of these steps can do is said here once.
-/

namespace DistantChunks

namespace Grouping

variable {σ : Type} {v : ChunkView} {config : PagingConfig} {models : ModelResolver}
  {source : TemplateSource σ}

variable (v config models source) in
/-- The ways in which a reference is taken. A template is asked for only if the reference falls to
the chunk and has a model. -/
inductive Takes (c : Collection) (r : Reference) (s : σ) : Except Failure Collection × σ → Prop
  | skipped : v.admits config r = false → Takes c r s (.ok c, s)
  | unresolved {e : Failure} : v.admits config r = true →
    models r.kind (lowercase r.id) = .error e → Takes c r s (.error e, s)
  | invisible : v.admits config r = true → models r.kind (lowercase r.id) = .ok "" →
    Takes c r s (.ok c, s)
  | unloaded {model : String} {e : Failure} : v.admits config r = true →
    models r.kind (lowercase r.id) = .ok model → model ≠ "" →
    (source (meshPath model) v.compile s).1 = .error e →
    Takes c r s (.error e, (source (meshPath model) v.compile s).2)
  | small {model : String} {t : Shared Template} : v.admits config r = true →
    models r.kind (lowercase r.id) = .ok model → model ≠ "" →
    (source (meshPath model) v.compile s).1 = .ok t →
    v.isTooSmall config t.value.bound.radius r = true →
    Takes c r s (.ok c, (source (meshPath model) v.compile s).2)
  | listed {model : String} {t : Shared Template} : v.admits config r = true →
    models r.kind (lowercase r.id) = .ok model → model ≠ "" →
    (source (meshPath model) v.compile s).1 = .ok t →
    v.isTooSmall config t.value.bound.radius r = false →
    Takes c r s (.ok (c.add (meshPath model) t r), (source (meshPath model) v.compile s).2)

theorem step_of_model {c : Collection} {r : Reference} {s : σ} {model : String}
    (hadmits : v.admits config r = true) (hmodel : models r.kind (lowercase r.id) = .ok model)
    (hne : model ≠ "") :
    step v config models source c r s =
      ((source (meshPath model) v.compile s).1.map fun t =>
        if v.isTooSmall config t.value.bound.radius r then c else c.add (meshPath model) t r,
      (source (meshPath model) v.compile s).2) := by
  simp only [step, hadmits, hmodel, if_neg hne]
  rcases source (meshPath model) v.compile s with ⟨e | t, s'⟩
  · rfl
  · dsimp only [Except.map]
    cases v.isTooSmall config t.value.bound.radius r <;> rfl

variable (v config models source) in
theorem takes (c : Collection) (r : Reference) (s : σ) :
    Takes v config models source c r s (step v config models source c r s) := by
  cases hadmits : v.admits config r with
  | false =>
    simp only [step, hadmits]
    exact .skipped hadmits
  | true =>
    cases hmodel : models r.kind (lowercase r.id) with
    | error e =>
      simp only [step, hadmits, hmodel]
      exact .unresolved hadmits hmodel
    | ok model =>
      by_cases hne : model = ""
      · subst hne
        simp only [step, hadmits, hmodel]
        exact .invisible hadmits hmodel
      · rw [step_of_model hadmits hmodel hne]
        cases hgot : (source (meshPath model) v.compile s).1 with
        | error e => exact .unloaded hadmits hmodel hne hgot
        | ok t =>
          cases hsmall : v.isTooSmall config t.value.bound.radius r with
          | true =>
            simp only [Except.map, hsmall]
            exact .small hadmits hmodel hne hgot hsmall
          | false =>
            simp only [Except.map, hsmall]
            exact .listed hadmits hmodel hne hgot hsmall

/-- What every answer of the source preserves, a whole run preserves. -/
theorem rel_run {R : σ → σ → Prop} (hrefl : ∀ s, R s s)
    (htrans : ∀ {s t u}, R s t → R t u → R s u)
    (hsource : ∀ path s, R s (source path v.compile s).2) (c : Collection) (rs : List Reference)
    (s : σ) : R s (run v config models source c rs s).2 := by
  induction rs generalizing c s with
  | nil => exact hrefl s
  | cons r rs ih =>
    have htakes := takes v config models source c r s
    unfold run
    generalize step v config models source c r s = taken at htakes
    cases htakes with
    | skipped | invisible => exact ih c s
    | unresolved => exact hrefl s
    | unloaded => exact hsource _ s
    | small => exact htrans (hsource _ s) (ih _ _)
    | listed => exact htrans (hsource _ s) (ih _ _)

end Grouping

def Synthesis.upload (s : Synthesis) (v : ChunkView) (uploads : Bool) (cache : TemplateCache) :
    TemplateCache :=
  match s.mergeGroup with
  | some group => if v.compile && uploads then cache.enqueue group else cache
  | none => cache

namespace Sources

def refs (s : Sources) (v : ChunkView) : RefTable :=
  (s.scan v.size v.center (decide (s.config.farFilterSize ≤ v.size))).refs

def group (s : Sources) (v : ChunkView) (cache : TemplateCache) :
    Except Failure Collection × TemplateCache :=
  Grouping.ofTable v s.config s.models TemplateCache.get (s.refs v) cache

/-- The ways in which a build ends. Only one that succeeds may put a merge group into the queue. -/
inductive Builds (s : Sources) (v : ChunkView) (cache : TemplateCache) :
    Except Failure Chunk × TemplateCache → Prop
  | failed {e : Failure} : (s.group v cache).1 = .error e →
    Builds s v cache (.error e, (s.group v cache).2)
  | built {c : Collection} : (s.group v cache).1 = .ok c →
    Builds s v cache (.ok (Synthesis.ofCollection s.config v c).chunk, (s.group v cache).2)
  | queued {c : Collection} (n : Node Float32) : (s.group v cache).1 = .ok c →
    Builds s v cache
      (.ok (Synthesis.ofCollection s.config v c).chunk, (s.group v cache).2.enqueue n)

theorem build_eq (s : Sources) (v : ChunkView) (uploads : Bool) (cache : TemplateCache) :
    ((s.build v uploads cache).1.result, (s.build v uploads cache).2) =
      match s.group v cache with
      | (.error e, grown) => (.error e, grown)
      | (.ok c, grown) => (.ok (Synthesis.ofCollection s.config v c).chunk,
        (Synthesis.ofCollection s.config v c).upload v uploads grown) := by
  have hgroup : Grouping.ofTable v s.config s.models TemplateCache.get
      (s.scan v.size v.center (decide (s.config.farFilterSize ≤ v.size))).refs cache =
        s.group v cache := rfl
  rw [build]
  dsimp only
  rw [hgroup]
  rcases s.group v cache with ⟨e | c, grown⟩ <;> rfl

theorem builds (s : Sources) (v : ChunkView) (uploads : Bool) (cache : TemplateCache) :
    s.Builds v cache ((s.build v uploads cache).1.result, (s.build v uploads cache).2) := by
  rw [build_eq]
  rcases hgroup : s.group v cache with ⟨e | c, grown⟩
  · have hfailed := Builds.failed (congrArg Prod.fst hgroup)
    rwa [hgroup] at hfailed
  · have hok := congrArg Prod.fst hgroup
    have hgrown : (s.group v cache).2 = grown := congrArg Prod.snd hgroup
    dsimp only [Synthesis.upload]
    split
    · split
      · exact hgrown ▸ .queued _ hok
      · exact hgrown ▸ .built hok
    · exact hgrown ▸ .built hok

theorem result_build (s : Sources) (v : ChunkView) (uploads : Bool) (cache : TemplateCache) :
    (s.build v uploads cache).1.result =
      (s.group v cache).1.map fun c => (Synthesis.ofCollection s.config v c).chunk := by
  refine (congrArg Prod.fst (s.build_eq v uploads cache)).trans ?_
  rcases s.group v cache with ⟨e | c, grown⟩ <;> rfl

end Sources

end DistantChunks
