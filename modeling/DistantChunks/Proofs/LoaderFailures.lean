import DistantChunks.Proofs.Serving
import DistantChunks.Proofs.TemplateGrowth

/-!
# What failures come out of a build

A world resolves the model of everything that a scan can find, near or far, and contexts that
cannot be read are passed over by the scan. So a build from a world fails only if the loader does,
and the failure always names a template.
-/

namespace DistantChunks

/-- The failures of a loader as a template cache reports them: those that name a template as they
are, all others in their words and with the path that was asked for. -/
inductive TemplateCache.Reports (c : TemplateCache) : Failure → Prop
  | named {path p reason : String} : c.loader path = .error (.templateLoad p reason) →
    Reports c (.templateLoad p reason)
  | wrapped {path : String} {cause : Failure} : c.loader path = .error cause →
    (∀ p reason, cause ≠ .templateLoad p reason) → Reports c (.templateLoad path cause.message)

namespace TemplateCache

variable {c : TemplateCache} {e : Failure}

theorem reports_loadFailure {path : String} {cause : Failure}
    (h : c.loader path = .error cause) : c.Reports (loadFailure path cause) := by
  cases cause with
  | templateLoad p reason => exact .named h
  | cellRead | unresolvable | config | io | json => exact .wrapped h (by simp)

theorem Reports.eq_templateLoad (h : c.Reports e) :
    ∃ path reason, e = .templateLoad path reason := by
  cases h with
  | named | wrapped => exact ⟨_, _, rfl⟩

end TemplateCache

def Resolves (models : ModelResolver) : Prop :=
  ∀ kind id, kind.isShown false = true → ∃ model, models kind id = .ok model

theorem isShown_of_isShown {far : Bool} {kind : RecordKind} (h : kind.isShown far = true) :
    kind.isShown false = true := by
  cases kind <;> first | rfl | cases h

theorem World.resolves (w : World) : Resolves w.resolveModel := by
  intro kind id h
  cases kind with
  | static | activator | door | container =>
    simp only [resolveModel]
    split <;> exact ⟨_, rfl⟩
  | creature | npc | light | misc | other => cases h

namespace Sources

variable {s : Sources} {v : ChunkView} {cache : TemplateCache} {e : Failure}

theorem exists_model_of_scan (h : Resolves s.models) {size : Float32} {center : Vec2 Float32}
    {far : Bool} {n : RefNum} {r : Reference} (hr : (s.scan size center far).refs[n]? = some r)
    (id : String) : ∃ model, s.models r.kind id = .ok model := by
  obtain ⟨-, -, hshown, -⟩ := Scan.fits_of_getElem?_run s.disabled far n s.records hr
  exact h r.kind id (isShown_of_isShown hshown)

/-- Where every model is found, only the loader is left to fail. -/
theorem reports_of_fault (h : Resolves s.models) {size : Float32} {center : Vec2 Float32}
    {far : Bool} {n : RefNum} {r : Reference} (hr : (s.scan size center far).refs[n]? = some r)
    (hfault : Grouping.Fault s.models cache r e) : cache.Reports e := by
  cases hfault with
  | model hmodel =>
    obtain ⟨model, hfound⟩ := exists_model_of_scan h hr (lowercase r.id)
    rw [hmodel] at hfound
    cases hfound
  | template _ _ _ hcause => exact TemplateCache.reports_loadFailure hcause

theorem reports_of_collect (h : Resolves s.models) {far : Bool}
    (he : (s.collect v far cache).1 = .error e) : cache.Reports e := by
  obtain ⟨n, r, hr, -, hfault⟩ := Grouping.exists_fault_of_ofTable he
  exact reports_of_fault h hr hfault

theorem reports_of_build (h : Resolves s.models) {uploads : Bool}
    (he : (s.build v uploads cache).1.result = .error e) : cache.Reports e := by
  obtain ⟨n, r, hr, -, hfault⟩ := exists_fault_of_build he
  exact reports_of_fault h hr hfault

end Sources

/-- Whatever a world holds, paging fails only by the loader, and the failure names a template. -/
theorem World.reports_of_error (w : World) (disabled : DisabledSet) (config : PagingConfig) :
    let s : Sources := ⟨w.store, w.resolveModel, disabled, config⟩
    (∀ v far cache e, (s.collect v far cache).1 = .error e → cache.Reports e) ∧
    (∀ v uploads cache e, (s.build v uploads cache).1.result = .error e → cache.Reports e) ∧
    (∀ p : Pager, p.sources = s →
      (∀ v e, (p.create v).1 = .error e → p.resources.Reports e) ∧
      ∀ r e, (p.get r).1 = .error e → p.resources.Reports e) ∧
    (∀ cache e, TemplateCache.Reports cache e → ∃ path reason, e = .templateLoad path reason) := by
  intro s
  have hcreate (p : Pager) (hp : p.sources = s) (v : ChunkView) (e : Failure)
      (he : (p.create v).1 = .error e) : p.resources.Reports e := by
    have hresolves : Resolves p.sources.models := hp ▸ w.resolves
    exact Sources.reports_of_build hresolves he
  refine ⟨fun v far cache e => Sources.reports_of_collect w.resolves,
    fun v uploads cache e => Sources.reports_of_build w.resolves,
    fun p hp => ⟨hcreate p hp, fun r e he => ?_⟩,
    fun cache e => TemplateCache.Reports.eq_templateLoad⟩
  obtain ⟨-, -, -, hc⟩ := Pager.frame_of_get he
  exact hcreate p hp r.view e hc

end DistantChunks
