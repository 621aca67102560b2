import DistantChunks.Chunk.Build

/-!
# A build depends on no cache

Templates come from a cache, but the cache only remembers what the loader said. So the chunk of a
view is the same whatever has been loaded before, apart from the serial numbers of its templates.
The answer of some sources is the chunk that is built from the loader alone.
-/

namespace DistantChunks

def Shared.anonymous {β : Type} (s : Shared β) : Shared β := { s with serial := 0 }

def InstanceList.anonymous (l : InstanceList) : InstanceList :=
  { l with template := l.template.anonymous }

def Collection.anonymous (c : Collection) : Collection :=
  { c with lists := c.lists.map InstanceList.anonymous }

/-- A chunk that does not say which loads its templates came from. -/
def Chunk.anonymous (c : Chunk) : Chunk :=
  { c with templates := c.templates.map Shared.anonymous }

namespace TemplateCache

variable (loader : String → Except Failure (Node Float32))

def answer (path : String) : Except Failure Template :=
  match loader path with
  | .error e => .error (loadFailure path e)
  | .ok root => .ok (.new path root)

/-- The source that asks the loader every time. -/
def uncached : TemplateSource Unit :=
  fun path _ u => ((answer loader path).map fun template => ⟨0, template⟩, u)

/-- A cache that remembers nothing but answers of the loader. -/
structure Follows (c : TemplateCache) : Prop where
  loader_eq : c.loader = loader
  answered : ∀ path template, c.templates[path]? = some template →
    answer loader path = .ok template.value

variable {loader} {c : TemplateCache}

theorem follows_new (uploads : Bool) : (new loader uploads).Follows loader where
  loader_eq := rfl
  answered path template h := by simp [new] at h

namespace Follows

theorem enqueue (h : c.Follows loader) (n : Node Float32) : (c.enqueue n).Follows loader :=
  ⟨h.loader_eq, h.answered⟩

theorem prune (h : c.Follows loader) (held : Nat → Bool) : (c.prune held).2.Follows loader where
  loader_eq := h.loader_eq
  answered path template ht := by
    simp only [TemplateCache.prune, Std.ExtTreeMap.getElem?_filter'] at ht
    exact h.answered path template (Option.filter_eq_some_iff.1 ht).1

theorem insert (h : c.Follows loader) {path : String} {template : Template}
    (ht : answer loader path = .ok template) (serial loads nextSerial : Nat) :
    { c with
      templates := c.templates.insert path ⟨serial, template⟩
      loads := loads
      nextSerial := nextSerial }.Follows loader where
  loader_eq := h.loader_eq
  answered p t hp := by
    rw [Std.ExtTreeMap.getElem?_insert] at hp
    split at hp
    · rename_i heq
      cases hp
      rwa [← Std.LawfulEqOrd.eq_of_compare heq]
    · exact h.answered p t hp

theorem load (h : c.Follows loader) (path : String) (compile : Bool) :
    (c.load path compile).1.map Shared.anonymous = (uncached loader path compile ()).1 ∧
      (c.load path compile).2.Follows loader := by
  obtain rfl := h.loader_eq
  simp only [TemplateCache.load, uncached]
  cases hl : c.loader path with
  | error e =>
    rw [answer, hl]
    exact ⟨rfl, rfl, h.answered⟩
  | ok root =>
    have hanswer : answer c.loader path = .ok (.new path root) := by rw [answer, hl]
    have hinserted := h.insert hanswer c.nextSerial (c.loads + 1) (c.nextSerial + 1)
    rw [hanswer]
    refine ⟨rfl, ?_⟩
    dsimp only
    split
    · exact hinserted.enqueue root
    · exact hinserted

theorem get (h : c.Follows loader) (path : String) (compile : Bool) :
    (c.get path compile).1.map Shared.anonymous = (uncached loader path compile ()).1 ∧
      (c.get path compile).2.Follows loader := by
  cases ht : c.templates[path]? with
  | none => simpa only [TemplateCache.get, ht] using h.load path compile
  | some template =>
    simp only [TemplateCache.get, ht, uncached, h.answered path template ht]
    exact ⟨rfl, h⟩

end Follows

end TemplateCache

theorem Collection.anonymous_add (c : Collection) (path : String) (template : Shared Template)
    (r : Reference) :
    (c.add path template r).anonymous = c.anonymous.add path template.anonymous r := by
  have hany : (c.lists.map InstanceList.anonymous).any (·.path == path) =
      c.lists.any (·.path == path) := by
    rw [List.any_map]
    rfl
  by_cases hc : c.lists.any (·.path == path) = true
  · simp only [add, anonymous, hany, hc, if_true, List.map_map]
    congr 1
    apply List.map_congr_left
    intro l _
    by_cases hl : (l.path == path) = true
    · simp only [Function.comp_apply, hl, if_pos (show (l.anonymous.path == path) = true from hl)]
      rfl
    · simp only [Function.comp_apply, hl, if_neg (show ¬(l.anonymous.path == path) = true from hl)]
      rfl
  · simp only [add, anonymous, hany, hc, Bool.false_eq_true, if_false, List.map_append]
    rfl

namespace Grouping

variable (v : ChunkView) (config : PagingConfig) (models : ModelResolver)
  {loader : String → Except Failure (Node Float32)} {cache : TemplateCache}

theorem step_follows (h : cache.Follows loader) (c : Collection) (r : Reference) :
    (step v config models TemplateCache.get c r cache).1.map Collection.anonymous =
        (step v config models (TemplateCache.uncached loader) c.anonymous r ()).1 ∧
      (step v config models TemplateCache.get c r cache).2.Follows loader := by
  unfold step
  split
  · exact ⟨rfl, h⟩
  cases models r.kind (lowercase r.id) with
  | error e => exact ⟨rfl, h⟩
  | ok model =>
    dsimp only
    split
    · exact ⟨rfl, h⟩
    have hget := h.get (meshPath model) v.compile
    generalize TemplateCache.get (meshPath model) v.compile cache = got at hget ⊢
    generalize TemplateCache.uncached loader (meshPath model) v.compile () = plain at hget ⊢
    obtain ⟨result, cache⟩ := got
    obtain ⟨_, _⟩ := plain
    obtain ⟨rfl, hfollows⟩ := hget
    cases result with
    | error e => exact ⟨rfl, hfollows⟩
    | ok template =>
      have hsame : template.anonymous.value = template.value := rfl
      by_cases hsmall : v.isTooSmall config template.value.bound.radius r = true
      · simp only [Except.map, hsame, hsmall, if_true]
        exact ⟨trivial, hfollows⟩
      · simp only [Except.map, hsame, hsmall, Bool.false_eq_true, if_false]
        exact ⟨congrArg _ (c.anonymous_add _ template r), hfollows⟩

theorem run_follows (h : cache.Follows loader) (c : Collection) (rs : List Reference) :
    (run v config models TemplateCache.get c rs cache).1.map Collection.anonymous =
        (run v config models (TemplateCache.uncached loader) c.anonymous rs ()).1 ∧
      (run v config models TemplateCache.get c rs cache).2.Follows loader := by
  induction rs generalizing c cache with
  | nil => exact ⟨rfl, h⟩
  | cons r rs ih =>
    have hstep := step_follows v config models h c r
    unfold run
    generalize step v config models TemplateCache.get c r cache = taken at hstep ⊢
    generalize step v config models (TemplateCache.uncached loader) c.anonymous r () = plain
      at hstep ⊢
    obtain ⟨result, cache⟩ := taken
    obtain ⟨_, _⟩ := plain
    obtain ⟨rfl, hfollows⟩ := hstep
    cases result with
    | error e => exact ⟨rfl, hfollows⟩
    | ok c => exact ih hfollows c

end Grouping

theorem Synthesis.anonymous_ofCollection (config : PagingConfig) (v : ChunkView) (c : Collection) :
    (ofCollection config v c).chunk.anonymous = (ofCollection config v c.anonymous).chunk := by
  have hplaced : placeAll config v c.anonymous = placeAll config v c := by
    simp only [placeAll, Collection.anonymous, List.flatMap_map]
    rfl
  simp only [ofCollection, Chunk.anonymous, hplaced]
  simp only [Collection.anonymous, List.map_map]
  rfl

namespace Sources

/-- The chunk of a view when only the loader is asked. -/
def answer (s : Sources) (loader : String → Except Failure (Node Float32)) (v : ChunkView) :
    Except Failure Chunk :=
  let refs := (s.scan v.size v.center (decide (s.config.farFilterSize ≤ v.size))).refs
  (Grouping.ofTable v s.config s.models (TemplateCache.uncached loader) refs ()).1.map
    fun c => (Synthesis.ofCollection s.config v c).chunk

theorem build_follows (s : Sources) {loader : String → Except Failure (Node Float32)}
    {cache : TemplateCache} (h : cache.Follows loader) (v : ChunkView) (uploads : Bool) :
    (s.build v uploads cache).1.result.map Chunk.anonymous = s.answer loader v ∧
      (s.build v uploads cache).2.Follows loader := by
  have hrun := Grouping.run_follows v s.config s.models h .empty
    (s.scan v.size v.center (decide (s.config.farFilterSize ≤ v.size))).refs.values
  simp only [build, answer, Grouping.ofTable]
  generalize Grouping.run v s.config s.models TemplateCache.get .empty _ cache = grouped at hrun ⊢
  obtain ⟨result, cache⟩ := grouped
  obtain ⟨hresult, hfollows⟩ := hrun
  have hempty : Collection.empty.anonymous = .empty := rfl
  rw [hempty] at hresult
  rw [← hresult]
  cases result with
  | error e => exact ⟨rfl, hfollows⟩
  | ok c =>
    refine ⟨congrArg Except.ok (Synthesis.anonymous_ofCollection s.config v c), ?_⟩
    dsimp only
    split
    · split
      · exact hfollows.enqueue _
      · exact hfollows
    · exact hfollows

end Sources

end DistantChunks
