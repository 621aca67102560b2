import DistantChunks.Proofs.GroupedReferences

/-!
# The first failure of a grouping

A grouping takes references by rising numbers and fails for the first one whose model cannot be
looked up or whose template is refused, with the failure of that one, `ofTable_error_iff_isFirst`.
Until then it asks the source for the mesh of each reference that falls to the chunk and has one,
and for nothing else. Whether a reference looks too small is looked at after that, so it decides
nothing about failures.
-/

namespace DistantChunks

theorem map_eq_error_iff {α β : Type} {f : α → β} {result : Except Failure α} {e : Failure} :
    result.map f = .error e ↔ result = .error e := by
  cases result <;> simp [Except.map]

namespace Grouping

variable {σ : Type}

inductive Reaches (source : TemplateSource σ) (compile : Bool) (s : σ) : σ → Prop
  | refl : Reaches source compile s s
  | request {t : σ} (path : String) : Reaches source compile s t →
    Reaches source compile s (source path compile t).2

/-- Whatever has been requested before, the source refuses the same paths with the same failures. So
does a source whose answers depend on the request alone, and a cache over an unchanging loader. -/
def IsSteady (source : TemplateSource σ) (compile : Bool) (s : σ)
    (refuses : String → Failure → Prop) : Prop :=
  ∀ t, Reaches source compile s t → ∀ path e,
    (source path compile t).1 = .error e ↔ refuses path e

variable (v : ChunkView) (config : PagingConfig) (models : ModelResolver)
  (source : TemplateSource σ) (refuses : String → Failure → Prop)

def mesh? (r : Reference) : Option String :=
  if v.admits config r then
    match models r.kind (lowercase r.id) with
    | .ok model => if model = "" then none else some (meshPath model)
    | .error _ => none
  else none

/-- The failure that a reference leads to if it falls to the chunk: that of its model, or that of
its template. -/
inductive Offends (r : Reference) : Failure → Prop
  | model {e : Failure} : v.admits config r = true →
    models r.kind (lowercase r.id) = .error e → Offends r e
  | template {model : String} {e : Failure} : v.admits config r = true →
    models r.kind (lowercase r.id) = .ok model → model ≠ "" → refuses (meshPath model) e →
    Offends r e

/-- The failure of the reference that offends under the least number. -/
def IsFirst (refs : RefTable) (e : Failure) : Prop :=
  ∃ (n : RefNum) (r : Reference), refs[n]? = some r ∧ Offends v config models refuses r e ∧
    ∀ (m : RefNum) (r' : Reference), compare m n = .lt → refs[m]? = some r' →
      ∀ e', ¬ Offends v config models refuses r' e'

def ask (rs : List Reference) (s : σ) : σ :=
  (rs.filterMap (mesh? v config models)).foldl (fun t path => (source path v.compile t).2) s

/-- How a run over some references ends: none of them offends and all are asked for, or the first
that offends is the last that is asked for. -/
inductive Ends (rs : List Reference) (s : σ) : Except Failure Collection × σ → Prop
  | ok {c : Collection} : (∀ r ∈ rs, ∀ e, ¬ Offends v config models refuses r e) →
    Ends rs s (.ok c, ask v config models source rs s)
  | failed {before after : List Reference} {r : Reference} {e : Failure} :
    rs = before ++ r :: after → (∀ r' ∈ before, ∀ e', ¬ Offends v config models refuses r' e') →
    Offends v config models refuses r e →
    Ends rs s (.error e, ask v config models source (before ++ [r]) s)

section Run

variable {v config models source refuses} {s t : σ} {r : Reference} {e : Failure}
  {model : String}

theorem mesh?_of_model (hadmits : v.admits config r = true)
    (hmodel : models r.kind (lowercase r.id) = .ok model) (hne : model ≠ "") :
    mesh? v config models r = some (meshPath model) := by
  simp only [mesh?, hadmits, hmodel, if_true, if_neg hne]

theorem Offends.admits (h : Offends v config models refuses r e) : v.admits config r = true := by
  cases h <;> assumption

theorem offends_iff_of_error {e' : Failure} (hadmits : v.admits config r = true)
    (hmodel : models r.kind (lowercase r.id) = .error e) :
    Offends v config models refuses r e' ↔ e' = e := by
  constructor
  · intro h
    cases h with
    | model _ hmodel' => exact Except.error.inj (hmodel'.symm.trans hmodel)
    | template _ hmodel' => cases hmodel'.symm.trans hmodel
  · rintro rfl
    exact .model hadmits hmodel

theorem offends_iff_of_ok (hadmits : v.admits config r = true)
    (hmodel : models r.kind (lowercase r.id) = .ok model) :
    Offends v config models refuses r e ↔ model ≠ "" ∧ refuses (meshPath model) e := by
  constructor
  · intro h
    cases h with
    | model _ hmodel' => cases hmodel'.symm.trans hmodel
    | template _ hmodel' hne hrefused =>
      cases hmodel'.symm.trans hmodel
      exact ⟨hne, hrefused⟩
  · rintro ⟨hne, hrefused⟩
    exact .template hadmits hmodel hne hrefused

theorem Offends.unique {e' : Failure} (hsteady : IsSteady source v.compile s refuses)
    (h : Offends v config models refuses r e) (h' : Offends v config models refuses r e') :
    e = e' := by
  cases h with
  | model hadmits hmodel => exact ((offends_iff_of_error hadmits hmodel).1 h').symm
  | template hadmits hmodel _ hrefused =>
    have hrefused' := ((offends_iff_of_ok hadmits hmodel).1 h').2
    rw [← hsteady s .refl] at hrefused hrefused'
    exact Except.error.inj (hrefused.symm.trans hrefused')

theorem ask_append (rs rs' : List Reference) :
    ask v config models source (rs ++ rs') s =
      ask v config models source rs' (ask v config models source rs s) := by
  rw [ask, List.filterMap_append, List.foldl_append]
  rfl

theorem ask_of_mesh? {path : String} (h : mesh? v config models r = some path) :
    ask v config models source [r] s = (source path v.compile s).2 := by
  rw [ask, List.filterMap_cons_some h]
  rfl

theorem ask_of_mesh?_eq_none (h : mesh? v config models r = none) :
    ask v config models source [r] s = s := by
  rw [ask, List.filterMap_cons_none h]
  rfl

theorem Reaches.ask (h : Reaches source v.compile s t) (rs : List Reference) :
    Reaches source v.compile s (ask v config models source rs t) := by
  rw [Grouping.ask]
  induction rs.filterMap (mesh? v config models) generalizing t with
  | nil => exact h
  | cons path paths ih => exact ih (h.request path)

theorem Ends.cons {rs : List Reference} {out : Except Failure Collection × σ}
    (hr : ∀ e, ¬ Offends v config models refuses r e)
    (h : Ends v config models source refuses rs (ask v config models source [r] s) out) :
    Ends v config models source refuses (r :: rs) s out := by
  cases h with
  | ok hall =>
    rw [← ask_append]
    exact .ok (List.forall_mem_cons.2 ⟨hr, hall⟩)
  | failed hsplit hbefore hoffends =>
    rw [← ask_append, ← List.append_assoc, List.singleton_append]
    exact .failed (by rw [hsplit]; rfl) (List.forall_mem_cons.2 ⟨hr, hbefore⟩) hoffends

/-- A reference is taken without failure, or it offends. The source is asked for its mesh if it has
one. -/
theorem step_cases (hsteady : IsSteady source v.compile s refuses)
    (ht : Reaches source v.compile s t) (c : Collection) (r : Reference) :
    (∃ d, step v config models source c r t = (.ok d, ask v config models source [r] t) ∧
      ∀ e, ¬ Offends v config models refuses r e) ∨
    ∃ e, step v config models source c r t = (.error e, ask v config models source [r] t) ∧
      Offends v config models refuses r e := by
  have htakes := takes v config models source c r t
  generalize step v config models source c r t = taken at htakes
  cases htakes with
  | skipped hout =>
    rw [ask_of_mesh?_eq_none (by simp [mesh?, hout])]
    exact .inl ⟨c, rfl, fun e he => absurd he.admits (by simp [hout])⟩
  | unresolved hadmits hmodel =>
    rw [ask_of_mesh?_eq_none (by simp [mesh?, hmodel])]
    exact .inr ⟨_, rfl, .model hadmits hmodel⟩
  | invisible hadmits hmodel =>
    rw [ask_of_mesh?_eq_none (by simp [mesh?, hmodel])]
    exact .inl ⟨c, rfl, fun e he => ((offends_iff_of_ok hadmits hmodel).1 he).1 rfl⟩
  | unloaded hadmits hmodel hne hrefused =>
    rw [ask_of_mesh? (mesh?_of_model hadmits hmodel hne)]
    exact .inr ⟨_, rfl, .template hadmits hmodel hne ((hsteady t ht _ _).1 hrefused)⟩
  | small hadmits hmodel hne hgiven | listed hadmits hmodel hne hgiven =>
    rw [ask_of_mesh? (mesh?_of_model hadmits hmodel hne)]
    refine .inl ⟨_, rfl, fun e he => ?_⟩
    have hrefused := ((offends_iff_of_ok hadmits hmodel).1 he).2
    rw [← hsteady t ht, hgiven] at hrefused
    cases hrefused

theorem ends_run (hsteady : IsSteady source v.compile s refuses)
    (ht : Reaches source v.compile s t) (c : Collection) (rs : List Reference) :
    Ends v config models source refuses rs t (run v config models source c rs t) := by
  induction rs generalizing c t with
  | nil => exact .ok (by simp)
  | cons r rs ih =>
    unfold run
    rcases step_cases hsteady ht c r with ⟨d, hstep, hr⟩ | ⟨e, hstep, hr⟩
    · rw [hstep]
      exact (ih (ht.ask [r]) d).cons hr
    · rw [hstep]
      exact .failed (List.nil_append (r :: rs)).symm (by simp) hr

end Run

theorem exists_number_of_values_eq {refs : RefTable} {before after : List Reference} {r : Reference}
    (h : refs.values = before ++ r :: after) :
    ∃ n : RefNum, refs[n]? = some r ∧ ∀ (m : RefNum) (r' : Reference), compare m n = .lt →
      refs[m]? = some r' → r' ∈ before := by
  rw [values_eq_map_toList, List.map_eq_append_iff] at h
  obtain ⟨front, rest, hlist, hfront, hrest⟩ := h
  obtain ⟨⟨n, s⟩, back, rfl, rfl, -⟩ := List.map_eq_cons_iff.1 hrest
  have hsorted := Std.ExtTreeMap.ordered_keys_toList (t := refs)
  rw [hlist, List.pairwise_append, List.pairwise_cons] at hsorted
  obtain ⟨-, ⟨hback, -⟩, -⟩ := hsorted
  refine ⟨n, ?_, fun m r' hlt hr' => ?_⟩
  · rw [← Std.ExtTreeMap.mem_toList_iff_getElem?_eq_some, hlist]
    exact List.mem_append_right front List.mem_cons_self
  · rw [← Std.ExtTreeMap.mem_toList_iff_getElem?_eq_some, hlist, List.mem_append,
      List.mem_cons] at hr'
    rcases hr' with hr' | heq | hr'
    · exact hfront ▸ List.mem_map_of_mem hr'
    · cases heq
      have hself : compare n n = .eq := Std.ReflCmp.compare_self
      rw [hself] at hlt
      cases hlt
    · have hgt := hback _ hr'
      rw [← Std.OrientedCmp.gt_iff_lt, hlt] at hgt
      cases hgt

section Table

variable {v config models source refuses} {s : σ} {refs : RefTable} {e : Failure}

theorem error_iff_isFirst (hsteady : IsSteady source v.compile s refuses) :
    (ofTable v config models source refs s).1 = .error e ↔
      IsFirst v config models refuses refs e := by
  have hends : Ends v config models source refuses refs.values s
      (ofTable v config models source refs s) := ends_run hsteady .refl .empty refs.values
  generalize ofTable v config models source refs s = out at hends
  cases hends with
  | ok hall =>
    refine ⟨nofun, ?_⟩
    rintro ⟨n, r, hr, hoffends, -⟩
    exact absurd hoffends (hall r (mem_values_iff.2 ⟨n, hr⟩) e)
  | @failed before after r₀ e₀ hsplit hbefore hoffends₀ =>
    obtain ⟨n₀, hr₀, hlesser⟩ := exists_number_of_values_eq hsplit
    constructor
    · rintro ⟨⟩
      exact ⟨n₀, r₀, hr₀, hoffends₀, fun m r' hlt hr' => hbefore r' (hlesser m r' hlt hr')⟩
    · rintro ⟨n, r, hr, hoffends, hleast⟩
      -- neither number can be less than the other
      cases hcompare : compare n n₀ with
      | lt => exact absurd hoffends (hbefore r (hlesser n r hcompare hr) e)
      | gt => exact absurd hoffends₀ (hleast n₀ r₀ (Std.OrientedCmp.gt_iff_lt.1 hcompare) hr₀ e₀)
      | eq =>
        obtain rfl := Std.LawfulEqOrd.eq_of_compare hcompare
        obtain rfl := Option.some.inj (hr.symm.trans hr₀)
        rw [hoffends.unique hsteady hoffends₀]

theorem offends_minSize {minSize : Float32} {r : Reference} :
    Offends v { config with minSize } models refuses r e ↔ Offends v config models refuses r e := by
  constructor <;> intro h <;> cases h with
  | model hadmits hmodel => exact .model hadmits hmodel
  | template hadmits hmodel hne hrefused => exact .template hadmits hmodel hne hrefused

theorem isFirst_minSize {minSize : Float32} :
    IsFirst v { config with minSize } models refuses refs e ↔
      IsFirst v config models refuses refs e := by
  simp only [IsFirst, offends_minSize]

end Table

end Grouping

namespace TemplateCache

theorem Grows.of_reaches {c d : TemplateCache} {compile : Bool}
    (h : Grouping.Reaches TemplateCache.get compile c d) : c.Grows d := by
  induction h with
  | refl => exact .refl c
  | request path _ ih => exact ih.trans (loads_get _ path compile).toGrows

theorem isSteady_get (c : TemplateCache) (compile : Bool) :
    Grouping.IsSteady TemplateCache.get compile c fun path e =>
      (c.get path compile).1 = .error e := by
  intro d hd path e
  rw [← map_eq_error_iff, (Grows.of_reaches hd).value_get, map_eq_error_iff]

end TemplateCache

/-- A build fails with the failure of the reference that offends under the least number, and only
so. -/
theorem Sources.result_build_eq_error_iff {s : Sources} {v : ChunkView} {uploads : Bool}
    {cache : TemplateCache} {e : Failure} :
    (s.build v uploads cache).1.result = .error e ↔
      Grouping.IsFirst v s.config s.models
        (fun path e => (cache.get path v.compile).1 = .error e) (s.refs v) e := by
  rw [result_build, map_eq_error_iff]
  exact Grouping.error_iff_isFirst (cache.isSteady_get v.compile)

namespace Grouping

variable {σ : Type}

/-- A grouping fails if a reference offends, and then with the failure of the one that offends under
the least number, whatever size is too small to be shown. The source is asked for the meshes of the
references up to that one, or of all. -/
theorem ofTable_error_iff_isFirst (v : ChunkView) (config : PagingConfig) (models : ModelResolver)
    {source : TemplateSource σ} {s : σ} {refuses : String → Failure → Prop}
    (hsteady : IsSteady source v.compile s refuses) (refs : RefTable) :
    let grouping := ofTable v config models source refs s
    (∀ e, grouping.1 = .error e ↔ IsFirst v config models refuses refs e) ∧
    ((∃ e, grouping.1 = .error e) ↔ ∃ (n : RefNum) (r : Reference) (e : Failure),
      refs[n]? = some r ∧ Offends v config models refuses r e) ∧
    Ends v config models source refuses refs.values s grouping ∧
    ∀ minSize e, (ofTable v { config with minSize } models source refs s).1 = .error e ↔
      grouping.1 = .error e := by
  intro grouping
  have hfirst (e : Failure) : grouping.1 = .error e ↔ IsFirst v config models refuses refs e :=
    error_iff_isFirst hsteady
  have hends : Ends v config models source refuses refs.values s grouping :=
    ends_run hsteady .refl .empty refs.values
  refine ⟨hfirst, ?_, hends, fun minSize e => ?_⟩
  · constructor
    · rintro ⟨e, he⟩
      obtain ⟨n, r, hr, hoffends, -⟩ := (hfirst e).1 he
      exact ⟨n, r, e, hr, hoffends⟩
    · rintro ⟨n, r, e, hr, hoffends⟩
      generalize grouping = out at hends
      cases hends with
      | ok hall => exact absurd hoffends (hall r (mem_values_iff.2 ⟨n, hr⟩) e)
      | failed => exact ⟨_, rfl⟩
  · rw [hfirst, error_iff_isFirst hsteady, isFirst_minSize]

/-- A shore of which a wreck is out of sight, one reference is a marker, one has no mesh and one is
a pebble, before a wreck in sight, which has no file, and a crab, which has no model. -/
def shore : RefTable :=
  let place (index : UInt32) (kind : RecordKind) (id : String) (x : Float32) : RefNum × Reference :=
    (⟨0, index⟩, .new ⟨0, index⟩ kind id ⟨x, x, 0⟩)
  .ofList [place 6 .creature "crab" 1000, place 5 .static "Wreck" 1000,
    place 4 .static "pebble" 3000, place 3 .static "spot" 1000,
    place 2 .creature "NorthMarker" 1000, place 1 .static "wreck" 6000]

def shoreModels : ModelResolver :=
  (((World.empty.addModel "wreck" .static "wreck.nif").addModel "pebble" .static
    "pebble.nif").addModel "spot" .static "").resolveModel

def shoreView : ChunkView := ⟨0.5, ⟨0.25, 0.25⟩, ⟨1000, 1000, 100⟩, false⟩

def shoreCache : TemplateCache :=
  .new (fun path =>
    if path = "meshes/pebble.nif" then .ok (.drawable .fresh (.cuboid ⟨1, 1, 1⟩))
    else .error (.config "no such file")) true

/-- The crab is not reached, and the pebble is loaded although it is too small to be shown. -/
theorem shore_error_iff_isFirst :
    let refuses (path : String) (e : Failure) := (shoreCache.get path false).1 = .error e
    let grouping := ofTable shoreView .standard shoreModels TemplateCache.get shore shoreCache
    let wrecked := Failure.templateLoad "meshes/wreck.nif" (Failure.config "no such file").message
    IsSteady TemplateCache.get false shoreCache refuses ∧
    (grouping.1 = .error wrecked ∧ grouping.2.templates.keys = ["meshes/pebble.nif"] ∧
      grouping.2.loads = 2) ∧
    IsFirst shoreView .standard shoreModels refuses shore wrecked ∧
    Ends shoreView .standard shoreModels TemplateCache.get refuses shore.values shoreCache
      grouping ∧
    ∀ minSize, (ofTable shoreView { PagingConfig.standard with minSize } shoreModels
      TemplateCache.get shore shoreCache).1 = .error wrecked := by
  intro refuses grouping wrecked
  have hsteady : IsSteady TemplateCache.get false shoreCache refuses :=
    shoreCache.isSteady_get false
  have hgrouping : (grouping.1.map (fun _ => ()), grouping.2.templates.keys, grouping.2.loads) =
      (.error wrecked, ["meshes/pebble.nif"], 2) := by decide +kernel
  obtain ⟨hfailure, hstate⟩ := Prod.mk.inj hgrouping
  obtain ⟨hkeys, hloads⟩ := Prod.mk.inj hstate
  have hwrecked : grouping.1 = .error wrecked := map_eq_error_iff.1 hfailure
  obtain ⟨hfirst, -, hends, hsize⟩ := ofTable_error_iff_isFirst shoreView .standard
    shoreModels hsteady shore
  exact ⟨hsteady, ⟨hwrecked, hkeys, hloads⟩, (hfirst wrecked).1 hwrecked, hends,
    fun minSize => (hsize minSize wrecked).2 hwrecked⟩

end Grouping

end DistantChunks
