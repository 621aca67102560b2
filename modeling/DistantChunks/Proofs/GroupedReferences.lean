import DistantChunks.Proofs.PinnedTemplates
import Mathlib.Data.List.Nodup

/-!
# Grouping sorts references into lists

A grouping takes references by rising numbers. Each one is passed over for one of four reasons or
put at the end of the list of its mesh, which is started if there is none. What the lists then say
about the references taken so far, `Grouped`, is kept by every step, so that in the end they divide
what was not passed over among themselves, each list in the order of the numbers and the lists in
the order of their first references.
-/

namespace DistantChunks

def Reference.Precedes (r s : Reference) : Prop := compare r.number s.number = .lt

theorem Reference.not_precedes_self (r : Reference) : ¬ r.Precedes r := by
  have hself : compare r.number r.number = .eq := Std.ReflCmp.compare_self
  rw [Precedes, hself]
  decide

theorem pairwise_values_precedes {refs : RefTable}
    (hkeys : ∀ (n : RefNum) (r : Reference), refs[n]? = some r → r.number = n) :
    refs.values.Pairwise Reference.Precedes := by
  rw [values_eq_map_toList, List.pairwise_map]
  refine Std.ExtTreeMap.ordered_keys_toList.imp_of_mem fun {a b} ha hb hlt => ?_
  rw [Std.ExtTreeMap.mem_toList_iff_getElem?_eq_some] at ha hb
  rwa [Reference.Precedes, hkeys _ _ ha, hkeys _ _ hb]

namespace TemplateCache

variable {c d : TemplateCache} {path : String} {compile : Bool}

theorem Grows.value_get (h : c.Grows d) (path : String) (compile : Bool) :
    (d.get path compile).1.map Shared.value = (c.get path compile).1.map Shared.value := by
  cases hc : c.templates[path]? with
  | some t =>
    have hd := h.kept path t hc
    simp only [TemplateCache.get, hc, hd]
  | none =>
    cases hd : d.templates[path]? with
    | none =>
      simp only [TemplateCache.get, hc, hd, load, h.loader_eq]
      cases c.loader path <;> rfl
    | some t =>
      rcases h.gained path t hd with hkept | ⟨-, root, hroot, ht⟩
      · rw [hc] at hkept
        cases hkept
      · simp only [TemplateCache.get, hc, hd, load, hroot, Except.map, ht]

theorem IsNumbered.path_of_get (hc : c.IsNumbered) {template : Template}
    (h : (c.get path compile).1.map Shared.value = .ok template) : template.path = path := by
  have hgets := c.gets path compile
  generalize TemplateCache.get path compile c = got at hgets h
  cases hgets with
  | cached ht =>
    cases h
    exact hc.path_eq path _ ht
  | failed => cases h
  | loaded =>
    cases h
    rfl

end TemplateCache

namespace Collection

variable {c : Collection} {path : String} {t : Shared Template} {r : Reference}

variable (c path t r) in
/-- The two ways in which a reference is put into a list: at the end of the list of its path, or
as the first of a new one behind all others. -/
inductive Adds : List InstanceList → Prop
  | appended {before after : List InstanceList} {l : InstanceList} :
    c.lists = before ++ l :: after → l.path = path →
    Adds (before ++ { l with instances := l.instances ++ [r] } :: after)
  | started {census : Census} : path ∉ c.lists.map (·.path) →
    Adds (c.lists ++ [⟨path, t, census, [r]⟩])

theorem map_append_of_path_ne {ks : List InstanceList} (hks : ∀ k ∈ ks, k.path ≠ path) :
    (ks.map fun k => if k.path == path then { k with instances := k.instances ++ [r] } else k)
      = ks := by
  refine (List.map_congr_left fun k hk => ?_).trans (List.map_id ks)
  rw [if_neg (by simpa using hks k hk)]
  rfl

theorem adds (hapart : (c.lists.map (·.path)).Nodup) : c.Adds path t r (c.add path t r).lists := by
  by_cases hmem : path ∈ c.lists.map (·.path)
  · obtain ⟨l, hl, rfl⟩ := List.mem_map.1 hmem
    obtain ⟨before, after, hsplit⟩ := List.append_of_mem hl
    rw [hsplit, List.map_append, List.map_cons, List.nodup_middle, List.nodup_cons,
      ← List.map_append] at hapart
    have hother (k : InstanceList) (hk : k ∈ before ++ after) : k.path ≠ l.path := fun heq =>
      hapart.1 (heq ▸ List.mem_map_of_mem hk)
    have hany : (c.lists.any (·.path == l.path)) = true :=
      List.any_eq_true.2 ⟨l, hl, beq_self_eq_true _⟩
    have hlists : (c.add l.path t r).lists =
        before ++ { l with instances := l.instances ++ [r] } :: after := by
      rw [add, if_pos hany]
      dsimp only
      rw [hsplit, List.map_append, List.map_cons,
        map_append_of_path_ne fun k hk => hother k (List.mem_append_left after hk),
        map_append_of_path_ne fun k hk => hother k (List.mem_append_right before hk),
        if_pos (beq_self_eq_true _)]
    rw [hlists]
    exact .appended hsplit rfl
  · have hany : ¬ (c.lists.any (·.path == path)) = true := by
      simpa [List.any_eq_true] using hmem
    rw [add, if_neg hany]
    exact .started hmem

theorem Adds.perm_references {ls : List InstanceList} (h : c.Adds path t r ls) :
    (ls.flatMap (·.instances)).Perm (r :: c.references) := by
  cases h with
  | @appended before after l hsplit _ =>
    have hmiddle : (before.flatMap (·.instances) ++ l.instances ++
        r :: after.flatMap (·.instances)).Perm _ := List.perm_middle
    simpa [references, hsplit, List.append_assoc] using hmiddle
  | started =>
    rw [List.flatMap_append, List.flatMap_singleton]
    exact List.perm_append_singleton r _

theorem Adds.of_mem {ls : List InstanceList} (h : c.Adds path t r ls) {k : InstanceList}
    (hk : k ∈ ls) : k ∈ c.lists ∨
      (∃ l ∈ c.lists, l.path = path ∧ k = { l with instances := l.instances ++ [r] }) ∨
      ∃ census, k = ⟨path, t, census, [r]⟩ := by
  cases h with
  | @appended before after l hsplit hpath =>
    have hl : l ∈ c.lists := hsplit ▸ List.mem_append_right before List.mem_cons_self
    rcases List.mem_append.1 hk with hk | hk
    · exact .inl (hsplit ▸ List.mem_append_left _ hk)
    · rcases List.mem_cons.1 hk with rfl | hk
      · exact .inr (.inl ⟨l, hl, hpath, rfl⟩)
      · exact .inl (hsplit ▸ List.mem_append_right before (List.mem_cons_of_mem l hk))
  | started =>
    rcases List.mem_append.1 hk with hk | hk
    · exact .inl hk
    · exact .inr (.inr ⟨_, List.mem_singleton.1 hk⟩)

theorem Adds.nodup_paths {ls : List InstanceList} (h : c.Adds path t r ls)
    (hapart : (c.lists.map (·.path)).Nodup) : (ls.map (·.path)).Nodup := by
  cases h with
  | appended hsplit =>
    rw [hsplit, List.map_append, List.map_cons] at hapart
    rw [List.map_append, List.map_cons]
    exact hapart
  | started hnew =>
    rw [List.map_append, List.map_singleton]
    exact List.nodup_append_comm.1 (List.nodup_cons.2 ⟨hnew, hapart⟩)

theorem Adds.firsts {ls : List InstanceList} (h : c.Adds path t r ls)
    (hnonempty : ∀ l ∈ c.lists, l.instances ≠ []) :
    ls.filterMap (·.instances.head?) = c.lists.filterMap (·.instances.head?) ∨
      ls.filterMap (·.instances.head?) = c.lists.filterMap (·.instances.head?) ++ [r] := by
  cases h with
  | @appended before after l hsplit =>
    left
    have hl : l ∈ c.lists := hsplit ▸ List.mem_append_right before List.mem_cons_self
    obtain ⟨s, rest, hinstances⟩ := List.exists_cons_of_ne_nil (hnonempty l hl)
    rw [hsplit, List.filterMap_append, List.filterMap_append, List.filterMap_cons,
      List.filterMap_cons, hinstances]
    rfl
  | started =>
    right
    rw [List.filterMap_append]
    rfl

end Collection

namespace Grouping

variable {v : ChunkView} {config : PagingConfig} {models : ModelResolver}

variable (v config models) in
/-- The reasons for which a reference is passed over. The template is the one that the cache gives
for the mesh. -/
inductive PassesOver (cache : TemplateCache) (r : Reference) : Prop
  | outside : v.size < 1 → Coverage.holds v.size v.center config.cellSize r.position = false →
    PassesOver cache r
  | marker : lowercase r.id ∈ markerIds → PassesOver cache r
  | invisible : models r.kind (lowercase r.id) = .ok "" → PassesOver cache r
  | small {model : String} {template : Template} : models r.kind (lowercase r.id) = .ok model →
    (cache.get (meshPath model) v.compile).1.map Shared.value = .ok template →
    template.bound.radius * r.scale < v.eye.distance r.position * config.minSize →
    PassesOver cache r

theorem admits_eq_false_iff {r : Reference} : v.admits config r = false ↔
    (v.size < 1 ∧ Coverage.holds v.size v.center config.cellSize r.position = false) ∨
      lowercase r.id ∈ markerIds := by
  simp [ChunkView.admits, imp_iff_not_or, or_comm]

variable (v models) in
/-- The references of one mesh by rising numbers, with the template that the cache gives for it. -/
structure IsGroup (cache : TemplateCache) (l : InstanceList) : Prop where
  nonempty : l.instances ≠ []
  offered : (cache.get l.path v.compile).1.map Shared.value = .ok l.template.value
  resolves : ∀ r ∈ l.instances, ∃ model : String,
    models r.kind (lowercase r.id) = .ok model ∧ l.path = meshPath model
  ascending : l.instances.Pairwise Reference.Precedes

theorem IsGroup.append {cache : TemplateCache} {l : InstanceList} {r : Reference} {model : String}
    (h : IsGroup v models cache l) (hlast : ∀ s ∈ l.instances, s.Precedes r)
    (hmodel : models r.kind (lowercase r.id) = .ok model) (hpath : l.path = meshPath model) :
    IsGroup v models cache { l with instances := l.instances ++ [r] } where
  nonempty := by simp
  offered := h.offered
  resolves s hs := by
    rcases List.mem_append.1 hs with hs | hs
    · exact h.resolves s hs
    · exact ⟨model, List.mem_singleton.1 hs ▸ hmodel, hpath⟩
  ascending := List.pairwise_append.2 ⟨h.ascending, List.pairwise_singleton _ r,
    fun s hs _ hr => List.mem_singleton.1 hr ▸ hlast s hs⟩

variable (v config models) in
/-- What the lists say about the references `taken` so far. -/
structure Grouped (cache : TemplateCache) (taken : List Reference) (c : Collection) : Prop where
  mem_iff : ∀ r : Reference, r ∈ c.references ↔ r ∈ taken ∧ ¬ PassesOver v config models cache r
  nodup : c.references.Nodup
  groups : ∀ l ∈ c.lists, IsGroup v models cache l
  apart : (c.lists.map (·.path)).Nodup
  firsts : (c.lists.filterMap (·.instances.head?)).Pairwise Reference.Precedes

namespace Grouped

variable {cache : TemplateCache} {taken : List Reference} {c : Collection} {r : Reference}

theorem empty : Grouped v config models cache [] .empty := by
  constructor <;> simp [Collection.empty, Collection.references]

theorem pass (h : Grouped v config models cache taken c)
    (hpass : PassesOver v config models cache r) :
    Grouped v config models cache (taken ++ [r]) c := by
  refine { h with mem_iff := fun s => ?_ }
  rw [h.mem_iff, List.mem_append, List.mem_singleton, or_and_right]
  refine (or_iff_left ?_).symm
  rintro ⟨rfl, hnot⟩
  exact hnot hpass

/-- Any other reference comes behind all that are listed, since these have lower numbers. -/
theorem list (h : Grouped v config models cache taken c)
    (hafter : ∀ s ∈ taken, s.Precedes r) (hnot : ¬ PassesOver v config models cache r)
    {model : String} {t : Shared Template} (hmodel : models r.kind (lowercase r.id) = .ok model)
    (ht : (cache.get (meshPath model) v.compile).1.map Shared.value = .ok t.value) :
    Grouped v config models cache (taken ++ [r]) (c.add (meshPath model) t r) := by
  have hadds : c.Adds (meshPath model) t r (c.add (meshPath model) t r).lists := c.adds h.apart
  have hperm : (c.add (meshPath model) t r).references.Perm (r :: c.references) :=
    hadds.perm_references
  have hlast (s : Reference) (hs : s ∈ c.references) : s.Precedes r :=
    hafter s ((h.mem_iff s).1 hs).1
  have hfresh : r ∉ c.references := fun hr => r.not_precedes_self (hlast r hr)
  have hin {l : InstanceList} (hl : l ∈ c.lists) {s : Reference} (hs : s ∈ l.instances) :
      s ∈ c.references := List.mem_flatMap.2 ⟨l, hl, hs⟩
  refine {
    mem_iff := fun s => ?_
    nodup := hperm.nodup_iff.2 (List.nodup_cons.2 ⟨hfresh, h.nodup⟩)
    groups := fun k hk => ?_
    apart := hadds.nodup_paths h.apart
    firsts := ?_ }
  · rw [hperm.mem_iff, List.mem_cons, h.mem_iff, List.mem_append, List.mem_singleton]
    constructor
    · rintro (rfl | ⟨hs, hlisted⟩)
      · exact ⟨.inr rfl, hnot⟩
      · exact ⟨.inl hs, hlisted⟩
    · rintro ⟨hs | rfl, hlisted⟩
      · exact .inr ⟨hs, hlisted⟩
      · exact .inl rfl
  · rcases hadds.of_mem hk with hk | ⟨l, hl, hpath, rfl⟩ | ⟨census, rfl⟩
    · exact h.groups k hk
    · exact (h.groups l hl).append (fun s hs => hlast s (hin hl hs)) hmodel hpath
    · exact ⟨by simp, ht, fun s hs => ⟨model, List.mem_singleton.1 hs ▸ hmodel, rfl⟩,
        List.pairwise_singleton _ r⟩
  · rcases hadds.firsts fun l hl => (h.groups l hl).nonempty with hsame | hmore
    · rw [hsame]
      exact h.firsts
    · rw [hmore, List.pairwise_append]
      refine ⟨h.firsts, List.pairwise_singleton _ r, fun s hs _ hr => ?_⟩
      obtain ⟨l, hl, hhead⟩ := List.mem_filterMap.1 hs
      exact List.mem_singleton.1 hr ▸ hlast s (hin hl (List.mem_of_head? hhead))

end Grouped

theorem passesOver_iff_isTooSmall {cache : TemplateCache} {r : Reference} {model : String}
    {template : Template} (hadmits : v.admits config r = true)
    (hmodel : models r.kind (lowercase r.id) = .ok model) (hne : model ≠ "")
    (ht : (cache.get (meshPath model) v.compile).1.map Shared.value = .ok template) :
    PassesOver v config models cache r ↔ v.isTooSmall config template.bound.radius r = true := by
  have hfalls : ¬ v.admits config r = false := by simp [hadmits]
  rw [admits_eq_false_iff, not_or] at hfalls
  rw [ChunkView.isTooSmall, decide_eq_true_eq]
  constructor
  · intro hpass
    cases hpass with
    | outside hfine hout => exact absurd ⟨hfine, hout⟩ hfalls.1
    | marker hmarker => exact absurd hmarker hfalls.2
    | invisible hempty =>
      rw [hmodel] at hempty
      exact absurd (Except.ok.inj hempty) hne
    | small hmodel' ht' hsmall =>
      rw [hmodel] at hmodel'
      cases hmodel'
      rw [ht] at ht'
      cases ht'
      exact hsmall
  · exact .small hmodel ht

section Run

variable {start cache : TemplateCache} {taken : List Reference} {c d : Collection}

theorem Grouped.step (h : Grouped v config models start taken c) (hgrows : start.Grows cache)
    {r : Reference} (hafter : ∀ s ∈ taken, s.Precedes r)
    (hstep : (step v config models TemplateCache.get c r cache).1 = .ok d) :
    Grouped v config models start (taken ++ [r]) d := by
  have hvalue (path : String) {t : Shared Template}
      (ht : (cache.get path v.compile).1 = .ok t) :
      (start.get path v.compile).1.map Shared.value = .ok t.value := by
    rw [← hgrows.value_get, ht]
    rfl
  have htakes := takes v config models TemplateCache.get c r cache
  generalize Grouping.step v config models TemplateCache.get c r cache = taken at htakes hstep
  cases htakes with
  | unresolved | unloaded => cases hstep
  | skipped hout =>
    cases hstep
    rcases admits_eq_false_iff.1 hout with ⟨hfine, hout⟩ | hmarker
    · exact h.pass (.outside hfine hout)
    · exact h.pass (.marker hmarker)
  | invisible _ hempty =>
    cases hstep
    exact h.pass (.invisible hempty)
  | small hadmits hmodel hne ht hsmall =>
    cases hstep
    exact h.pass ((passesOver_iff_isTooSmall hadmits hmodel hne (hvalue _ ht)).2 hsmall)
  | listed hadmits hmodel hne ht hbig =>
    cases hstep
    refine h.list hafter ?_ hmodel (hvalue _ ht)
    rw [passesOver_iff_isTooSmall hadmits hmodel hne (hvalue _ ht), hbig]
    decide

variable (v config models) in
theorem grows_step (c : Collection) (r : Reference) (cache : TemplateCache) :
    cache.Grows (step v config models TemplateCache.get c r cache).2 := by
  have htakes := takes v config models TemplateCache.get c r cache
  generalize Grouping.step v config models TemplateCache.get c r cache = taken at htakes
  cases htakes with
  | skipped | unresolved | invisible => exact .refl cache
  | unloaded | small | listed => exact (cache.loads_get _ v.compile).toGrows

theorem Grouped.run (h : Grouped v config models start taken c) (hgrows : start.Grows cache)
    {rs : List Reference} (hsorted : (taken ++ rs).Pairwise Reference.Precedes)
    (hrun : (run v config models TemplateCache.get c rs cache).1 = .ok d) :
    Grouped v config models start (taken ++ rs) d := by
  -- `taken` grows by what the induction takes off the rest, and the cache with every template.
  induction rs generalizing taken c cache with
  | nil =>
    cases hrun
    rwa [List.append_nil]
  | cons r rs ih =>
    have hafter (s : Reference) (hs : s ∈ taken) : s.Precedes r :=
      (List.pairwise_append.1 hsorted).2.2 s hs r List.mem_cons_self
    have hlater := grows_step v config models c r cache
    have hgrouped (d : Collection) := h.step hgrows hafter (d := d)
    rw [← List.singleton_append, ← List.append_assoc] at hsorted ⊢
    unfold Grouping.run at hrun
    generalize Grouping.step v config models TemplateCache.get c r cache = stepped
      at hlater hgrouped hrun
    obtain ⟨e | d, later⟩ := stepped
    · cases hrun
    · exact ih (hgrouped d rfl) (hgrows.trans hlater) hsorted hrun

end Run

variable (v config models) in
/-- How the references of a table are divided among the lists of a collection. `references` joins
the lists, so that what it counts once is in one list only, and there only once. -/
structure Partitions (cache : TemplateCache) (refs : RefTable) (c : Collection) : Prop where
  once : ∀ (n : RefNum) (r : Reference), refs[n]? = some r →
    c.references.count r = 1 ∨ PassesOver v config models cache r
  listed : ∀ r : Reference, r ∈ c.references ↔
    refs[r.number]? = some r ∧ ¬ PassesOver v config models cache r
  nonempty : ∀ l ∈ c.lists, l.instances ≠ []
  apart : (c.lists.map (·.template.value.path)).Nodup
  resolves : ∀ l ∈ c.lists, ∀ r ∈ l.instances, ∃ model : String,
    models r.kind (lowercase r.id) = .ok model ∧ l.template.value.path = meshPath model
  ascending : ∀ l ∈ c.lists, l.instances.Pairwise Reference.Precedes
  firsts : (c.lists.filterMap (·.instances.head?)).Pairwise Reference.Precedes

/-- A grouping that succeeds divides the references that are not passed over among its lists, by
their meshes. A cache is numbered when it is new, and stays so with every `get` and `prune`. -/
theorem ofTable_partitions {refs : RefTable} {cache : TemplateCache} {c : Collection}
    (hkeys : ∀ (n : RefNum) (r : Reference), refs[n]? = some r → r.number = n)
    (hcache : cache.IsNumbered)
    (h : (ofTable v config models TemplateCache.get refs cache).1 = .ok c) :
    Partitions v config models cache refs c := by
  have hgrouped : Grouped v config models cache refs.values c :=
    Grouped.empty.run (.refl cache) (pairwise_values_precedes hkeys) h
  have hpath (l : InstanceList) (hl : l ∈ c.lists) : l.template.value.path = l.path :=
    hcache.path_of_get (hgrouped.groups l hl).offered
  have hvalues (r : Reference) : r ∈ refs.values ↔ refs[r.number]? = some r := by
    rw [mem_values_iff]
    exact ⟨fun ⟨n, hn⟩ => hkeys n r hn ▸ hn, fun hr => ⟨_, hr⟩⟩
  refine {
    once := fun n r hr => ?_
    listed := fun r => by rw [hgrouped.mem_iff, hvalues]
    nonempty := fun l hl => (hgrouped.groups l hl).nonempty
    apart := by rw [List.map_congr_left hpath]; exact hgrouped.apart
    resolves := fun l hl r hr => by rw [hpath l hl]; exact (hgrouped.groups l hl).resolves r hr
    ascending := fun l hl => (hgrouped.groups l hl).ascending
    firsts := hgrouped.firsts }
  by_cases hpass : PassesOver v config models cache r
  · exact .inr hpass
  · have hmem : r ∈ c.references :=
      (hgrouped.mem_iff r).2 ⟨mem_values_iff.2 ⟨n, hr⟩, hpass⟩
    exact .inl (List.count_eq_one_of_mem hgrouped.nodup hmem)

/-- A yard with two barrels and two carts, of which the first is a toy, between a marker, a spot
without a mesh, and a barrel beyond the fence. -/
def yard : World :=
  let place (index : UInt32) (id : String) (x : Float32) : Reference :=
    .new ⟨0, index⟩ .static id ⟨x, x, 0⟩
  { ((World.empty.addModel "cart" .static "cart.nif").addModel "barrel" .static
      "barrel.nif").addModel "spot" .static "" with
    cells := [(Cell.new 0 0).pushContext [{ place 1 "cart" 3000 with scale := 0.125 },
      place 2 "barrel" 1000, place 3 "NorthMarker" 1000, place 4 "cart" 1500,
      place 5 "barrel" 2000, place 6 "barrel" 6000, place 7 "spot" 1000]] }

def yardView : ChunkView := ⟨0.5, ⟨0.25, 0.25⟩, ⟨1000, 1000, 100⟩, false⟩

def yardCache : TemplateCache :=
  .new (fun _ => .ok (.drawable .fresh (.cuboid ⟨64, 64, 64⟩))) true

/-- The toy cart is the first to ask for a mesh, but the barrels come first. -/
theorem yard_partitions :
    let refs := (Scan.run .empty false yard.store yardView.size yardView.center).refs
    let grouping :=
      (ofTable yardView .standard yard.resolveModel TemplateCache.get refs yardCache).1
    ∃ c, grouping = .ok c ∧
      (c.lists.map fun l => (l.template.value.path, l.instances.map (·.number.index))) =
        [("meshes/barrel.nif", [2, 5]), ("meshes/cart.nif", [4])] ∧
      Partitions yardView .standard yard.resolveModel yardCache refs c := by
  intro refs grouping
  have hlists : (grouping.map fun c =>
      c.lists.map fun l => (l.template.value.path, l.instances.map (·.number.index))) =
        .ok [("meshes/barrel.nif", [2, 5]), ("meshes/cart.nif", [4])] := by
    decide +kernel
  cases hgrouping : grouping with
  | error e =>
    rw [hgrouping] at hlists
    cases hlists
  | ok c =>
    rw [hgrouping] at hlists
    have hkeys (n : RefNum) (r : Reference) (hr : refs[n]? = some r) : r.number = n :=
      (Scan.fits_of_getElem?_run .empty _ n yard.store hr).1
    exact ⟨c, rfl, Except.ok.inj hlists,
      ofTable_partitions hkeys (TemplateCache.isNumbered_new _ _) hgrouping⟩

end Grouping

end DistantChunks
