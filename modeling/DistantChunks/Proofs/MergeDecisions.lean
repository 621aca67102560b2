import DistantChunks.Proofs.BuildSteps
import DistantChunks.Proofs.MovedAxes
import DistantChunks.Proofs.PreorderCensus
import DistantChunks.Proofs.RoundedQuotients

/-!
# Merge decisions do not depend on the order of the templates

The censuses of a build are taken one after the other, and all of them add to one usage. Each
census is the same whatever was counted before it, and the usage that is left holds the sum of all
censuses, so neither depends on the order. The benefit of merging a template adds up usages in
single precision, in the order in which its census lists the state sets. As long as nothing is
rounded in that sum, this order does not matter either, and the benefit is at least one.
-/

namespace DistantChunks

variable {α : Type}

/-- Whole numbers are added to a sum one after the other, and neither their conversion nor an
addition is rounded. -/
def AddsExactly (sum : Float32) : List ℕ → Prop
  | [] => True
  | n :: ns => Denotes (Single.ofNat n) n ∧ ExactSum sum (Single.ofNat n) ∧
    AddsExactly (sum + Single.ofNat n) ns

instance AddsExactly.decidable : (sum : Float32) → (ns : List ℕ) → Decidable (AddsExactly sum ns)
  | _, [] => inferInstanceAs (Decidable True)
  | sum, n :: ns =>
    have := AddsExactly.decidable (sum + Single.ofNat n) ns
    inferInstanceAs (Decidable (_ ∧ _ ∧ _))

theorem AddsExactly.denotes {sum : Float32} {ns : List ℕ} (h : AddsExactly sum ns) {s : ℕ}
    (hs : Denotes sum s) :
    Denotes (ns.foldl (fun sum n => sum + Single.ofNat n) sum) (s + ns.sum : ℕ) := by
  induction ns generalizing sum s with
  | nil => exact hs
  | cons n ns ih =>
    obtain ⟨hn, hsum, hrest⟩ := h
    have hnext : Denotes (sum + Single.ofNat n) (s + n : ℕ) := by
      rw [Nat.cast_add]
      exact hsum.denotes hs hn
    have htotal := ih hrest hnext
    rwa [Nat.add_assoc, ← List.sum_cons] at htotal

theorem Denotes.eq_of_pos {x y : Float32} {q : ℚ} (hx : Denotes x q) (hy : Denotes y q)
    (hq : 0 < q) : x = y := by
  have hpositive {z : Float32} (hz : Denotes z q) : Single.unsigned z = z := by
    obtain ⟨m, e, hm, huz, -⟩ := hz.exists_unpack_of_pos hq
    refine Single.unsigned_of_isPositive ?_
    rw [huz]
    rfl
  rw [← hpositive hx, ← hpositive hy]
  exact hx.unsigned_eq hy

namespace Census

open Node

theorem foldl_pass_congr {w v : Walk} (hcurrent : w.current = v.current)
    (hcensus : w.census = v.census) (ns : List (Node α)) :
    (ns.foldl Walk.pass w).census = (ns.foldl Walk.pass v).census := by
  induction ns generalizing w v with
  | nil => exact hcensus
  | cons n ns ih =>
    have hentered : (w.enter n.attributes).current = (v.enter n.attributes).current := by
      rw [Walk.current_enter, Walk.current_enter, hcurrent]
    rw [List.foldl_cons, List.foldl_cons]
    refine ih ?_ ?_
    · unfold Walk.pass
      split
      · exact hentered
      · exact hentered
    · unfold Walk.pass
      split
      · simp only [Walk.addDrawable, hentered, Walk.census_enter, hcensus]
      · rw [Walk.census_enter, Walk.census_enter, hcensus]

theorem census_take (root : Node α) (usage usage' : StateTally) :
    (take root usage).1 = (take root usage').1 := by
  change (visit (.start usage) root).census = (visit (.start usage') root).census
  rw [visit_eq_foldl, visit_eq_foldl]
  exact foldl_pass_congr (w := .start usage) (v := .start usage') rfl rfl root.preorder

/-- The usage grows by what the census counts. -/
theorem usage_take (root : Node α) (usage : StateTally) (k : Option StateSet) :
    (take root usage).2.count k = usage.count k + (take root usage).1.counts.count k := by
  have hagrees := (Walk.Agrees.start usage).foldl root.preorder
  rw [← visit_eq_foldl, Reading.foldl_read_start] at hagrees
  change (visit (.start usage) root).usage.count k =
    usage.count k + (visit (.start usage) root).census.counts.count k
  rw [hagrees.usage, hagrees.counts]

theorem isCounting_take (root : Node α) (usage : StateTally) :
    (take root usage).1.counts.IsCounting := by
  have hagrees := (Walk.Agrees.start usage).foldl root.preorder
  rw [← visit_eq_foldl] at hagrees
  exact hagrees.isCounting

def takeAll (usage : StateTally) : List (Node α) → List Census × StateTally
  | [] => ([], usage)
  | root :: rest =>
    let (census, usage) := take root usage
    let (censuses, usage) := takeAll usage rest
    (census :: censuses, usage)

theorem takeAll_cons (usage : StateTally) (root : Node α) (roots : List (Node α)) :
    takeAll usage (root :: roots) =
      ((take root usage).1 :: (takeAll (take root usage).2 roots).1,
        (takeAll (take root usage).2 roots).2) := rfl

theorem takeAll_concat (usage : StateTally) (roots : List (Node α)) (root : Node α) :
    takeAll usage (roots ++ [root]) =
      ((takeAll usage roots).1 ++ [(take root (takeAll usage roots).2).1],
        (take root (takeAll usage roots).2).2) := by
  induction roots generalizing usage with
  | nil => rfl
  | cons r roots ih => rw [List.cons_append, takeAll_cons, ih, takeAll_cons, List.cons_append]

theorem censuses_takeAll (usage : StateTally) (roots : List (Node α)) :
    (takeAll usage roots).1 = roots.map fun root => (take root .empty).1 := by
  induction roots generalizing usage with
  | nil => rfl
  | cons root roots ih =>
    rw [takeAll_cons, ih, List.map_cons, census_take root usage .empty]

theorem usage_takeAll (usage : StateTally) (roots : List (Node α)) (k : Option StateSet) :
    (takeAll usage roots).2.count k =
      usage.count k + ((takeAll usage roots).1.map (·.counts.count k)).sum := by
  induction roots generalizing usage with
  | nil => rfl
  | cons root roots ih =>
    rw [takeAll_cons, ih, usage_take, List.map_cons, List.sum_cons, Nat.add_assoc]

/-- The same census with its entries in an order of their own, as a table may list them. -/
structure Lists (c d : Census) : Prop where
  vertices : d.vertices = c.vertices
  entries : d.counts.entries.Perm c.counts.entries

theorem Lists.perm_keys {c d : Census} (h : c.Lists d) : d.counts.keys.Perm c.counts.keys :=
  h.entries.map _

/-- The usages of the listed state sets can be added up without rounding. -/
def AddsUpExactly (c : Census) (usage : StateTally) : Prop :=
  AddsExactly 0 (c.counts.keys.map usage.count)

instance (c : Census) (usage : StateTally) : Decidable (c.AddsUpExactly usage) :=
  inferInstanceAs (Decidable (AddsExactly 0 _))

def usageTotal (c : Census) (usage : StateTally) : Float32 :=
  c.counts.keys.foldl (fun sum k => sum + Single.ofNat (usage.count k)) 0

theorem mergeBenefit_of_ne_nil {c : Census} (h : c.counts.keys ≠ []) (usage : StateTally) :
    c.mergeBenefit usage = c.usageTotal usage / Single.ofNat c.counts.keys.length := by
  unfold mergeBenefit usageTotal
  cases hkeys : c.counts.keys with
  | nil => exact absurd hkeys h
  | cons k ks => rfl

theorem mergeBenefit_of_nil {c : Census} (h : c.counts.keys = []) (usage : StateTally) :
    c.mergeBenefit usage = 1 := by
  unfold mergeBenefit
  rw [h]

section Benefit

variable {c d : Census} {usage usage' : StateTally}

theorem denotes_usageTotal (h : c.AddsUpExactly usage) :
    Denotes (c.usageTotal usage) ((c.counts.keys.map usage.count).sum : ℕ) := by
  have hzero : Denotes 0 (0 : ℕ) := by
    rw [Nat.cast_zero]
    exact .zero
  have htotal := AddsExactly.denotes h hzero
  rwa [Nat.zero_add, List.foldl_map] at htotal

theorem length_keys_le (hpos : ∀ k ∈ c.counts.keys, 0 < usage.count k) :
    c.counts.keys.length ≤ (c.counts.keys.map usage.count).sum := by
  rw [← List.length_map (f := usage.count)]
  exact List.length_le_sum_of_one_le _ fun n hn => by
    obtain ⟨k, hk, rfl⟩ := List.mem_map.1 hn
    exact hpos k hk

theorem one_le_mergeBenefit (hpos : ∀ k ∈ c.counts.keys, 0 < usage.count k)
    (h : c.AddsUpExactly usage) : 1 ≤ c.mergeBenefit usage := by
  by_cases hkeys : c.counts.keys = []
  · rw [mergeBenefit_of_nil hkeys]
    exact (Denotes.one.le_iff .one).2 le_rfl
  · obtain ⟨q, hq, hqpos, hle⟩ := (denotes_usageTotal h).ofNat_le
      (List.length_pos_iff.2 hkeys) (length_keys_le hpos)
    rw [mergeBenefit_of_ne_nil hkeys]
    exact (denotes_usageTotal h).one_le_div hq hqpos hle

/-- The order of the entries does not show in an exact benefit. -/
theorem mergeBenefit_eq (hkeys : d.counts.keys.Perm c.counts.keys)
    (husage : usage'.count = usage.count) (hpos : ∀ k ∈ c.counts.keys, 0 < usage.count k)
    (hc : c.AddsUpExactly usage) (hd : d.AddsUpExactly usage') :
    d.mergeBenefit usage' = c.mergeBenefit usage := by
  by_cases hnil : c.counts.keys = []
  · rw [mergeBenefit_of_nil hnil, mergeBenefit_of_nil (by rwa [hnil, List.perm_nil] at hkeys)]
  · have hnil' : d.counts.keys ≠ [] := fun h => hnil (by rwa [h, List.nil_perm] at hkeys)
    have hsum : (d.counts.keys.map usage'.count).sum = (c.counts.keys.map usage.count).sum := by
      rw [husage]
      exact (hkeys.map _).sum_eq
    have hlength := (List.length_pos_iff.2 hnil).trans_le (length_keys_le hpos)
    have htotal := denotes_usageTotal hd
    rw [hsum] at htotal
    rw [mergeBenefit_of_ne_nil hnil, mergeBenefit_of_ne_nil hnil', hkeys.length_eq,
      htotal.eq_of_pos (denotes_usageTotal hc) (by exact_mod_cast hlength)]

end Benefit

/-- Whatever the order of the trees is, each of them has the same census, the usage that is left is
the sum of the censuses, and merging is decided in the same way. -/
theorem decisions_perm {roots roots' : List (Node α)} (h : roots'.Perm roots) :
    let (censuses, usage) := takeAll .empty roots
    let (censuses', usage') := takeAll .empty roots'
    (∀ (root : Node α) (before : StateTally), (take root before).1 = (take root .empty).1) ∧
      censuses = roots.map (fun root => (take root .empty).1) ∧
      censuses' = roots'.map (fun root => (take root .empty).1) ∧
      (∀ k, usage.count k = (censuses.map (·.counts.count k)).sum ∧
        usage'.count k = usage.count k) ∧
      ∀ root ∈ roots, ∀ c, (take root .empty).1.Lists c → c.AddsUpExactly usage →
        1 ≤ c.mergeBenefit usage ∧
        ∀ c', (take root .empty).1.Lists c' → c'.AddsUpExactly usage' →
          c'.mergeBenefit usage' = c.mergeBenefit usage ∧
          ∀ size factor, c'.shouldMerge usage' size factor = c.shouldMerge usage size factor := by
  have hsum (rs : List (Node α)) (k : Option StateSet) : (takeAll .empty rs).2.count k =
      ((takeAll .empty rs).1.map (·.counts.count k)).sum := by
    rw [usage_takeAll]
    exact Nat.zero_add _
  have husage : (takeAll .empty roots').2.count = (takeAll .empty roots).2.count := by
    funext k
    rw [hsum, hsum, censuses_takeAll, censuses_takeAll]
    exact ((h.map _).map _).sum_eq
  refine ⟨fun root before => census_take root before .empty, censuses_takeAll _ _,
    censuses_takeAll _ _, fun k => ⟨hsum roots k, congrFun husage k⟩, ?_⟩
  intro root hroot c hc hexact
  have hpos : ∀ k ∈ c.counts.keys, 0 < (takeAll .empty roots).2.count k := by
    intro k hk
    have hcounted := ((isCounting_take root .empty).mem_keys_iff k).1 (hc.perm_keys.subset hk)
    have hmem : (take root .empty).1.counts.count k ∈
        (takeAll .empty roots).1.map (·.counts.count k) := by
      rw [censuses_takeAll, List.map_map]
      exact List.mem_map.2 ⟨root, hroot, rfl⟩
    rw [hsum]
    exact (Nat.pos_of_ne_zero hcounted).trans_le (List.le_sum_of_mem hmem)
  refine ⟨one_le_mergeBenefit hpos hexact, fun c' hc' hexact' => ?_⟩
  have hkeys := hc'.perm_keys.trans hc.perm_keys.symm
  have hbenefit := mergeBenefit_eq hkeys husage hpos hexact hexact'
  refine ⟨hbenefit, fun size factor => ?_⟩
  rw [shouldMerge, shouldMerge, hbenefit, hc'.vertices, hc.vertices]

def slate : StateSet := ⟨0, "slate", false⟩

def brick : StateSet := ⟨1, "brick", false⟩

def shed : Node Float32 :=
  .branch { Attributes.fresh with state := some slate } .group [
    .drawable .fresh (.cuboid ⟨3, 3, 1⟩),
    .drawable { Attributes.fresh with state := some brick } (.cuboid ⟨3, 1, 2⟩),
    .drawable .fresh (.cuboid ⟨1, 3, 2⟩)]

def barn : Node Float32 :=
  .branch .fresh .group [
    .drawable { Attributes.fresh with state := some slate } (.cuboid ⟨9, 9, 1⟩),
    .drawable .fresh (.cuboid ⟨9, 9, 1⟩)]

/-- Slate is used three times and brick twice, whichever of the two trees comes first. -/
theorem shed_decisions :
    let usage := (takeAll .empty [shed, barn]).2
    let usage' := (takeAll .empty [barn, shed]).2
    let c := (take shed .empty).1
    let c' : Census := ⟨c.vertices, ⟨c.counts.entries.reverse⟩⟩
    c.mergeBenefit usage = 2.5 ∧ c'.mergeBenefit usage' = c.mergeBenefit usage ∧
      c'.shouldMerge usage' 4 100 = c.shouldMerge usage 4 100 := by
  intro usage usage' c c'
  obtain ⟨-, -, -, -, hdecisions⟩ := decisions_perm (List.Perm.swap shed barn [])
  obtain ⟨-, hsame⟩ := hdecisions shed List.mem_cons_self c ⟨rfl, .refl _⟩ (by decide +kernel)
  obtain ⟨hbenefit, hmerge⟩ := hsame c' ⟨rfl, List.reverse_perm _⟩ (by decide +kernel)
  exact ⟨by decide +kernel, hbenefit, hmerge 4 100⟩

end Census

section Grouping

open Census

/-- The censuses and the usage of a collection are those of the templates of its lists, taken in
the order of the lists. -/
def Collection.IsSurveyed (c : Collection) : Prop :=
  takeAll .empty (c.lists.map (·.template.value.root)) = (c.lists.map (·.census), c.usage)

theorem Collection.IsSurveyed.add {c : Collection} (h : c.IsSurveyed) (path : String)
    (t : Shared Template) (r : Reference) : (c.add path t r).IsSurveyed := by
  unfold Collection.IsSurveyed Collection.add at *
  split
  · have hkept {β : Type} (f : InstanceList → β)
        (hf : ∀ (l : InstanceList) (rs : List Reference), f { l with instances := rs } = f l) :
        (c.lists.map fun l => if l.path == path then
          { l with instances := l.instances ++ [r] } else l).map f = c.lists.map f := by
      rw [List.map_map]
      refine List.map_congr_left fun l _ => ?_
      rw [Function.comp_apply]
      split
      · exact hf l _
      · rfl
    rw [hkept _ fun _ _ => rfl, hkept _ fun _ _ => rfl]
    exact h
  · simp only [List.map_append, List.map_singleton, takeAll_concat, h]

theorem Grouping.isSurveyed_ofTable {σ : Type} {v : ChunkView} {config : PagingConfig}
    {models : ModelResolver} {source : TemplateSource σ} {refs : RefTable} {s : σ}
    {c : Collection} (h : (ofTable v config models source refs s).1 = .ok c) : c.IsSurveyed := by
  have hrun (rs : List Reference) : ∀ (d : Collection) (s : σ), d.IsSurveyed →
      (run v config models source d rs s).1 = .ok c → c.IsSurveyed := by
    induction rs with
    | nil =>
      intro d s hd hok
      cases hok
      exact hd
    | cons r rs ih =>
      intro d s hd hok
      have htakes := takes v config models source d r s
      unfold run at hok
      generalize step v config models source d r s = taken at htakes hok
      cases htakes with
      | skipped | invisible | small => exact ih d _ hd hok
      | unresolved | unloaded => cases hok
      | listed => exact ih _ _ (hd.add _ _ r) hok
  exact hrun refs.values .empty s rfl h

end Grouping

end DistantChunks
