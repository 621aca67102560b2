import DistantChunks.Proofs.OptimizedParts
import Mathlib.Algebra.Ring.Nat

/-!
# What merging makes of a row of siblings

Merging goes through a row from left to right and takes the later members of a bucket away when it
comes to the first one. `places` says the same for each sibling by itself: it keeps its place, it is
the first of a bucket and makes place for the joined drawable, or it has gone into one further left.
The members of a bucket are joined in the order of the row, except that transparent ones are joined
from back to front as seen from the eye point, equally distant ones in the order of the row.
-/

namespace DistantChunks

variable {α : Type}

namespace Mesh

/-- A mesh that consists of others, one after the other. As long as the indices of these name their
vertices and all vertices can be numbered with 32 bits, its indices name the same vertices. -/
structure IsChain (meshes : List (Mesh α)) (m : Mesh α) : Prop where
  vertices : m.vertices.toList = meshes.flatMap (·.vertices.toList)
  corners : (∀ b ∈ meshes, b.IsIndexed) → (meshes.map vertexCount).sum < UInt32.size →
    m.IsIndexed ∧ m.corners = meshes.flatMap Mesh.corners

theorem corners_foldl_append {a : Mesh α} {meshes : List (Mesh α)} (ha : a.IsIndexed)
    (h : ∀ b ∈ meshes, b.IsIndexed)
    (hfit : a.vertexCount + (meshes.map vertexCount).sum < UInt32.size) :
    (meshes.foldl append a).IsIndexed ∧
      (meshes.foldl append a).corners = a.corners ++ meshes.flatMap corners := by
  induction meshes generalizing a with
  | nil => exact ⟨ha, by simp⟩
  | cons b meshes ih =>
    obtain ⟨hb, hrest⟩ := List.forall_mem_cons.1 h
    rw [List.map_cons, List.sum_cons] at hfit
    have hpair : a.vertexCount + b.vertexCount < UInt32.size := by omega
    have hmore : (a.append b).vertexCount + (meshes.map vertexCount).sum < UInt32.size := by
      rw [vertexCount_append]
      omega
    obtain ⟨hindexed, hcorners⟩ := ih (ha.append hb hpair) hrest hmore
    refine ⟨hindexed, ?_⟩
    rw [List.foldl_cons, hcorners, corners_append ha hb hpair, List.flatMap_cons,
      List.append_assoc]

theorem isChain_foldl_append (meshes : List (Mesh α)) :
    (meshes.foldl append .empty).IsChain meshes where
  vertices := by simp [vertices_foldl_append, empty]
  corners h hfit := by
    have hempty : (empty : Mesh α).IsIndexed := isWhole_empty.inRange
    simpa [Mesh.corners, empty] using corners_foldl_append hempty h (by simpa using hfit)

end Mesh

/-- Sorting by falling keys leaves entries with one key in their order. -/
theorem filter_mergeSort_falling {β : Type} (key : β → Int) (k : Int) (xs : List β) :
    (xs.mergeSort fun a b => decide (key b ≤ key a)).filter (key · = k) =
      xs.filter (key · = k) := by
  have htrans : ∀ a b c : β, decide (key b ≤ key a) = true → decide (key c ≤ key b) = true →
      decide (key c ≤ key a) = true := by
    simp only [decide_eq_true_eq]
    omega
  have htotal : ∀ a b : β, (decide (key b ≤ key a) || decide (key a ≤ key b)) = true := by
    simp only [Bool.or_eq_true, decide_eq_true_eq]
    omega
  have hequal : (xs.filter (key · = k)).Pairwise fun a b => decide (key b ≤ key a) = true := by
    refine List.pairwise_of_forall_mem_list fun a ha b hb => ?_
    have hka : key a = k := by simpa using (List.mem_filter.1 ha).2
    have hkb : key b = k := by simpa using (List.mem_filter.1 hb).2
    simp [hka, hkb]
  have hsub := (List.sublist_mergeSort htrans htotal hequal List.filter_sublist).filter (key · = k)
  rw [List.filter_filter] at hsub
  simp only [Bool.and_self] at hsub
  exact (hsub.eq_of_length ((List.mergeSort_perm _ _).symm.filter _).length_eq).symm

namespace MergeRule

open Member

/-- Where a member stands by the distance of the center of its bound from the eye; an empty bound
has the distance zero. -/
def depth (eye : Vec3 Float32) (m : Member Float32) : Int :=
  Single.rank (if m.mesh.bound.isValid then (m.mesh.bound.center - eye).length else 0)

/-- The order in which members with the state set `s` are joined. -/
structure IsDrawingOrder (rule : MergeRule Float32) (s : Option StateSet)
    (members blocks : List (Member Float32)) : Prop where
  perm : blocks.Perm members
  given : rule.eye = none ∨ s.any (·.transparent) = false → blocks = members
  falling : ∀ eye, rule.eye = some eye → s.any (·.transparent) = true →
    blocks.Pairwise fun a b => depth eye b ≤ depth eye a
  stable : ∀ eye, rule.eye = some eye → s.any (·.transparent) = true →
    ∀ k, blocks.filter (depth eye · = k) = members.filter (depth eye · = k)

theorem order_eq_self [Scalar α] {rule : MergeRule α} {s : Option StateSet}
    {members : List (Member α)} (hs : ∀ m ∈ members, m.attributes.state = s)
    (h : rule.eye = none ∨ s.any (·.transparent) = false) : rule.order members = members := by
  unfold order
  split
  · next m rest eye heye =>
    rw [hs m List.mem_cons_self]
    rcases h with h | h
    · rw [h] at heye; cases heye
    · simp [h]
  · rfl

theorem order_eq_mergeSort {rule : MergeRule Float32} {s : Option StateSet}
    {members : List (Member Float32)} (hs : ∀ m ∈ members, m.attributes.state = s)
    {eye : Vec3 Float32} (heye : rule.eye = some eye) (ht : s.any (·.transparent) = true) :
    rule.order members = members.mergeSort fun a b => decide (depth eye b ≤ depth eye a) := by
  cases members with
  | nil => rw [List.mergeSort_nil]; rfl
  | cons m rest =>
    simp only [order, heye, hs m List.mem_cons_self, ht, if_true]
    rfl

theorem isDrawingOrder_order (rule : MergeRule Float32) {s : Option StateSet}
    {members : List (Member Float32)} (hs : ∀ m ∈ members, m.attributes.state = s) :
    rule.IsDrawingOrder s members (rule.order members) where
  perm := rule.order_perm members
  given h := order_eq_self hs h
  falling eye heye ht := by
    rw [order_eq_mergeSort hs heye ht]
    have hsorted : (members.mergeSort fun a b => decide (depth eye b ≤ depth eye a)).Pairwise
        fun a b => decide (depth eye b ≤ depth eye a) = true :=
      List.pairwise_mergeSort (by simp only [decide_eq_true_eq]; omega)
        (by simp only [Bool.or_eq_true, decide_eq_true_eq]; omega) members
    simpa only [decide_eq_true_eq] using hsorted
  stable eye heye ht k := by
    rw [order_eq_mergeSort hs heye ht]
    exact filter_mergeSort_falling (depth eye) k members

section Places

variable (rule : MergeRule α)

/-- The siblings with one state set become one: there are several of them, and they are opaque or
transparent ones are merged as well. -/
structure Joins (ns : List (Node α)) (s : Option StateSet) : Prop where
  several : 2 ≤ (companions s ns).length
  allowed : (∀ t, s = some t → t.transparent = false) ∨ rule.mergesTransparent = true

theorem merges_iff_joins {ns : List (Node α)} {s : Option StateSet} :
    rule.merges ns s = true ↔ rule.Joins ns s := by
  have hpermits : rule.permits s = true ↔
      (∀ t, s = some t → t.transparent = false) ∨ rule.mergesTransparent = true := by
    cases s <;> simp [permits]
  rw [merges, Bool.and_eq_true, decide_eq_true_iff, hpermits]
  exact ⟨fun h => ⟨h.1, h.2⟩, fun h => ⟨h.several, h.allowed⟩⟩

def isTaken (all before : List (Node α)) (s : Option StateSet) : Bool :=
  rule.merges all s && !(companions s before).isEmpty

/-- The siblings after `before` that have not gone into a joined drawable yet. -/
def waiting (all before rest : List (Node α)) : List (Node α) :=
  rest.filter fun n => !(ofNode? n).any fun m => rule.isTaken all before m.attributes.state

section Waiting

variable {rule} {all before rest : List (Node α)} {n : Node α}

theorem isTaken_concat (s : Option StateSet) : rule.isTaken all (before ++ [n]) s =
    (rule.isTaken all before s || (rule.merges all s && isCompanion s n)) := by
  have hone : (companions s [n]).isEmpty = !isCompanion s n := by
    rw [companions_cons, isCompanion_eq]
    cases (ofNode? n).filter (·.attributes.state = s) <;> rfl
  have hboth : (companions s (before ++ [n])).isEmpty =
      ((companions s before).isEmpty && !isCompanion s n) := by
    rw [companions_append, ← hone]
    cases companions s before <;> rfl
  rw [isTaken, isTaken, hboth, Bool.not_and, Bool.not_not, Bool.and_or_distrib_left]

theorem waiting_cons_of_taken {m : Member α} (hn : ofNode? n = some m)
    (h : rule.isTaken all before m.attributes.state = true) :
    rule.waiting all before (n :: rest) = rule.waiting all before rest :=
  List.filter_cons_of_neg (by simp [hn, h])

theorem waiting_cons_of_not_taken
    (h : ∀ m, ofNode? n = some m → rule.isTaken all before m.attributes.state = false) :
    rule.waiting all before (n :: rest) = n :: rule.waiting all before rest := by
  apply List.filter_cons_of_pos
  cases hn : ofNode? n with
  | none => rfl
  | some m => simp [h m hn]

theorem waiting_concat (h : ∀ s, rule.merges all s = true → isCompanion s n = true →
    rule.isTaken all before s = true) :
    rule.waiting all (before ++ [n]) rest = rule.waiting all before rest := by
  apply List.filter_congr
  intro r _
  cases ofNode? r with
  | none => rfl
  | some m =>
    have hsame : rule.isTaken all (before ++ [n]) m.attributes.state =
        rule.isTaken all before m.attributes.state := by
      rw [isTaken_concat, Bool.or_eq_left_iff_imp, Bool.and_eq_true]
      exact fun ⟨hmerges, hcompanion⟩ => h _ hmerges hcompanion
    simp only [Option.any_some, hsame]

theorem waiting_concat_of_taken {m : Member α} (hn : ofNode? n = some m)
    (h : rule.isTaken all before m.attributes.state = true) :
    rule.waiting all (before ++ [n]) rest = rule.waiting all before rest := by
  refine waiting_concat fun s _ hs => ?_
  obtain ⟨m', hm', rfl⟩ := isCompanion_iff.1 hs
  obtain rfl : m = m' := by rw [hn] at hm'; exact Option.some.inj hm'
  exact h

theorem waiting_concat_of_not_merges
    (h : ∀ m, ofNode? n = some m → rule.merges all m.attributes.state = false) :
    rule.waiting all (before ++ [n]) rest = rule.waiting all before rest := by
  refine waiting_concat fun s hmerges hs => ?_
  obtain ⟨m, hm, rfl⟩ := isCompanion_iff.1 hs
  rw [h m hm] at hmerges
  cases hmerges

theorem waiting_concat_of_first {first : Member α} (hn : ofNode? n = some first)
    (hmerges : rule.merges all first.attributes.state = true) :
    rule.waiting all (before ++ [n]) rest =
      others first.attributes.state (rule.waiting all before rest) := by
  rw [waiting, waiting, others, List.filter_filter]
  apply List.filter_congr
  intro r _
  cases hr : ofNode? r with
  | none => simp [isCompanion, hr]
  | some m =>
    simp only [Option.any_some, isTaken_concat, isCompanion, hn, hr, Bool.not_or]
    by_cases hs : m.attributes.state = first.attributes.state
    · simp [hs, hmerges]
    · simp [hs, Ne.symm hs]

theorem companions_waiting {s : Option StateSet} (h : rule.isTaken all before s = false) :
    companions s (rule.waiting all before rest) = companions s rest := by
  rw [companions, waiting, List.filterMap_filter]
  apply List.filterMap_congr
  intro r _
  cases hr : ofNode? r with
  | none => simp
  | some m =>
    by_cases hs : m.attributes.state = s
    · simp [hs, h]
    · have hnone : (some m).filter (·.attributes.state = s) = none :=
        Option.filter_eq_none_iff.2 (by simpa using hs)
      rw [hnone]
      exact ite_self none

theorem merges_eq_false_of_sublist {ms ns : List (Node α)} (h : ms.Sublist ns)
    {s : Option StateSet} (hs : rule.merges ns s = false) : rule.merges ms s = false := by
  have hlength : (companions s ms).length ≤ (companions s ns).length := (h.filterMap _).length_le
  rw [merges, Bool.and_eq_false_iff, decide_eq_false_iff_not] at hs ⊢
  exact hs.imp_left (by omega)

end Waiting

variable [Scalar α]

/-- What comes in the place of a sibling that stands after `before` in the row `all`. -/
def place (all before : List (Node α)) (n : Node α) : Option (Node α) :=
  match ofNode? n with
  | none => some n
  | some m =>
    if rule.merges all m.attributes.state then
      if (companions m.attributes.state before).isEmpty then
        rule.joined (companions m.attributes.state all)
      else none
    else some n

section Place

variable {rule} {all before : List (Node α)} {n : Node α} {m : Member α}

theorem place_of_not_merges
    (h : ∀ m, ofNode? n = some m → rule.merges all m.attributes.state = false) :
    rule.place all before n = some n := by
  unfold place
  split
  · rfl
  · next m hm => rw [h m hm]; rfl

theorem place_of_first (hn : ofNode? n = some m)
    (hmerges : rule.merges all m.attributes.state = true)
    (hfirst : companions m.attributes.state before = []) :
    rule.place all before n = rule.joined (companions m.attributes.state all) := by
  simp [place, hn, hmerges, hfirst]

theorem place_of_later (hn : ofNode? n = some m)
    (hmerges : rule.merges all m.attributes.state = true)
    (hlater : companions m.attributes.state before ≠ []) : rule.place all before n = none := by
  simp [place, hn, hmerges, hlater]

end Place

def placesFrom (all before : List (Node α)) : List (Node α) → List (Option (Node α))
  | [] => []
  | n :: rest => rule.place all before n :: placesFrom all (before ++ [n]) rest

def places (ns : List (Node α)) : List (Option (Node α)) := rule.placesFrom ns [] ns

theorem length_placesFrom (all before rest : List (Node α)) :
    (rule.placesFrom all before rest).length = rest.length := by
  induction rest generalizing before with
  | nil => rfl
  | cons n rest ih => rw [placesFrom, List.length_cons, ih, List.length_cons]

theorem getElem?_placesFrom (all before rest : List (Node α)) (i : Nat) :
    (rule.placesFrom all before rest)[i]? =
      rest[i]?.map (rule.place all (before ++ rest.take i)) := by
  induction rest generalizing before i with
  | nil => rfl
  | cons n rest ih =>
    cases i with
    | zero => simp [placesFrom]
    | succ i => simp [placesFrom, ih]

theorem getElem?_places (ns : List (Node α)) (i : Nat) :
    (rule.places ns)[i]? = ns[i]?.map (rule.place ns (ns.take i)) := by
  rw [places, getElem?_placesFrom, List.nil_append]

/-- Going through the rest of a row place by place is merging what waits there. -/
theorem filterMap_placesFrom {all before rest : List (Node α)} (h : all = before ++ rest) :
    (rule.placesFrom all before rest).filterMap id =
      rule.mergeSiblings (rule.waiting all before rest) := by
  induction rest generalizing before with
  | nil => rw [placesFrom, waiting, List.filter_nil, mergeSiblings]; rfl
  | cons n rest ih =>
    have hrest := ih (h.trans (List.append_cons before n rest))
    rw [placesFrom, List.filterMap_cons, hrest]
    -- The sibling makes place for its bucket, has gone into it already, or is kept.
    by_cases hn : ∃ m, ofNode? n = some m ∧ rule.merges all m.attributes.state = true
    · obtain ⟨m, hn, hmerges⟩ := hn
      by_cases hfirst : companions m.attributes.state before = []
      · have hfree : rule.isTaken all before m.attributes.state = false := by
          simp [isTaken, hfirst]
        have hmembers : companions m.attributes.state all =
            m :: companions m.attributes.state rest := by
          rw [h, companions_append, hfirst, List.nil_append, companions_cons_self hn]
        have hjoins :
            rule.merges (n :: rule.waiting all before rest) m.attributes.state = true := by
          rw [← hmerges, merges, merges, companions_cons_self hn, companions_waiting hfree,
            hmembers]
        rw [place_of_first hn hmerges hfirst, hmembers, waiting_concat_of_first hn hmerges,
          waiting_cons_of_not_taken (by simpa [hn] using hfree),
          rule.mergeSiblings_cons_of_merges hn hjoins, companions_waiting hfree]
        rfl
      · have htaken : rule.isTaken all before m.attributes.state = true := by
          simp [isTaken, hmerges, hfirst]
        rw [place_of_later hn hmerges hfirst, waiting_concat_of_taken hn htaken,
          waiting_cons_of_taken hn htaken]
        rfl
    · have hkept : ∀ m, ofNode? n = some m → rule.merges all m.attributes.state = false :=
        fun m hm => eq_false_of_ne_true fun hmerges => hn ⟨m, hm, hmerges⟩
      have hsub : (n :: rule.waiting all before rest).Sublist all := by
        rw [h]
        exact (List.filter_sublist.cons_cons n).trans (List.sublist_append_right before _)
      rw [place_of_not_merges hkept, waiting_concat_of_not_merges hkept,
        waiting_cons_of_not_taken fun m hm => by rw [isTaken, hkept m hm, Bool.false_and],
        rule.mergeSiblings_cons_of_not_merges fun m hm =>
          merges_eq_false_of_sublist hsub (hkept m hm)]
      rfl

theorem mergeSiblings_eq_places (ns : List (Node α)) :
    rule.mergeSiblings ns = (rule.places ns).filterMap id := by
  have hall : rule.waiting ns [] ns = ns := by
    rw [waiting, List.filter_eq_self]
    intro n _
    cases ofNode? n <;> simp [isTaken, companions]
  rw [places, rule.filterMap_placesFrom (List.nil_append ns).symm, hall]

end Places

/-- What stands in the places of some siblings when they have been merged. Of a state set that joins
its siblings the first place has the joined drawable and the others have nothing; every sibling
of another kind is in its place. -/
structure IsMergedRow (rule : MergeRule Float32) (ns : List (Node Float32))
    (places : List (Option (Node Float32))) : Prop where
  length : places.length = ns.length
  first : ∀ s, rule.Joins ns s → ∃ i a mesh blocks, ns.findIdx? (isCompanion s) = some i ∧
    places[i]? = some (some (.drawable a mesh)) ∧ a.state = s ∧
    rule.IsDrawingOrder s (companions s ns) blocks ∧ Mesh.IsChain (blocks.map Member.mesh) mesh
  later : ∀ s, rule.Joins ns s → ∀ (i : Nat) (n : Node Float32), ns[i]? = some n →
    isCompanion s n = true → ns.findIdx? (isCompanion s) ≠ some i → places[i]? = some none
  other : ∀ (i : Nat) (n : Node Float32), ns[i]? = some n →
    (∀ s, isCompanion s n = true → ¬ rule.Joins ns s) → places[i]? = some (some n)

section Rows

variable {s : Option StateSet} {ns : List (Node α)} {i : Nat} {n : Node α}

theorem findIdx?_isCompanion (hi : ns[i]? = some n) (hn : isCompanion s n = true) :
    ns.findIdx? (isCompanion s) = some i ↔ companions s (ns.take i) = [] := by
  obtain ⟨hlt, rfl⟩ := List.getElem?_eq_some_iff.1 hi
  rw [List.findIdx?_eq_some_iff_getElem, companions_eq_nil_iff]
  constructor
  · rintro ⟨_, -, hbefore⟩ m hm
    obtain ⟨j, hj, rfl⟩ := List.mem_take_iff_getElem.1 hm
    exact eq_false_of_ne_true (hbefore j (by omega))
  · intro hbefore
    refine ⟨hlt, hn, fun j hj => ?_⟩
    rw [hbefore _ (List.mem_take_iff_getElem.2 ⟨j, by omega, rfl⟩)]
    exact Bool.false_ne_true

theorem exists_findIdx?_isCompanion (h : companions s ns ≠ []) :
    ∃ i n, ns.findIdx? (isCompanion s) = some i ∧ ns[i]? = some n ∧ isCompanion s n = true := by
  cases hfind : ns.findIdx? (isCompanion s) with
  | none => exact absurd (companions_eq_nil_iff.2 (List.findIdx?_eq_none_iff.1 hfind)) h
  | some i =>
    obtain ⟨hlt, hn, -⟩ := List.findIdx?_eq_some_iff_getElem.1 hfind
    exact ⟨i, ns[i], rfl, List.getElem?_eq_getElem hlt, hn⟩

end Rows

theorem exists_joined (rule : MergeRule Float32) {s : Option StateSet}
    {members : List (Member Float32)} (hne : members ≠ [])
    (hs : ∀ m ∈ members, m.attributes.state = s) :
    ∃ a mesh blocks, rule.joined members = some (.drawable a mesh) ∧ a.state = s ∧
      rule.IsDrawingOrder s members blocks ∧ Mesh.IsChain (blocks.map Member.mesh) mesh := by
  obtain ⟨first, more, rfl⟩ := List.exists_cons_of_ne_nil hne
  refine ⟨_, _, rule.order (first :: more), rfl, hs first List.mem_cons_self,
    rule.isDrawingOrder_order hs, ?_⟩
  rw [← List.foldl_map]
  exact Mesh.isChain_foldl_append _

theorem isMergedRow_places (rule : MergeRule Float32) (ns : List (Node Float32)) :
    rule.IsMergedRow ns (rule.places ns) where
  length := rule.length_placesFrom ns [] ns
  first s hjoins := by
    have hmerges := rule.merges_iff_joins.2 hjoins
    have hne : companions s ns ≠ [] := by
      have := hjoins.several
      rintro hnil
      simp [hnil] at this
    obtain ⟨i, n, hfirst, hi, hn⟩ := exists_findIdx?_isCompanion hne
    have hbefore := (findIdx?_isCompanion hi hn).1 hfirst
    obtain ⟨m, hm, rfl⟩ := isCompanion_iff.1 hn
    obtain ⟨a, mesh, blocks, hjoined, hstate, horder, hchain⟩ :=
      rule.exists_joined hne fun m hm => state_of_mem_companions hm
    refine ⟨i, a, mesh, blocks, hfirst, ?_, hstate, horder, hchain⟩
    rw [getElem?_places, hi, Option.map_some, place_of_first hm hmerges hbefore, hjoined]
  later s hjoins i n hi hn hlater := by
    have hmerges := rule.merges_iff_joins.2 hjoins
    have hbefore := mt (findIdx?_isCompanion hi hn).2 hlater
    obtain ⟨m, hm, rfl⟩ := isCompanion_iff.1 hn
    rw [getElem?_places, hi, Option.map_some, place_of_later hm hmerges hbefore]
  other i n hi hnone := by
    rw [getElem?_places, hi, Option.map_some, place_of_not_merges]
    intro m hm
    refine eq_false_of_ne_true fun hmerges => ?_
    exact hnone _ (isCompanion_iff.2 ⟨m, hm, rfl⟩) (rule.merges_iff_joins.1 hmerges)

/-- A tree beside what merging makes of it: each row of children that is reached through groups and
transforms is merged after the trees that it consists of. -/
inductive MergesTo (rule : MergeRule Float32) : Node Float32 → Node Float32 → Prop
  | row {a : Attributes} {b : Branching Float32} {children parts : List (Node Float32)}
    {places : List (Option (Node Float32))} : b.isPlacing = true →
    List.Forall₂ (MergesTo rule) children parts → rule.IsMergedRow parts places →
    MergesTo rule (.branch a b children) (.branch a b (places.filterMap id))
  | same {n : Node Float32} :
    (∀ a b children, n = .branch a b children → b.isPlacing = false) → MergesTo rule n n

theorem mergesTo_merge (rule : MergeRule Float32) (n : Node Float32) :
    rule.MergesTo n (rule.merge n) := by
  induction n with
  | branch a b children ih =>
    rw [merge]
    split
    · next hb =>
      rw [mergeSiblings_eq_places, mergeAll_eq]
      refine .row hb ?_ (rule.isMergedRow_places _)
      rw [List.forall₂_map_right_iff, List.forall₂_same]
      exact ih
    · next hb =>
      refine .same fun a' b' cs h => ?_
      obtain ⟨-, rfl, -⟩ := Node.branch.inj h
      exact eq_false_of_ne_true hb
  | drawable | posed | particle => exact .same (by simp)

end MergeRule

end DistantChunks
