import DistantChunks.Proofs.MergeDrawing
import Mathlib.Data.List.Dedup
import Mathlib.Data.List.Perm.Basic

/-!
# Buckets of siblings

Merging sorts siblings into buckets by their state set. A bucket that holds several drawables and
that the rule permits to merge is replaced by one drawable, and everything else is kept as it is:
`mergeSiblings_perm` splits the siblings in this way and says what is left of them. Whatever adds
up over siblings can be followed through merging by it.
-/

namespace DistantChunks

variable {α : Type}

namespace Member

variable {n : Node α} {m : Member α} {s t : Option StateSet} {ns : List (Node α)}

theorem companions_cons (t : Option StateSet) (n : Node α) (ns : List (Node α)) :
    companions t (n :: ns) =
      ((ofNode? n).filter (·.attributes.state = t)).toList ++ companions t ns := by
  rw [companions, List.filterMap_cons]
  cases (ofNode? n).filter (·.attributes.state = t) <;> rfl

theorem companions_append (s : Option StateSet) (ms ns : List (Node α)) :
    companions s (ms ++ ns) = companions s ms ++ companions s ns := List.filterMap_append

theorem companions_eq_nil_iff {s : Option StateSet} {ns : List (Node α)} :
    companions s ns = [] ↔ ∀ n ∈ ns, isCompanion s n = false := by
  simp only [companions, List.filterMap_eq_nil_iff, isCompanion_eq, Option.isSome_eq_false_iff,
    Option.isNone_iff_eq_none]

theorem isCompanion_iff {s : Option StateSet} {n : Node α} :
    isCompanion s n = true ↔ ∃ m, ofNode? n = some m ∧ m.attributes.state = s := by
  cases h : ofNode? n <;> simp [isCompanion, h]

theorem companions_cons_self (h : ofNode? n = some m) :
    companions m.attributes.state (n :: ns) = m :: companions m.attributes.state ns := by
  rw [companions_cons, h, Option.filter_some, if_pos (decide_eq_true rfl)]
  rfl

theorem companions_cons_of_ne (h : ∀ m, ofNode? n = some m → m.attributes.state ≠ t) :
    companions t (n :: ns) = companions t ns := by
  rw [companions_cons]
  cases hn : ofNode? n with
  | none => rfl
  | some m => rw [Option.filter_some, if_neg (by simpa using h m hn)]; rfl

theorem companions_others_self (s : Option StateSet) (ns : List (Node α)) :
    companions s (others s ns) = [] := by
  rw [companions, List.filterMap_eq_nil_iff]
  intro n hn
  have hnot := (List.mem_filter.1 hn).2
  rw [isCompanion_eq, Bool.not_eq_true', Option.isSome_eq_false_iff, Option.isNone_iff_eq_none]
    at hnot
  exact hnot

theorem companions_others_of_ne (h : t ≠ s) (ns : List (Node α)) :
    companions t (others s ns) = companions t ns := by
  rw [companions, others, List.filterMap_filter]
  apply List.filterMap_congr
  intro n _
  cases hn : ofNode? n with
  | none => simp [isCompanion, hn]
  | some m =>
    by_cases ht : m.attributes.state = t
    · have hs : m.attributes.state ≠ s := fun hs => h (ht.symm.trans hs)
      simp [isCompanion, hn, hs]
    · have hnone : (some m).filter (·.attributes.state = t) = none :=
        Option.filter_eq_none_iff.2 (by simpa using ht)
      rw [hnone]
      exact ite_self none

theorem exists_of_mem_companions (h : m ∈ companions t ns) : ∃ n ∈ ns, ofNode? n = some m := by
  obtain ⟨n, hn, hm⟩ := List.mem_filterMap.1 h
  exact ⟨n, hn, (Option.filter_eq_some_iff.1 hm).1⟩

end Member

namespace MergeRule

open Member

variable (rule : MergeRule α)

def merges (ns : List (Node α)) (state : Option StateSet) : Bool :=
  decide (2 ≤ (companions state ns).length) && rule.permits state

def mergedStates (ns : List (Node α)) : List (Option StateSet) :=
  ((ns.filterMap ofNode?).map (·.attributes.state)).dedup.filter (rule.merges ns)

/-- The siblings that are merged, those with one state set together. -/
def buckets (ns : List (Node α)) : List (List (Member α)) :=
  (rule.mergedStates ns).map (companions · ns)

def kept (ns : List (Node α)) : List (Node α) :=
  ns.filter fun n => !(ofNode? n).any fun m => rule.merges ns m.attributes.state

theorem mem_mergedStates {ns : List (Node α)} {t : Option StateSet} :
    t ∈ rule.mergedStates ns ↔ rule.merges ns t = true := by
  rw [mergedStates, List.mem_filter, List.mem_dedup, and_iff_right_iff_imp]
  intro h
  have hlength : 2 ≤ (companions t ns).length := by
    rw [merges, Bool.and_eq_true, decide_eq_true_eq] at h
    exact h.1
  obtain ⟨m, hm⟩ := List.exists_mem_of_length_pos (show 0 < (companions t ns).length by omega)
  obtain ⟨n, hn, hof⟩ := exists_of_mem_companions hm
  exact List.mem_map.2 ⟨m, List.mem_filterMap.2 ⟨n, hn, hof⟩, state_of_mem_companions hm⟩

theorem nodup_mergedStates (ns : List (Node α)) : (rule.mergedStates ns).Nodup :=
  (List.nodup_dedup _).filter _

theorem two_le_length_of_mem_buckets {ns : List (Node α)} {b : List (Member α)}
    (hb : b ∈ rule.buckets ns) : 2 ≤ b.length := by
  obtain ⟨t, ht, rfl⟩ := List.mem_map.1 hb
  have hmerges := (rule.mem_mergedStates).1 ht
  rw [merges, Bool.and_eq_true, decide_eq_true_eq] at hmerges
  exact hmerges.1

theorem state_of_mem_bucket {ns : List (Node α)} {first : Member α} {more : List (Member α)}
    (hb : first :: more ∈ rule.buckets ns) :
    ∀ m ∈ more, m.attributes.state = first.attributes.state := by
  obtain ⟨t, -, ht⟩ := List.mem_map.1 hb
  have hstate : ∀ m ∈ first :: more, m.attributes.state = t := fun m hm =>
    state_of_mem_companions (ht ▸ hm)
  intro m hm
  rw [hstate m (List.mem_cons_of_mem first hm), hstate first List.mem_cons_self]

section Keeping

variable {rule} {n : Node α} {ns : List (Node α)}

/-- A sibling that is not merged is kept and changes no bucket. -/
theorem merges_cons (h : ∀ m, ofNode? n = some m → rule.merges (n :: ns) m.attributes.state = false)
    (t : Option StateSet) : rule.merges (n :: ns) t = rule.merges ns t := by
  by_cases hn : ∃ m, ofNode? n = some m ∧ m.attributes.state = t
  · obtain ⟨m, hm, rfl⟩ := hn
    have hfew := h m hm
    rw [hfew]
    rw [merges, companions_cons_self hm, List.length_cons] at hfew
    simp only [merges, Bool.and_eq_false_iff, decide_eq_false_iff_not] at hfew ⊢
    rcases hfew with hfew | hfew
    · exact (Bool.and_eq_false_iff.2 (.inl (decide_eq_false (by omega)))).symm
    · exact (Bool.and_eq_false_iff.2 (.inr hfew)).symm
  · have hne : ∀ m, ofNode? n = some m → m.attributes.state ≠ t := by
      intro m hm ht
      exact hn ⟨m, hm, ht⟩
    rw [merges, merges, companions_cons_of_ne hne]

theorem kept_cons
    (h : ∀ m, ofNode? n = some m → rule.merges (n :: ns) m.attributes.state = false) :
    rule.kept (n :: ns) = n :: rule.kept ns := by
  have hself : (!(ofNode? n).any fun m => rule.merges (n :: ns) m.attributes.state) = true := by
    cases hn : ofNode? n with
    | none => rfl
    | some m => simp [h m hn]
  have hmerges : rule.merges (n :: ns) = rule.merges ns := funext (merges_cons h)
  rw [kept, List.filter_cons_of_pos (by exact hself), hmerges]
  rfl

theorem buckets_cons
    (h : ∀ m, ofNode? n = some m → rule.merges (n :: ns) m.attributes.state = false) :
    (rule.buckets (n :: ns)).Perm (rule.buckets ns) := by
  have hstates : (rule.mergedStates (n :: ns)).Perm (rule.mergedStates ns) := by
    rw [List.perm_ext_iff_of_nodup (rule.nodup_mergedStates _) (rule.nodup_mergedStates _)]
    intro t
    rw [mem_mergedStates, mem_mergedStates, merges_cons h]
  refine (hstates.map _).trans (.of_eq (List.map_congr_left fun t ht => ?_))
  apply companions_cons_of_ne
  rintro m hm rfl
  rw [mem_mergedStates, ← merges_cons h, h m hm] at ht
  cases ht

end Keeping

section Joining

variable {rule} {n : Node α} {ns : List (Node α)} {first : Member α}

theorem merges_others (hn : ofNode? n = some first) (t : Option StateSet) :
    rule.merges (others first.attributes.state ns) t =
      (decide (t ≠ first.attributes.state) && rule.merges (n :: ns) t) := by
  by_cases ht : t = first.attributes.state
  · simp [merges, ht, companions_others_self]
  · have hne : ∀ m, ofNode? n = some m → m.attributes.state ≠ t := by
      intro m hm
      rw [hn, Option.some.injEq] at hm
      rw [← hm]
      exact Ne.symm ht
    rw [merges, merges, companions_others_of_ne ht, companions_cons_of_ne hne]
    simp [ht]

/-- The siblings outside a bucket are kept or merged as they were. -/
theorem kept_cons_of_merges (hn : ofNode? n = some first)
    (hmerges : rule.merges (n :: ns) first.attributes.state = true) :
    rule.kept (n :: ns) = rule.kept (others first.attributes.state ns) := by
  have hself : (!(ofNode? n).any fun m => rule.merges (n :: ns) m.attributes.state) = false := by
    simp [hn, hmerges]
  have hothers : rule.merges (others first.attributes.state ns) = fun t =>
      decide (t ≠ first.attributes.state) && rule.merges (n :: ns) t :=
    funext (merges_others hn)
  rw [kept, List.filter_cons_of_neg (by simp [hself]), kept, hothers, others, List.filter_filter]
  apply List.filter_congr
  intro r _
  cases hr : ofNode? r with
  | none => simp [isCompanion, hr]
  | some m =>
    by_cases hs : m.attributes.state = first.attributes.state
    · simp [isCompanion, hr, hs, hmerges]
    · simp [isCompanion, hr, hs]

theorem buckets_cons_of_merges (hn : ofNode? n = some first)
    (hmerges : rule.merges (n :: ns) first.attributes.state = true) :
    (rule.buckets (n :: ns)).Perm ((first :: companions first.attributes.state ns) ::
      rule.buckets (others first.attributes.state ns)) := by
  have hstates : (rule.mergedStates (n :: ns)).Perm
      (first.attributes.state :: rule.mergedStates (others first.attributes.state ns)) := by
    have hnew : first.attributes.state ∉
        rule.mergedStates (others first.attributes.state ns) := by
      rw [mem_mergedStates, merges_others hn]
      simp
    rw [List.perm_ext_iff_of_nodup (rule.nodup_mergedStates _)
      (List.nodup_cons.2 ⟨hnew, rule.nodup_mergedStates _⟩)]
    intro t
    rw [List.mem_cons, mem_mergedStates, mem_mergedStates, merges_others hn]
    by_cases ht : t = first.attributes.state
    · simp [ht, hmerges]
    · simp [ht]
  refine (hstates.map _).trans (.of_eq ?_)
  rw [List.map_cons, companions_cons_self hn]
  refine congrArg _ (List.map_congr_left fun t ht => ?_)
  rw [mem_mergedStates, merges_others hn, Bool.and_eq_true, decide_eq_true_eq] at ht
  have hne : ∀ m, ofNode? n = some m → m.attributes.state ≠ t := by
    intro m hm
    rw [hn, Option.some.injEq] at hm
    rw [← hm]
    exact Ne.symm ht.1
  rw [companions_cons_of_ne hne, companions_others_of_ne ht.1]

end Joining

variable [Scalar α]

theorem mergeSiblings_cons_of_not_merges {n : Node α} {rest : List (Node α)}
    (h : ∀ m, ofNode? n = some m → rule.merges (n :: rest) m.attributes.state = false) :
    rule.mergeSiblings (n :: rest) = n :: rule.mergeSiblings rest := by
  rw [mergeSiblings]
  cases hn : ofNode? n with
  | none => rfl
  | some first =>
    have hfew := h first hn
    rw [merges, companions_cons_self hn] at hfew
    cases hc : companions first.attributes.state rest with
    | nil => simp [hc]
    | cons c cs =>
      have hforbidden : rule.permits first.attributes.state = false := by simpa [hc] using hfew
      simp [hc, hforbidden]

theorem mergeSiblings_cons_of_merges {n : Node α} {rest : List (Node α)} {first : Member α}
    (hn : ofNode? n = some first)
    (h : rule.merges (n :: rest) first.attributes.state = true) :
    rule.mergeSiblings (n :: rest) =
      rule.join first (companions first.attributes.state rest) ::
        rule.mergeSiblings (others first.attributes.state rest) := by
  rw [merges, companions_cons_self hn, Bool.and_eq_true] at h
  rw [mergeSiblings, hn]
  cases hc : companions first.attributes.state rest with
  | nil => simp [hc] at h
  | cons c cs => simp [hc, h.2]

/-- Induction along a row that is merged: a sibling is kept, or is joined with its companions in
the rest of the row. -/
theorem mergeSiblings_induction {motive : List (Node α) → List (Node α) → Prop}
    (nil : motive [] [])
    (keep : ∀ n rest,
      (∀ m, ofNode? n = some m → rule.merges (n :: rest) m.attributes.state = false) →
      motive rest (rule.mergeSiblings rest) →
      motive (n :: rest) (n :: rule.mergeSiblings rest))
    (join : ∀ n first rest, ofNode? n = some first →
      rule.merges (n :: rest) first.attributes.state = true →
      motive (others first.attributes.state rest)
        (rule.mergeSiblings (others first.attributes.state rest)) →
      motive (n :: rest) (rule.join first (companions first.attributes.state rest) ::
        rule.mergeSiblings (others first.attributes.state rest))) :
    ∀ ns, motive ns (rule.mergeSiblings ns)
  | [] => by rw [mergeSiblings]; exact nil
  | n :: rest => by
    by_cases h : ∃ first, ofNode? n = some first ∧
        rule.merges (n :: rest) first.attributes.state = true
    · obtain ⟨first, hn, hmerges⟩ := h
      rw [rule.mergeSiblings_cons_of_merges hn hmerges]
      exact join n first rest hn hmerges (mergeSiblings_induction nil keep join _)
    · have hkept : ∀ m, ofNode? n = some m →
          rule.merges (n :: rest) m.attributes.state = false := fun m hm =>
        eq_false_of_ne_true fun hmerges => h ⟨m, hm, hmerges⟩
      rw [rule.mergeSiblings_cons_of_not_merges hkept]
      exact keep n rest hkept (mergeSiblings_induction nil keep join rest)
  termination_by ns => ns.length
  decreasing_by
    · exact Nat.lt_succ_of_le (length_others_le _ _)
    · exact Nat.lt_succ_self _

/-- The drawable in the place of a bucket. -/
def joined : List (Member α) → Option (Node α)
  | [] => none
  | first :: more => some (rule.join first more)

/-- Siblings are those that are kept and the members of the buckets, and merging puts one drawable
in the place of each bucket. -/
theorem mergeSiblings_perm (ns : List (Node α)) :
    ns.Perm (rule.kept ns ++ (rule.buckets ns).flatten.map toNode) ∧
      (rule.mergeSiblings ns).Perm
        (rule.kept ns ++ (rule.buckets ns).filterMap rule.joined) := by
  refine rule.mergeSiblings_induction (motive := fun ns merged =>
    ns.Perm (rule.kept ns ++ (rule.buckets ns).flatten.map toNode) ∧
      merged.Perm (rule.kept ns ++ (rule.buckets ns).filterMap rule.joined))
    ⟨.refl _, .refl _⟩ ?_ ?_ ns
  · rintro n rest h ⟨hbefore, hafter⟩
    have hbuckets := (buckets_cons h).symm
    rw [kept_cons h]
    exact ⟨(hbefore.cons n).trans
        ((hbuckets.flatten.map toNode).append_left (n :: rule.kept rest)),
      (hafter.cons n).trans
        ((hbuckets.filterMap rule.joined).append_left (n :: rule.kept rest))⟩
  · rintro n first rest hn hmerges ⟨hbefore, hafter⟩
    have hbuckets := (buckets_cons_of_merges hn hmerges).symm
    set state := first.attributes.state
    rw [kept_cons_of_merges hn hmerges]
    constructor
    · have hparts : (n :: rest).Perm (first.toNode ::
          ((companions state rest).map toNode ++ others state rest)) := by
        rw [eq_toNode_of_ofNode? hn]
        exact (perm_companions state rest).cons _
      have hmembers : (n :: rest).Perm (rule.kept (others state rest) ++
          (((first :: companions state rest) :: rule.buckets (others state rest)).flatten.map
            toNode)) := by
        refine (hparts.trans ((hbefore.append_left _).cons _)).trans ?_
        rw [List.flatten_cons, List.map_append, List.map_cons]
        exact List.perm_append_comm_assoc (first.toNode :: _) _ _
      exact hmembers.trans ((hbuckets.flatten.map toNode).append_left _)
    · have hjoined : (rule.join first (companions state rest) ::
          rule.mergeSiblings (others state rest)).Perm (rule.kept (others state rest) ++
            ((first :: companions state rest) :: rule.buckets (others state rest)).filterMap
              rule.joined) :=
        (hafter.cons _).trans List.perm_middle.symm
      exact hjoined.trans ((hbuckets.filterMap _).append_left _)

theorem mem_or_isDrawable_of_mem_mergeSiblings {ns : List (Node α)} {m : Node α}
    (hm : m ∈ rule.mergeSiblings ns) : m ∈ ns ∨ m.isDrawable = true := by
  rcases List.mem_append.1 ((rule.mergeSiblings_perm ns).2.mem_iff.1 hm) with hm | hm
  · exact .inl (List.mem_of_mem_filter hm)
  · obtain ⟨b, -, hb⟩ := List.mem_filterMap.1 hm
    cases b with
    | nil => cases hb
    | cons first more =>
      rw [joined, Option.some.injEq] at hb
      exact .inr (hb ▸ rfl)

theorem origin_of_mem_merged {ns : List (Node α)} {m : Node α}
    (hm : m ∈ rule.mergeSiblings (mergeAll rule ns)) :
    (∃ n ∈ ns, m = rule.merge n) ∨ m.isDrawable = true := by
  refine (rule.mem_or_isDrawable_of_mem_mergeSiblings hm).imp_left fun hm => ?_
  rw [mergeAll_eq] at hm
  obtain ⟨n, hn, rfl⟩ := List.mem_map.1 hm
  exact ⟨n, hn, rfl⟩

end MergeRule

end DistantChunks
