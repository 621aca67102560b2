import DistantChunks.Proofs.OptimizedParts

/-!
# One run settles a tree

Lifting works from the bottom up. When it comes to a group, everything below has been lifted
already, and once the group has handed down its state set or made room for its children, nothing
that happens above it or beside it gives lifting another chance. Merging afterwards takes away
drawables only, and never all children of a node, and it leaves one drawable of each state set that
the rule permits. So a second run of both changes nothing.
-/

namespace DistantChunks

variable {α : Type}

theorem Attributes.isPlain_eq_false_iff (a : Attributes) : a.isPlain = false ↔
    a.state ≠ none ∨ a.callbacks ≠ [] ∨ a.userData ≠ none ∨ a.variance = .dynamic := by
  simp only [isPlain, Bool.and_eq_false_iff, Option.isNone_eq_false_iff,
    Option.isSome_iff_ne_none, List.isEmpty_eq_false_iff, bne_eq_false_iff_eq, or_assoc]

namespace Node

/-- A group or a transform reaches its children and what they reach. -/
inductive Reaches : Node α → Node α → Prop
  | child {a : Attributes} {b : Branching α} {children : List (Node α)} {c : Node α} :
    b.isPlacing = true → c ∈ children → Reaches (.branch a b children) c
  | step {a : Attributes} {b : Branching α} {children : List (Node α)} {c m : Node α} :
    b.isPlacing = true → c ∈ children → Reaches c m → Reaches (.branch a b children) m

/-- A group that has children, has something to say about them, and keeps a state set only because
of a child that is no drawable. -/
structure IsNeeded (a : Attributes) (children : List (Node α)) : Prop where
  inhabited : children ≠ []
  speaks : a.state ≠ none ∨ a.callbacks ≠ [] ∨ a.userData ≠ none ∨ a.variance = .dynamic
  mixed : a.state ≠ none → ∃ c ∈ children, c.isDrawable = false

/-- What is asked of the groups and transforms that lifting keeps. -/
def Stays : Node α → Prop
  | .branch a .group children => IsNeeded a children
  | .branch _ (.transform _) children => children ≠ []
  | _ => True

def IsSettled (n : Node α) : Prop := n.Stays ∧ ∀ m, n.Reaches m → m.Stays

theorem isSettled_branch_iff {a : Attributes} {b : Branching α} {children : List (Node α)}
    (hb : b.isPlacing = true) : (branch a b children).IsSettled ↔
      (branch a b children).Stays ∧ ∀ c ∈ children, c.IsSettled := by
  refine and_congr_right fun _ => ⟨fun h c hc => ?_, fun h m hm => ?_⟩
  · exact ⟨h c (.child hb hc), fun m hm => h m (.step hb hc hm)⟩
  · cases hm with
    | child _ hc => exact (h m hc).1
    | step _ hc hm => exact (h _ hc).2 m hm

theorem isSettled_of_choosing {a : Attributes} {b : Branching α} (hb : b.isPlacing = false)
    (children : List (Node α)) : (branch a b children).IsSettled := by
  refine ⟨?_, fun m hm => ?_⟩
  · cases b with
    | group | transform => cases hb
    | switch | detail => trivial
  · cases hm with
    | child hb' | step hb' => rw [hb] at hb'; cases hb'

theorem not_reaches_of_isDrawable {n : Node α} (h : n.isDrawable = true) (m : Node α) :
    ¬ n.Reaches m := by
  cases n with
  | branch | particle => cases h
  | drawable | posed => nofun

theorem stays_of_isDrawable {n : Node α} (h : n.isDrawable = true) : n.Stays := by
  cases n with
  | branch | particle => cases h
  | drawable | posed => trivial

theorem isSettled_of_isDrawable {n : Node α} (h : n.isDrawable = true) : n.IsSettled :=
  ⟨stays_of_isDrawable h, fun m hm => absurd hm (not_reaches_of_isDrawable h m)⟩

section Lifting

theorem isDrawable_withStateIfNone (s : StateSet) (n : Node α) :
    (n.withStateIfNone s).isDrawable = n.isDrawable := by
  unfold withStateIfNone
  split
  · cases n <;> rfl
  · rfl

/-- Whatever a group hands down, its children stay settled. A state set that it keeps is kept
because of a child that is no drawable. -/
theorem isSettled_handDown {a : Attributes} {children : List (Node α)}
    (h : ∀ c ∈ children, c.IsSettled) (hne : (handDown a children).2 ≠ []) :
    (∀ c ∈ (handDown a children).2, c.IsSettled) ∧
      ((handDown a children).1.state ≠ none →
        ∃ c ∈ (handDown a children).2, c.isDrawable = false) := by
  unfold handDown at hne ⊢
  split
  · next hs => exact ⟨h, fun hstate => absurd hs hstate⟩
  · next s hs =>
    split
    · next hall =>
      refine ⟨fun c hc => ?_, fun hstate => absurd rfl hstate⟩
      obtain ⟨d, hd, rfl⟩ := List.mem_map.1 hc
      apply isSettled_of_isDrawable
      rw [isDrawable_withStateIfNone]
      exact List.all_eq_true.1 (Bool.and_eq_true_iff.1 hall).2 d hd
    · next hsome =>
      refine ⟨h, fun _ => ?_⟩
      rw [hs] at hne
      simp only [if_neg hsome] at hne
      simpa [hne] using hsome

theorem isSettled_of_mem_settledGroup {a : Attributes} {children : List (Node α)}
    (h : ∀ c ∈ children, c.IsSettled) : ∀ c ∈ settledGroup a children, c.IsSettled := by
  unfold settledGroup
  intro c hc
  dsimp only at hc
  split at hc
  · cases hc
  · next hne =>
    have hne : (handDown a children).2 ≠ [] := by simpa using hne
    obtain ⟨hsettled, hmixed⟩ := isSettled_handDown h hne
    split at hc
    · exact hsettled c hc
    · next hplain =>
      rw [List.mem_singleton.1 hc, isSettled_branch_iff rfl]
      have hspeaks := (Attributes.isPlain_eq_false_iff _).1 (eq_false_of_ne_true hplain)
      exact ⟨⟨hne, hspeaks, hmixed⟩, hsettled⟩

theorem isSettled_of_mem_lift (n : Node α) : ∀ m ∈ lift n, m.IsSettled := by
  induction n with
  | branch a b children ih =>
    have hall : ∀ c ∈ liftAll children, c.IsSettled := by
      intro c hc
      rw [liftAll_eq] at hc
      obtain ⟨d, hd, hc⟩ := List.mem_flatMap.1 hc
      exact ih d hd c hc
    intro m hm
    cases b with
    | group => exact isSettled_of_mem_settledGroup hall m hm
    | transform x =>
      rw [lift] at hm
      cases hlifted : liftAll children with
      | nil => rw [hlifted] at hm; cases hm
      | cons c cs =>
        rw [hlifted] at hm hall
        rw [List.mem_singleton.1 hm, isSettled_branch_iff rfl]
        exact ⟨List.cons_ne_nil c cs, hall⟩
    | switch | detail =>
      simp only [lift, List.mem_singleton] at hm
      exact hm ▸ isSettled_of_choosing rfl children
  | drawable | posed =>
    intro m hm
    simp only [lift, List.mem_singleton] at hm
    exact hm ▸ isSettled_of_isDrawable rfl
  | particle a role =>
    intro m hm
    simp only [lift, List.mem_singleton] at hm
    subst hm
    exact ⟨trivial, fun m hm => by cases hm⟩

theorem IsNeeded.settledGroup_eq {a : Attributes} {children : List (Node α)}
    (h : IsNeeded a children) : settledGroup a children = [.branch a .group children] := by
  have hkeeps : handDown a children = (a, children) := by
    unfold handDown
    split
    · rfl
    · next s hs =>
      obtain ⟨c, hc, hnot⟩ := h.mixed (by simp [hs])
      rw [if_neg]
      intro hall
      rw [Bool.and_eq_true, List.all_eq_true] at hall
      rw [hall.2 c hc] at hnot
      cases hnot
  have hspeaks : a.isPlain = false := (Attributes.isPlain_eq_false_iff a).2 h.speaks
  simp [settledGroup, hkeeps, hspeaks, h.inhabited]

theorem liftAll_eq_self {ns : List (Node α)} (h : ∀ n ∈ ns, lift n = [n]) : liftAll ns = ns := by
  rw [liftAll_eq, List.flatMap_congr h]
  exact List.flatMap_singleton' ns

theorem IsSettled.lift_eq {n : Node α} (h : n.IsSettled) : lift n = [n] := by
  induction n with
  | branch a b children ih =>
    cases b with
    | group =>
      obtain ⟨hstays, hchildren⟩ := (isSettled_branch_iff rfl).1 h
      rw [lift, liftAll_eq_self fun c hc => ih c hc (hchildren c hc), hstays.settledGroup_eq]
    | transform x =>
      obtain ⟨hstays, hchildren⟩ := (isSettled_branch_iff rfl).1 h
      obtain ⟨c, cs, rfl⟩ := List.exists_cons_of_ne_nil hstays
      rw [lift, liftAll_eq_self fun d hd => ih d hd (hchildren d hd)]
    | switch | detail => simp [lift]
  | drawable | posed | particle => simp [lift]

theorem stays_of_reaches_lifted {root m : Node α} (h : root.lifted.Reaches m) : m.Stays := by
  cases root with
  | branch a b children =>
    have hsettled (hb : b.isPlacing = true) :
        ∀ c ∈ if b.isPlacing then liftAll children else children, c.IsSettled := by
      rw [if_pos hb, liftAll_eq]
      intro c hc
      obtain ⟨d, -, hc⟩ := List.mem_flatMap.1 hc
      exact isSettled_of_mem_lift d c hc
    rw [lifted] at h
    cases h with
    | child hb hc => exact (hsettled hb m hc).1
    | step hb hc hm => exact (hsettled hb _ hc).2 m hm
  | drawable | posed | particle => cases h

theorem lifted_eq_self {root : Node α} (h : ∀ m, root.Reaches m → m.Stays) :
    root.lifted = root := by
  cases root with
  | branch a b children =>
    rw [lifted]
    split
    · next hb =>
      have hsettled : ∀ c ∈ children, c.IsSettled := fun c hc =>
        ⟨h c (.child hb hc), fun m hm => h m (.step hb hc hm)⟩
      rw [liftAll_eq_self fun c hc => (hsettled c hc).lift_eq]
    · rfl
  | drawable | posed | particle => rfl

end Lifting

end Node

namespace MergeRule

open Member Node

variable (rule : MergeRule α)

variable [Scalar α]

theorem isDrawable_merge (n : Node α) : (rule.merge n).isDrawable = n.isDrawable := by
  cases n <;> rfl

theorem mergeSiblings_ne_nil {ns : List (Node α)} (h : ns ≠ []) : rule.mergeSiblings ns ≠ [] := by
  refine rule.mergeSiblings_induction (motive := fun ns merged => ns ≠ [] → merged ≠ [])
    (fun h => absurd rfl h) ?_ ?_ ns h
  · exact fun n rest _ _ _ => List.cons_ne_nil _ _
  · exact fun n first rest _ _ _ _ => List.cons_ne_nil _ _

theorem mem_mergeSiblings_of_not_isDrawable {ns : List (Node α)} {n : Node α} (hn : n ∈ ns)
    (h : n.isDrawable = false) : n ∈ rule.mergeSiblings ns := by
  have hnone : ofNode? n = none := by
    cases n with
    | drawable | posed => cases h
    | branch | particle => rfl
  refine (rule.mergeSiblings_perm ns).2.mem_iff.2 (List.mem_append_left _ ?_)
  exact List.mem_filter.2 ⟨hn, by simp [hnone]⟩

theorem stays_merge {n : Node α} (h : n.Stays) : (rule.merge n).Stays := by
  have hne {ns : List (Node α)} (hns : ns ≠ []) : rule.mergeSiblings (mergeAll rule ns) ≠ [] := by
    rw [mergeAll_eq]
    exact rule.mergeSiblings_ne_nil (by simpa using hns)
  cases n with
  | branch a b children =>
    cases b with
    | group =>
      refine ⟨hne h.inhabited, h.speaks, fun hstate => ?_⟩
      obtain ⟨c, hc, hnot⟩ := h.mixed hstate
      have hnot' : (rule.merge c).isDrawable = false := (rule.isDrawable_merge c).trans hnot
      have hmem : rule.merge c ∈ mergeAll rule children := by
        rw [mergeAll_eq]
        exact List.mem_map_of_mem hc
      exact ⟨rule.merge c, rule.mem_mergeSiblings_of_not_isDrawable hmem hnot', hnot'⟩
    | transform x => exact hne h
    | switch | detail => trivial
  | drawable | posed | particle => exact h

theorem origin_of_reaches_merge {n m : Node α} (h : (rule.merge n).Reaches m) :
    (∃ l, n.Reaches l ∧ m = rule.merge l) ∨ m.isDrawable = true := by
  induction n with
  | branch a b children ih =>
    have horigin (hb : b.isPlacing = true) : ∀ c ∈ if b.isPlacing then
        rule.mergeSiblings (mergeAll rule children) else children,
          (∃ d ∈ children, c = rule.merge d) ∨ c.isDrawable = true := by
      rw [if_pos hb]
      exact fun c hc => rule.origin_of_mem_merged hc
    rw [merge] at h
    cases h with
    | child hb hc =>
      rcases horigin hb m hc with ⟨d, hd, hm⟩ | hdrawable
      · exact .inl ⟨d, .child hb hd, hm⟩
      · exact .inr hdrawable
    | step hb hc hm =>
      rcases horigin hb _ hc with ⟨d, hd, rfl⟩ | hdrawable
      · rcases ih d hd hm with ⟨l, hl, hm⟩ | hdrawable
        · exact .inl ⟨l, .step hb hd hl, hm⟩
        · exact .inr hdrawable
      · exact absurd hm (not_reaches_of_isDrawable hdrawable m)
  | drawable | posed | particle => cases h

theorem stays_of_reaches_merge {n : Node α} (h : ∀ m, n.Reaches m → m.Stays) {m : Node α}
    (hm : (rule.merge n).Reaches m) : m.Stays := by
  rcases rule.origin_of_reaches_merge hm with ⟨l, hl, rfl⟩ | hdrawable
  · exact rule.stays_merge (h l hl)
  · exact stays_of_isDrawable hdrawable

omit [Scalar α] in
theorem callbacks_of_ofNode? {n : Node α} {m : Member α} (h : ofNode? n = some m) :
    m.attributes.callbacks = [] := by
  cases n with
  | drawable a mesh =>
    simp only [ofNode?] at h
    split at h
    · next hfree =>
      cases h
      exact List.isEmpty_iff.1 (Bool.and_eq_true_iff.1 hfree).1
    · cases h
  | branch | posed | particle => cases h

theorem exists_ofNode?_join {n : Node α} {first : Member α} (h : ofNode? n = some first)
    (rest : List (Member α)) : ∃ m, ofNode? (rule.join first rest) = some m ∧
      m.attributes.state = first.attributes.state := by
  refine ⟨_, if_pos ?_, rfl⟩
  simp [callbacks_of_ofNode? h]

/-- Siblings that are merged leave one drawable of their state set. No other state set gains or
loses any. -/
theorem length_companions_mergeSiblings (ns : List (Node α)) (s : Option StateSet) :
    (companions s (rule.mergeSiblings ns)).length =
      if rule.merges ns s then 1 else (companions s ns).length := by
  refine rule.mergeSiblings_induction (motive := fun ns merged =>
    (companions s merged).length = if rule.merges ns s then 1 else (companions s ns).length)
    (by simp [merges, companions]) ?_ ?_ ns
  · intro n rest h ih
    rw [merges_cons h]
    by_cases hs : rule.merges rest s = true
    · have hne : ∀ m, ofNode? n = some m → m.attributes.state ≠ s := by
        rintro m hm rfl
        rw [← merges_cons h, h m hm] at hs
        cases hs
      rw [companions_cons_of_ne hne, ih, if_pos hs, if_pos hs]
    · rw [if_neg hs] at ih
      rw [if_neg hs, companions_cons, companions_cons, List.length_append, List.length_append, ih]
  · intro n first rest hn hmerges ih
    obtain ⟨joined, hjoined, hstate⟩ := rule.exists_ofNode?_join hn
      (companions first.attributes.state rest)
    rw [merges_others hn] at ih
    by_cases hs : s = first.attributes.state
    · subst hs
      have hnone : (companions first.attributes.state
          (rule.mergeSiblings (others first.attributes.state rest))).length = 0 := by
        simpa [companions_others_self] using ih
      have hjoin : companions joined.attributes.state (rule.join first
          (companions first.attributes.state rest) ::
            rule.mergeSiblings (others first.attributes.state rest)) = joined :: _ :=
        companions_cons_self hjoined
      rw [hstate] at hjoin
      rw [if_pos hmerges, hjoin, List.length_cons, hnone]
    · have hne {n : Node α} {m : Member α} (h : ofNode? n = some m)
          (hm : m.attributes.state = first.attributes.state) :
          ∀ m, ofNode? n = some m → m.attributes.state ≠ s := by
        intro m' hm'
        obtain rfl : m = m' := by rw [h] at hm'; exact Option.some.inj hm'
        rw [hm]
        exact Ne.symm hs
      rw [companions_cons_of_ne (hne hjoined hstate), ih, companions_others_of_ne hs,
        companions_cons_of_ne (hne hn rfl)]
      simp [hs]

theorem merges_mergeSiblings (ns : List (Node α)) (s : Option StateSet) :
    rule.merges (rule.mergeSiblings ns) s = false := by
  rw [merges, length_companions_mergeSiblings]
  split
  · rfl
  · next hs => exact eq_false_of_ne_true hs

theorem mergeSiblings_eq_self {ns : List (Node α)} (h : ∀ s, rule.merges ns s = false) :
    rule.mergeSiblings ns = ns := by
  refine rule.mergeSiblings_induction (motive := fun ns merged =>
    (∀ s, rule.merges ns s = false) → merged = ns) (fun _ => rfl) ?_ ?_ ns h
  · intro n rest hkept ih h
    rw [ih fun s => (merges_cons hkept s).symm.trans (h s)]
  · intro n first rest _ hmerges _ h
    rw [h] at hmerges
    cases hmerges

theorem merge_eq_self_of_isDrawable {n : Node α} (h : n.isDrawable = true) : rule.merge n = n := by
  cases n with
  | branch | particle => cases h
  | drawable | posed => rfl

/-- Merging a second time changes nothing. -/
theorem merge_merge (n : Node α) : rule.merge (rule.merge n) = rule.merge n := by
  induction n with
  | branch a b children ih =>
    by_cases hb : b.isPlacing = true
    · rw [merge, if_pos hb, merge, if_pos hb]
      have hbelow : mergeAll rule (rule.mergeSiblings (mergeAll rule children)) =
          rule.mergeSiblings (mergeAll rule children) := by
        rw [mergeAll_eq]
        refine (List.map_congr_left fun m hm => ?_).trans (List.map_id _)
        rcases rule.origin_of_mem_merged hm with ⟨c, hc, rfl⟩ | hdrawable
        · exact ih c hc
        · exact rule.merge_eq_self_of_isDrawable hdrawable
      rw [hbelow, rule.mergeSiblings_eq_self (rule.merges_mergeSiblings _)]
    · rw [merge, if_neg hb, merge, if_neg hb]
  | drawable | posed | particle => rfl

end MergeRule

namespace Node

variable [Scalar α]

/-- After one run of lifting, or of lifting and merging, there is nothing left for a second one. -/
theorem lifted_and_merged_settles (root : Node α) :
    (∀ m, root.lifted.Reaches m → m.Stays) ∧ root.lifted.lifted = root.lifted ∧
    ∀ rule : MergeRule α,
      let passes : Passes := { bakes := false, lifts := true, merges := true }
      let once := root.optimized rule passes
      let count := (root.optimizationChange rule passes).after
      once.optimized rule passes = once ∧
        once.optimizationChange rule passes = ⟨count, count⟩ := by
  have hstays : ∀ m, root.lifted.Reaches m → m.Stays := fun m hm => stays_of_reaches_lifted hm
  refine ⟨hstays, lifted_eq_self hstays, ?_⟩
  -- Merging keeps what lifting has settled, so the second run only merges again.
  intro rule passes once count
  have honce : once = rule.merge root.lifted := rfl
  have hagain : once.optimized rule passes = once := by
    have hlifted : once.lifted = once :=
      lifted_eq_self fun m hm => rule.stays_of_reaches_merge hstays hm
    calc once.optimized rule passes = rule.merge once.lifted := rfl
      _ = rule.merge (rule.merge root.lifted) := by rw [hlifted, honce]
      _ = once := rule.merge_merge _
  exact ⟨hagain, congrArg (DrawableChange.mk count) (congrArg drawableCount hagain)⟩

end Node

end DistantChunks
