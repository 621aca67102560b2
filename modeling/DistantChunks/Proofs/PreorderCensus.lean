import DistantChunks.Proofs.Drawing
import DistantChunks.Scene.Census
import Mathlib.Algebra.Ring.Nat
import Mathlib.Data.List.Induction
import Mathlib.Data.List.Nodup

/-!
# The census as a scan from left to right

A census walks over a tree, but what it counts can be read off the row of its nodes in preorder.
The state set in force becomes that of every node that has one, whether the node lies above or
beside what follows, and each drawable is attributed to the state set in force once its own has
been taken. So a state set reaches all later drawables up to the next state set.
-/

namespace DistantChunks

variable {α : Type}

namespace Node

mutual

/-- A node and every node below it, each before its children and the children in their order. The
source of a posed node is not below it. -/
def preorder : Node α → List (Node α)
  | .branch a b children => .branch a b children :: preorderAll children
  | .drawable a mesh => [.drawable a mesh]
  | .posed a posing source => [.posed a posing source]
  | .particle a role => [.particle a role]

def preorderAll : List (Node α) → List (Node α)
  | [] => []
  | n :: rest => n.preorder ++ preorderAll rest

end

theorem preorderAll_eq (ns : List (Node α)) : preorderAll ns = ns.flatMap preorder := by
  induction ns with
  | nil => rfl
  | cons n ns ih => rw [preorderAll, ih, List.flatMap_cons]

def vertexCount (n : Node α) : Nat := (n.mesh?.map Mesh.vertexCount).getD 0

def lastState (ns : List (Node α)) : Option StateSet := (ns.filterMap state).getLast?

theorem lastState_concat (ns : List (Node α)) (n : Node α) :
    lastState (ns ++ [n]) = n.state.or (lastState ns) := by
  rw [lastState, List.filterMap_append, List.getLast?_append, lastState]
  congr 1
  cases hn : n.state <;> simp [hn]

/-- The positions of the drawables of a row for which a state set is the last one at or before
them. -/
def attributed (ns : List (Node α)) (state : Option StateSet) : List Nat :=
  (List.range ns.length).filter fun i =>
    ns[i]?.any isDrawable && decide (lastState (ns.take (i + 1)) = state)

theorem attributed_concat (ns : List (Node α)) (n : Node α) (state : Option StateSet) :
    attributed (ns ++ [n]) state = attributed ns state ++
      if n.isDrawable && decide (n.state.or (lastState ns) = state) then [ns.length] else [] := by
  have hbefore : (List.range ns.length).filter (fun i => (ns ++ [n])[i]?.any isDrawable &&
      decide (lastState ((ns ++ [n]).take (i + 1)) = state)) = attributed ns state := by
    refine List.filter_congr fun i hi => ?_
    have hlt : i < ns.length := List.mem_range.1 hi
    rw [List.getElem?_append_left hlt, List.take_append_of_le_length (by omega)]
  have hall : (ns ++ [n]).take (ns.length + 1) = ns ++ [n] := List.take_of_length_le (by simp)
  rw [attributed, List.length_append, List.length_singleton, List.range_succ, List.filter_append,
    hbefore, List.filter_singleton, List.getElem?_concat_length, hall, lastState_concat,
    Option.any_some, Bool.cond_eq_ite]

end Node

namespace Tally

variable {κ : Type} [DecidableEq κ]

/-- The keys are listed once each, and they are those that have been counted. -/
structure IsCounting (t : Tally κ) : Prop where
  nodup : t.keys.Nodup
  mem_keys_iff : ∀ k, k ∈ t.keys ↔ t.count k ≠ 0

theorem isCounting_empty : (empty : Tally κ).IsCounting :=
  ⟨List.nodup_nil, fun _ => iff_of_false List.not_mem_nil fun h => h rfl⟩

theorem keys_add_of_mem {t : Tally κ} {k : κ} (h : k ∈ t.keys) : (t.add k).keys = t.keys := by
  obtain ⟨entries⟩ := t
  simp only [add, keys] at h ⊢
  induction entries with
  | nil => cases h
  | cons e rest ih =>
    obtain ⟨l, n⟩ := e
    by_cases hl : l = k
    · simp [increment, hl]
    · have hrest := ih ((List.mem_cons.1 h).resolve_left (Ne.symm hl))
      simp [increment, hl, hrest]

theorem keys_add_of_not_mem {t : Tally κ} {k : κ} (h : k ∉ t.keys) :
    (t.add k).keys = t.keys ++ [k] := by
  obtain ⟨entries⟩ := t
  simp only [add, keys] at h ⊢
  induction entries with
  | nil => rfl
  | cons e rest ih =>
    obtain ⟨l, n⟩ := e
    rw [List.map_cons, List.mem_cons, not_or] at h
    simp [increment, Ne.symm h.1, ih h.2]

theorem mem_keys_add {t : Tally κ} {k l : κ} : l ∈ (t.add k).keys ↔ l ∈ t.keys ∨ l = k := by
  by_cases hk : k ∈ t.keys
  · rw [keys_add_of_mem hk]
    exact ⟨.inl, fun hl => hl.elim id fun heq => heq ▸ hk⟩
  · rw [keys_add_of_not_mem hk, List.mem_append, List.mem_singleton]

theorem IsCounting.add {t : Tally κ} (h : t.IsCounting) (k : κ) : (t.add k).IsCounting := by
  refine ⟨?_, fun l => ?_⟩
  · by_cases hk : k ∈ t.keys
    · rw [keys_add_of_mem hk]
      exact h.nodup
    · rw [keys_add_of_not_mem hk, List.nodup_append]
      refine ⟨h.nodup, List.nodup_singleton k, fun l hl j hj heq => ?_⟩
      rw [heq, List.mem_singleton.1 hj] at hl
      exact hk hl
  · rw [mem_keys_add, h.mem_keys_iff, count_add]
    by_cases hkl : k = l
    · simp [hkl]
    · simp [hkl, Ne.symm hkl]

end Tally

namespace Census

open Node

/-- What is known after some nodes of a row have been read: the state set in force, the vertices,
and how many drawables are attributed to each state set, in this row and with those before it. -/
structure Reading where
  current : Option StateSet
  vertices : Nat
  counts : Option StateSet → Nat
  usage : Option StateSet → Nat

namespace Reading

def start (usage : Option StateSet → Nat) : Reading := ⟨none, 0, fun _ => 0, usage⟩

def read (x : Reading) (n : Node α) : Reading :=
  let current := n.state.or x.current
  if n.isDrawable then
    { current
      vertices := min (x.vertices + n.vertexCount) greatestCount
      counts := Function.update x.counts current (x.counts current + 1)
      usage := Function.update x.usage current (x.usage current + 1) }
  else { x with current }

theorem foldl_read_start (usage : Option StateSet → Nat) (ns : List (Node α)) :
    ns.foldl read (.start usage) =
      { current := lastState ns
        vertices := min ((ns.filter isDrawable).map vertexCount).sum greatestCount
        counts := fun k => (attributed ns k).length
        usage := fun k => usage k + (attributed ns k).length } := by
  induction ns using List.reverseRecOn with
  | nil => rfl
  | append_singleton ns n ih =>
    rw [List.foldl_concat, ih, read]
    simp only [attributed_concat, lastState_concat, List.filter_append, List.map_append,
      List.sum_append]
    cases hn : n.isDrawable with
    | false => simp [hn]
    | true =>
      simp only [if_true, List.filter_singleton, hn, cond_true, Bool.true_and, decide_eq_true_eq,
        List.map_singleton, List.sum_singleton, Reading.mk.injEq, true_and]
      refine ⟨by omega, ?_, ?_⟩
      · funext k
        by_cases hk : n.state.or (lastState ns) = k
        · subst hk; simp
        · simp [hk, Function.update_of_ne (Ne.symm hk)]
      · funext k
        by_cases hk : n.state.or (lastState ns) = k
        · subst hk; simp [Nat.add_assoc]
        · simp [hk, Function.update_of_ne (Ne.symm hk)]

end Reading

namespace Walk

/-- What a walk does at a node, before it goes on to the children. -/
def pass (w : Walk) (n : Node α) : Walk :=
  if n.isDrawable then (w.enter n.attributes).addDrawable n.vertexCount else w.enter n.attributes

theorem current_enter (w : Walk) (a : Attributes) : (w.enter a).current = a.state.or w.current := by
  unfold enter
  cases a.state <;> rfl

theorem census_enter (w : Walk) (a : Attributes) : (w.enter a).census = w.census := by
  unfold enter
  cases a.state <;> rfl

theorem usage_enter (w : Walk) (a : Attributes) : (w.enter a).usage = w.usage := by
  unfold enter
  cases a.state <;> rfl

structure Agrees (w : Walk) (x : Reading) : Prop where
  current : w.current = x.current
  vertices : w.census.vertices = x.vertices
  counts : w.census.counts.count = x.counts
  usage : w.usage.count = x.usage
  isCounting : w.census.counts.IsCounting

theorem Agrees.start (usage : StateTally) : (Walk.start usage).Agrees (.start usage.count) :=
  ⟨rfl, rfl, rfl, rfl, Tally.isCounting_empty⟩

theorem count_add_eq_update (t : StateTally) (k : Option StateSet) :
    (t.add k).count = Function.update t.count k (t.count k + 1) := by
  funext l
  rw [Tally.count_add]
  by_cases h : k = l
  · subst h; simp
  · simp [h, Function.update_of_ne (Ne.symm h)]

theorem Agrees.pass {w : Walk} {x : Reading} (h : w.Agrees x) (n : Node α) :
    (w.pass n).Agrees (x.read n) := by
  have hcurrent : (w.enter n.attributes).current = n.state.or x.current := by
    rw [current_enter, h.current]
    rfl
  unfold Walk.pass Reading.read
  split
  · simp only [addDrawable, hcurrent, census_enter, usage_enter]
    refine ⟨rfl, by rw [h.vertices], ?_, ?_, h.isCounting.add _⟩
    · rw [count_add_eq_update, h.counts]
    · rw [count_add_eq_update, h.usage]
  · exact ⟨hcurrent, by rw [census_enter, h.vertices], by rw [census_enter, h.counts],
      by rw [usage_enter, h.usage], by rw [census_enter]; exact h.isCounting⟩

theorem Agrees.foldl {w : Walk} {x : Reading} (h : w.Agrees x) (ns : List (Node α)) :
    (ns.foldl Walk.pass w).Agrees (ns.foldl Reading.read x) := by
  induction ns generalizing w x with
  | nil => exact h
  | cons n ns ih => exact ih (h.pass n)

end Walk

/-- A walk over a tree passes its nodes in preorder. -/
theorem visit_eq_foldl (n : Node α) (w : Walk) : visit w n = n.preorder.foldl Walk.pass w := by
  induction n generalizing w with
  | branch a b children ih =>
    have hall (w : Walk) : visitAll w children = (preorderAll children).foldl Walk.pass w := by
      rw [visitAll_eq, preorderAll_eq, List.foldl_flatMap]
      exact List.foldl_ext _ _ _ fun v c hc => ih c hc v
    rw [visit, hall, preorder, List.foldl_cons]
    rfl
  | drawable | posed | particle => rfl

/-- A census is the reading of the nodes in preorder, in which each drawable is attributed to the
last state set at or before it. -/
theorem take_reads_preorder (root : Node α) (usage : StateTally) :
    let (census, after) := take root usage
    let x := root.preorder.foldl Reading.read (.start usage.count)
    (census.vertices = x.vertices ∧ census.counts.count = x.counts ∧ after.count = x.usage) ∧
      (census.counts.keys.Nodup ∧ ∀ k, k ∈ census.counts.keys ↔ x.counts k ≠ 0) ∧
      ∀ k, x.counts k = (attributed root.preorder k).length := by
  have hagrees : (visit (.start usage) root).Agrees
      (root.preorder.foldl Reading.read (.start usage.count)) := by
    rw [visit_eq_foldl]
    exact (Walk.Agrees.start usage).foldl _
  refine ⟨⟨hagrees.vertices, hagrees.counts, hagrees.usage⟩, ⟨hagrees.isCounting.nodup, ?_⟩, ?_⟩
  · intro k
    rw [← hagrees.counts]
    exact hagrees.isCounting.mem_keys_iff k
  · intro k
    rw [Reading.foldl_read_start]

end Census

end DistantChunks
