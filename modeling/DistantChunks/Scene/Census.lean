import DistantChunks.Scene.Node

/-!
# Census of drawables by state set

One walk over a tree in preorder counts the vertices and, for each state set, the drawables that
come after it. The state set in force is the last one met so far; leaving a subtree does not
restore an earlier one. The usage adds up the counts of all trees of one build, and the benefit of
merging a tree is the mean usage of the state sets it draws with.

Drawables are counted in natural numbers. These stand for counters of 32 bits, with which they agree
as long as fewer than `2 ^ 32` drawables of one build come under the same state set.
-/

namespace DistantChunks

/-- Counts by key, in the order in which the keys were first met. -/
structure Tally (κ : Type) where
  entries : List (κ × Nat)
  deriving Repr

namespace Tally

variable {κ : Type} [DecidableEq κ]

def empty : Tally κ := ⟨[]⟩

def count (t : Tally κ) (k : κ) : Nat :=
  match t.entries.find? (·.1 = k) with
  | some (_, n) => n
  | none => 0

def increment (k : κ) : List (κ × Nat) → List (κ × Nat)
  | [] => [(k, 1)]
  | (l, n) :: rest => if l = k then (l, n + 1) :: rest else (l, n) :: increment k rest

def add (t : Tally κ) (k : κ) : Tally κ := ⟨increment k t.entries⟩

theorem count_add (t : Tally κ) (k l : κ) :
    (t.add k).count l = t.count l + if k = l then 1 else 0 := by
  obtain ⟨entries⟩ := t
  simp only [add, count]
  induction entries with
  | nil => by_cases h : k = l <;> simp [increment, h]
  | cons e rest ih =>
    obtain ⟨j, n⟩ := e
    by_cases hk : j = k <;> by_cases hl : j = l <;> grind [increment]

def keys (t : Tally κ) : List κ := t.entries.map (·.1)

end Tally

abbrev StateTally := Tally (Option StateSet)

/-- The vertices of one tree, and its drawables by the state set in force. -/
structure Census where
  vertices : Nat
  counts : StateTally

namespace Census

def greatestCount : Nat := 0xffffffffffffffff

/-- A walk under way: the state set in force, the census of this tree and the usage of all. -/
structure Walk where
  current : Option StateSet
  census : Census
  usage : StateTally

namespace Walk

def start (usage : StateTally) : Walk := ⟨none, ⟨0, .empty⟩, usage⟩

def enter (w : Walk) (a : Attributes) : Walk :=
  match a.state with
  | some s => { w with current := some s }
  | none => w

def addDrawable (w : Walk) (vertices : Nat) : Walk :=
  { w with
    census := ⟨min (w.census.vertices + vertices) greatestCount, w.census.counts.add w.current⟩
    usage := w.usage.add w.current }

end Walk

variable {α : Type}

mutual

def visit (w : Walk) : Node α → Walk
  | .branch a _ children => visitAll (w.enter a) children
  | .drawable a mesh => (w.enter a).addDrawable mesh.vertexCount
  | .posed a _ source => (w.enter a).addDrawable ((source.mesh?.map Mesh.vertexCount).getD 0)
  | .particle a _ => w.enter a

def visitAll (w : Walk) : List (Node α) → Walk
  | [] => w
  | n :: rest => visitAll (visit w n) rest

end

def take (root : Node α) (usage : StateTally) : Census × StateTally :=
  let w := visit (.start usage) root
  (w.census, w.usage)

theorem visitAll_eq (w : Walk) (ns : List (Node α)) : visitAll w ns = ns.foldl visit w := by
  induction ns generalizing w with
  | nil => rfl
  | cons n ns ih => simp [visitAll, ih]

/-- The mean usage of the state sets of a tree; one for a tree that draws nothing. -/
def mergeBenefit (c : Census) (usage : StateTally) : Float32 :=
  match c.counts.keys with
  | [] => 1
  | keys =>
    let total := keys.foldl (fun sum k => sum + Single.ofNat (usage.count k)) 0
    total / Single.ofNat keys.length

/-- Merging pays when the weighted benefit exceeds the vertices times the size of the chunk. -/
def shouldMerge (c : Census) (usage : StateTally) (size factor : Float32) : Bool :=
  decide (Single.ofNat c.vertices * size < c.mergeBenefit usage * factor)

end Census

end DistantChunks
