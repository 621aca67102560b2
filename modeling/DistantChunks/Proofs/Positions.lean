import DistantChunks.Proofs.Drawing

/-!
# Positions in a tree

A position is the list of child numbers that leads to a node from the root, whether or not the
children on the way are shown. Sources of posed nodes have no position.
-/

namespace DistantChunks.Node

variable {α : Type}

def at? : Node α → List Nat → Option (Node α)
  | n, [] => some n
  | n, i :: p => n.children[i]?.bind fun c => c.at? p

/-- The nodes above a position, from the root down. -/
def above : Node α → List Nat → List (Node α)
  | _, [] => []
  | n, i :: p => n :: (n.children[i]?.map fun c => c.above p).getD []

@[simp] theorem above_nil (n : Node α) : n.above [] = [] := rfl

variable {n c x : Node α} {i : Nat} {p : List Nat}

theorem at?_cons_of_child (hc : n.children[i]? = some c) (p : List Nat) :
    n.at? (i :: p) = c.at? p := by
  rw [at?, hc, Option.bind_some]

theorem above_cons_of_child (hc : n.children[i]? = some c) (p : List Nat) :
    n.above (i :: p) = n :: c.above p := by
  rw [above, hc, Option.map_some, Option.getD_some]

theorem exists_child_of_at?_cons (h : n.at? (i :: p) = some x) :
    ∃ c, n.children[i]? = some c ∧ c.at? p = some x :=
  Option.bind_eq_some_iff.1 h

theorem eq_of_at?_of_children_eq_nil (hn : n.children = []) (h : n.at? p = some x) :
    p = [] ∧ n = x := by
  cases p with
  | nil => exact ⟨rfl, Option.some.inj h⟩
  | cons i p =>
    obtain ⟨c, hc, -⟩ := exists_child_of_at?_cons h
    rw [hn] at hc
    cases hc

/-- What holds at every position holds of the root and at every position of its children. -/
theorem forall_at?_iff {P : Node α → Prop} : (∀ p x, n.at? p = some x → P x) ↔
    P n ∧ ∀ c ∈ n.children, ∀ p x, c.at? p = some x → P x := by
  constructor
  · refine fun h => ⟨h [] n rfl, fun c hc p x hx => ?_⟩
    obtain ⟨i, hi⟩ := List.getElem?_of_mem hc
    exact h (i :: p) x ((at?_cons_of_child hi p).trans hx)
  · rintro ⟨hn, hchildren⟩ p x hx
    cases p with
    | nil => exact Option.some.inj hx ▸ hn
    | cons i p =>
      obtain ⟨c, hi, hx⟩ := exists_child_of_at?_cons hx
      exact hchildren c (List.mem_of_getElem? hi) p x hx

end DistantChunks.Node
