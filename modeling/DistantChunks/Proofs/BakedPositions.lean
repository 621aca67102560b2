import DistantChunks.Proofs.Positions
import DistantChunks.Scene.Baking
import Mathlib.Data.List.DropRight

/-!
# What baking makes of each node

The matrix accumulated above a position is the product of the static transforms between the last
transform above it that may still change, or the root, and the position. `BakesTo` says what a node
becomes below an accumulated matrix, apart from its children. Baking keeps every position and does
this to each node below the root; the positions that it adds are those of the leaves that it wraps.
-/

namespace DistantChunks.Node

variable {α : Type}

def isMoving : Node α → Bool
  | .branch a (.transform _) _ => a.variance != .static
  | _ => false

def staticMatrix? : Node α → Option (Matrix α)
  | .branch a (.transform m) _ => if a.variance = .static then some m else none
  | _ => none

def drawsElsewhere : Node α → Bool
  | .posed _ _ _ | .particle _ _ => true
  | _ => false

def withChildren (cs : List (Node α)) : Node α → Node α
  | .branch a b _ => .branch a b cs
  | n => n

variable [Scalar α]

/-- The product, from left to right, of the static matrices after the last transform that may still
change. -/
def product (ns : List (Node α)) : Matrix α :=
  ((ns.rtakeWhile (!·.isMoving)).filterMap staticMatrix?).foldl (· * ·) .identity

/-- The matrix that is accumulated between the root, which does not count, and a position. -/
def accumulated (root : Node α) (p : List Nat) : Matrix α := product (root.above p).tail

/-- What becomes of a node below an accumulated matrix. -/
inductive BakesTo (acc : Matrix α) : Node α → Node α → Prop
  | dissolved {a : Attributes} {m : Matrix α} {cs ds : List (Node α)} : a.variance = .static →
    ds.length = cs.length → BakesTo acc (.branch a (.transform m) cs) (.branch a .group ds)
  | shifted {a : Attributes} {m : Matrix α} {cs ds : List (Node α)} : a.variance ≠ .static →
    ds.length = cs.length →
    BakesTo acc (.branch a (.transform m) cs) (.branch a (.transform (acc * m)) ds)
  | kept {a : Attributes} {b : Branching α} {cs ds : List (Node α)} : (∀ m, b ≠ .transform m) →
    ds.length = cs.length → BakesTo acc (.branch a b cs) (.branch a b ds)
  | untouched {a : Attributes} {mesh : Mesh α} : acc.isIdentity = true →
    BakesTo acc (.drawable a mesh) (.drawable a mesh)
  | moved {a : Attributes} {mesh : Mesh α} : acc.isIdentity = false →
    BakesTo acc (.drawable a mesh) (.drawable a ⟨mesh.vertices.map acc.movePoint, mesh.indices⟩)
  | unwrapped {n : Node α} : n.drawsElsewhere = true → acc.isIdentity = true → BakesTo acc n n
  | wrapped {n : Node α} : n.drawsElsewhere = true → acc.isIdentity = false →
    BakesTo acc n (.branch .fresh (.transform acc) [n])

end DistantChunks.Node

namespace DistantChunks.Branching

variable {α : Type} [Scalar α]

def baked (a : Attributes) (acc : Matrix α) : Branching α → Branching α
  | .transform m => if a.variance = .static then .group else .transform (acc * m)
  | b => b

def accumulated (a : Attributes) (acc : Matrix α) : Branching α → Matrix α
  | .transform m => if a.variance = .static then acc * m else .identity
  | _ => acc

end DistantChunks.Branching

namespace DistantChunks.Node

variable {α : Type} [Scalar α]

theorem product_concat (ns : List (Node α)) (a : Attributes) (b : Branching α)
    (children : List (Node α)) :
    product (ns ++ [.branch a b children]) = b.accumulated a (product ns) := by
  unfold product
  cases hmoving : isMoving (.branch a b children) with
  | true =>
    rw [List.rtakeWhile_concat_neg _ _ _ (by simp [hmoving])]
    cases b with
    | transform m =>
      have ha : a.variance ≠ .static := by simpa [isMoving] using hmoving
      exact (if_neg ha).symm
    | group | switch | detail => cases hmoving
  | false =>
    rw [List.rtakeWhile_concat_pos _ _ _ (by simp [hmoving]), List.filterMap_append,
      List.foldl_append]
    cases b with
    | transform m =>
      have ha : a.variance = .static := by simpa [isMoving] using hmoving
      simp [staticMatrix?, Branching.accumulated, ha]
    | group | switch | detail => rfl

theorem bake_branch (acc : Matrix α) (a : Attributes) (b : Branching α)
    (children : List (Node α)) : bake acc (.branch a b children) =
      .branch a (b.baked a acc) (children.map (bake (b.accumulated a acc))) := by
  cases b with
  | transform m =>
    rw [bake, Branching.baked, Branching.accumulated, bakeAll_eq, bakeAll_eq]
    split <;> rfl
  | group | switch | detail => exact congrArg _ (bakeAll_eq acc children)

theorem bakesTo_wrapped {acc : Matrix α} {n : Node α} (hn : n.drawsElsewhere = true) :
    BakesTo acc n (n.wrapped acc) := by
  unfold Node.wrapped
  split
  · exact .unwrapped hn ‹_›
  · exact .wrapped hn (eq_false_of_ne_true ‹_›)

theorem bakesTo_bake (acc : Matrix α) (n : Node α) : BakesTo acc n (bake acc n) := by
  cases n with
  | branch a b children =>
    have hlength (y : Matrix α) : (children.map (bake y)).length = children.length :=
      List.length_map _
    rw [bake_branch]
    cases b with
    | transform m =>
      by_cases ha : a.variance = .static
      · rw [Branching.baked, if_pos ha]
        exact .dissolved ha (hlength _)
      · rw [Branching.baked, if_neg ha]
        exact .shifted ha (hlength _)
    | group | switch | detail => exact .kept (by simp) (hlength _)
  | drawable a mesh =>
    rw [bake]
    split
    · exact .untouched ‹_›
    · exact .moved (eq_false_of_ne_true ‹_›)
  | posed | particle => exact bakesTo_wrapped rfl

variable {n x y : Node α} {p : List Nat}

/-- Every position is kept. The matrix at it is accumulated from the nodes `ns` above the tree and
those of the tree above the position. -/
theorem exists_bakesTo (ns : List (Node α)) (h : n.at? p = some x) :
    ∃ y, (bake (product ns) n).at? p = some y ∧ BakesTo (product (ns ++ n.above p)) x y := by
  induction p generalizing n ns with
  | nil =>
    cases h
    rw [above_nil, List.append_nil]
    exact ⟨_, rfl, bakesTo_bake _ _⟩
  | cons i p ih =>
    obtain ⟨c, hc, hx⟩ := exists_child_of_at?_cons h
    cases n with
    | branch a b children =>
      -- The child is baked below the nodes `ns` and this one.
      obtain ⟨y, hy, hbakes⟩ := ih (ns ++ [.branch a b children]) hx
      rw [product_concat] at hy
      have hchild : (bake (product ns) (.branch a b children)).children[i]? =
          some (bake (b.accumulated a (product ns)) c) := by
        rw [bake_branch]
        exact List.getElem?_map.trans (congrArg (Option.map _) hc)
      rw [above_cons_of_child hc, List.append_cons]
      exact ⟨y, (at?_cons_of_child hchild p).trans hy, hbakes⟩
    | drawable | posed | particle => cases hc

theorem of_at?_wrapped {acc : Matrix α} {i : Nat} (hn : n.drawsElsewhere = true)
    (h : (n.wrapped acc).at? (i :: p) = some y) :
    i = 0 ∧ p = [] ∧ n = y ∧ acc.isIdentity = false := by
  have hleaf : n.children = [] := by
    cases n with
    | branch | drawable => cases hn
    | posed | particle => rfl
  unfold Node.wrapped at h
  split at h
  · obtain ⟨hp, -⟩ := eq_of_at?_of_children_eq_nil hleaf h
    cases hp
  · obtain ⟨c, hc, hy⟩ := exists_child_of_at?_cons h
    cases i with
    | zero =>
      obtain rfl : n = c := Option.some.inj hc
      obtain ⟨rfl, rfl⟩ := eq_of_at?_of_children_eq_nil hleaf hy
      exact ⟨rfl, rfl, rfl, eq_false_of_ne_true ‹_›⟩
    | succ i => cases hc

theorem origin_of_at?_bake (ns : List (Node α)) (h : (bake (product ns) n).at? p = some y) :
    (∃ x, n.at? p = some x) ∨ ∃ q, p = q ++ [0] ∧ n.at? q = some y ∧
      y.drawsElsewhere = true ∧ (product (ns ++ n.above q)).isIdentity = false := by
  induction p generalizing n ns with
  | nil => exact .inl ⟨n, rfl⟩
  | cons i p ih =>
    obtain ⟨c, hc, hy⟩ := exists_child_of_at?_cons h
    cases n with
    | branch a b children =>
      rw [bake_branch, Node.children, List.getElem?_map, Option.map_eq_some_iff] at hc
      obtain ⟨d, hd, rfl⟩ := hc
      have hd' : (branch a b children).children[i]? = some d := hd
      rw [← product_concat ns a b children] at hy
      rcases ih _ hy with ⟨x, hx⟩ | ⟨q, rfl, hq, hleaf, hacc⟩
      · exact .inl ⟨x, (at?_cons_of_child hd' p).trans hx⟩
      · refine .inr ⟨i :: q, rfl, (at?_cons_of_child hd' q).trans hq, hleaf, ?_⟩
        rwa [above_cons_of_child hd', List.append_cons]
    | drawable a mesh => cases hc
    | posed | particle =>
      obtain ⟨rfl, rfl, rfl, hacc⟩ := of_at?_wrapped rfl h
      exact .inr ⟨[], rfl, rfl, rfl, by rwa [above_nil, List.append_nil]⟩

/-- A tree that has been baked, beside the tree that it was. -/
structure IsBakedFrom (root flat : Node α) : Prop where
  root_eq : ∃ cs, cs.length = root.children.length ∧ flat = root.withChildren cs
  bakes : ∀ p x, p ≠ [] → root.at? p = some x →
    ∃ y, flat.at? p = some y ∧ BakesTo (root.accumulated p) x y
  origin : ∀ p y, p ≠ [] → flat.at? p = some y → (∃ x, root.at? p = some x) ∨
    ∃ q, q ≠ [] ∧ p = q ++ [0] ∧ root.at? q = some y ∧ y.drawsElsewhere = true ∧
      (root.accumulated q).isIdentity = false
  changing : ∀ p a m cs, p ≠ [] → flat.at? p = some (.branch a (.transform m) cs) →
    a.variance ≠ .static

theorem BakesTo.variance_ne {acc m : Matrix α} {a : Attributes} {cs : List (Node α)}
    (h : BakesTo acc x (.branch a (.transform m) cs)) : a.variance ≠ .static := by
  cases h with
  | shifted ha => exact ha
  | kept hb => exact absurd rfl (hb m)
  | unwrapped hleaf => cases hleaf
  | wrapped => simp [Attributes.fresh]

theorem children_baked (root : Node α) :
    root.baked.children = root.children.map (bake .identity) := by
  cases root with
  | branch a b children => exact bakeAll_eq .identity children
  | drawable | posed | particle => rfl

theorem getElem?_children_baked {c : Node α} {i : Nat} (hc : n.children[i]? = some c) :
    n.baked.children[i]? = some (bake .identity c) := by
  rw [children_baked, List.getElem?_map, hc]
  rfl

theorem exists_bakesTo_baked (hp : p ≠ []) (h : n.at? p = some x) :
    ∃ y, n.baked.at? p = some y ∧ BakesTo (n.accumulated p) x y := by
  obtain ⟨i, q, rfl⟩ := List.exists_cons_of_ne_nil hp
  obtain ⟨c, hc, hx⟩ := exists_child_of_at?_cons h
  rw [at?_cons_of_child (getElem?_children_baked hc), accumulated, above_cons_of_child hc]
  exact exists_bakesTo [] hx

theorem origin_of_at?_baked (hp : p ≠ []) (h : n.baked.at? p = some y) :
    (∃ x, n.at? p = some x) ∨ ∃ q, q ≠ [] ∧ p = q ++ [0] ∧ n.at? q = some y ∧
      y.drawsElsewhere = true ∧ (n.accumulated q).isIdentity = false := by
  obtain ⟨i, q, rfl⟩ := List.exists_cons_of_ne_nil hp
  obtain ⟨d, hd, hy⟩ := exists_child_of_at?_cons h
  rw [children_baked, List.getElem?_map, Option.map_eq_some_iff] at hd
  obtain ⟨c, hc, rfl⟩ := hd
  rcases origin_of_at?_bake [] hy with ⟨x, hx⟩ | ⟨r, rfl, hr, hleaf, hacc⟩
  · exact .inl ⟨x, (at?_cons_of_child hc q).trans hx⟩
  · refine .inr ⟨i :: r, by simp, rfl, (at?_cons_of_child hc r).trans hr, hleaf, ?_⟩
    rwa [accumulated, above_cons_of_child hc]

/-- No transform below the root is static after baking. What is found at a position is either made
of a node there, or a leaf. -/
theorem variance_ne_of_at?_baked {a : Attributes} {m : Matrix α} {cs : List (Node α)} (hp : p ≠ [])
    (h : n.baked.at? p = some (.branch a (.transform m) cs)) : a.variance ≠ .static := by
  rcases origin_of_at?_baked hp h with ⟨x, hx⟩ | ⟨q, -, -, -, hleaf, -⟩
  · obtain ⟨y, hy, hbakes⟩ := exists_bakesTo_baked hp hx
    obtain rfl := Option.some.inj (h.symm.trans hy)
    exact hbakes.variance_ne
  · cases hleaf

/-- Baking bakes exactly the static transforms below the root. -/
theorem isBakedFrom_baked (root : Node α) : root.IsBakedFrom root.baked where
  root_eq := ⟨root.baked.children, by rw [children_baked, List.length_map], by cases root <;> rfl⟩
  bakes _ _ hp h := exists_bakesTo_baked hp h
  origin _ _ hp h := origin_of_at?_baked hp h
  changing _ _ _ _ hp h := variance_ne_of_at?_baked hp h

end DistantChunks.Node
