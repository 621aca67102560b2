import DistantChunks.Scene.Node

/-!
# Merging drawables

Sibling drawables with the same state set become one drawable in the place of the first of them.
Drawables with callbacks or of dynamic variance are left out. Transparent ones are merged only if
that is asked for, and then from the farthest to the nearest when an eye point is known.
-/

namespace DistantChunks

structure MergeRule (α : Type) where
  eye : Option (Vec3 α)
  mergesTransparent : Bool

structure Member (α : Type) where
  attributes : Attributes
  mesh : Mesh α

namespace Member

variable {α : Type}

def ofNode? : Node α → Option (Member α)
  | .drawable a mesh =>
    if a.callbacks.isEmpty && a.variance != .dynamic then some ⟨a, mesh⟩ else none
  | _ => none

def companions (state : Option StateSet) (ns : List (Node α)) : List (Member α) :=
  ns.filterMap fun n => (ofNode? n).filter (·.attributes.state = state)

def isCompanion (state : Option StateSet) (n : Node α) : Bool :=
  (ofNode? n).any (·.attributes.state = state)

def others (state : Option StateSet) (ns : List (Node α)) : List (Node α) :=
  ns.filter fun n => !isCompanion state n

theorem length_others_le (state : Option StateSet) (ns : List (Node α)) :
    (others state ns).length ≤ ns.length := List.length_filter_le _ _

/-- How far the middle of a drawable is from the eye; zero if it has no vertices. -/
def distance [Scalar α] (eye : Vec3 α) (m : Member α) : α :=
  let bound := m.mesh.bound
  if bound.isValid then (bound.center - eye).length else 0

end Member

namespace MergeRule

variable {α : Type} [Scalar α]

def permits (rule : MergeRule α) (state : Option StateSet) : Bool :=
  match state with
  | some s => !s.transparent || rule.mergesTransparent
  | none => true

/-- The order in which members are appended: for transparent ones by falling distance from the
eye, equal distances in the given order. -/
def order (rule : MergeRule α) (members : List (Member α)) : List (Member α) :=
  match members, rule.eye with
  | m :: _, some eye =>
    if m.attributes.state.any (·.transparent) then
      members.mergeSort fun a b => Scalar.precedes (b.distance eye) (a.distance eye)
    else members
  | _, _ => members

/-- The one drawable for several members. It keeps the state set, mask and user data of the
first. -/
def join (rule : MergeRule α) (first : Member α) (rest : List (Member α)) : Node α :=
  .drawable { first.attributes with name := "", variance := .static }
    ((rule.order (first :: rest)).foldl (fun mesh m => mesh.append m.mesh) .empty)

def mergeSiblings (rule : MergeRule α) : List (Node α) → List (Node α)
  | [] => []
  | n :: rest =>
    match Member.ofNode? n with
    | none => n :: mergeSiblings rule rest
    | some first =>
      let state := first.attributes.state
      match Member.companions state rest with
      | [] => n :: mergeSiblings rule rest
      | c :: cs =>
        if rule.permits state then
          rule.join first (c :: cs) :: mergeSiblings rule (Member.others state rest)
        else n :: mergeSiblings rule rest
  termination_by ns => ns.length
  decreasing_by
    · exact Nat.lt_succ_self _
    · exact Nat.lt_succ_self _
    · exact Nat.lt_succ_of_le (Member.length_others_le _ _)
    · exact Nat.lt_succ_self _

mutual

/-- Merges at every depth that is reached through groups and transforms. -/
def merge (rule : MergeRule α) : Node α → Node α
  | .branch a b children =>
    .branch a b (if b.isPlacing then rule.mergeSiblings (mergeAll rule children) else children)
  | n => n

def mergeAll (rule : MergeRule α) : List (Node α) → List (Node α)
  | [] => []
  | n :: rest => merge rule n :: mergeAll rule rest

end

theorem mergeAll_eq (rule : MergeRule α) (ns : List (Node α)) :
    mergeAll rule ns = ns.map rule.merge := by
  induction ns with
  | nil => rfl
  | cons n ns ih => simp [mergeAll, ih]

end MergeRule

end DistantChunks
