import DistantChunks.Scene.Node

/-!
# Lifting out of redundant groups

Groups and transforms without children are dropped. A group that holds only drawables hands its
state set to those that have none, and a group that says nothing about its children is replaced by
them. Switches and levels of detail are left alone with everything below them.
-/

namespace DistantChunks

variable {α : Type}

/-- Whether a group with these attributes says nothing about its children. -/
def Attributes.isPlain (a : Attributes) : Bool :=
  a.state.isNone && a.callbacks.isEmpty && a.userData.isNone && a.variance != .dynamic

namespace Node

def withStateIfNone (s : StateSet) (n : Node α) : Node α :=
  if n.state.isNone then n.withState s else n

/-- A group whose children are all drawables hands down its state set. -/
def handDown (a : Attributes) (children : List (Node α)) : Attributes × List (Node α) :=
  match a.state with
  | none => (a, children)
  | some s =>
    if !children.isEmpty && children.all isDrawable then
      ({ a with state := none }, children.map (withStateIfNone s))
    else (a, children)

def settledGroup (a : Attributes) (children : List (Node α)) : List (Node α) :=
  let (a, children) := handDown a children
  if children.isEmpty then []
  else if a.isPlain then children
  else [.branch a .group children]

mutual

def lift : Node α → List (Node α)
  | .branch a .group children => settledGroup a (liftAll children)
  | .branch a (.transform m) children =>
    match liftAll children with
    | [] => []
    | c :: cs => [.branch a (.transform m) (c :: cs)]
  | n => [n]

def liftAll : List (Node α) → List (Node α)
  | [] => []
  | n :: rest => lift n ++ liftAll rest

end

def lifted : Node α → Node α
  | .branch a b children => .branch a b (if b.isPlacing then liftAll children else children)
  | n => n

theorem liftAll_eq (ns : List (Node α)) : liftAll ns = ns.flatMap lift := by
  induction ns with
  | nil => rfl
  | cons n ns ih => simp [liftAll, ih]

end Node

end DistantChunks
