import DistantChunks.Paging.Pager
import Mathlib.Data.List.Induction

/-!
# Histories of a pager

The history of a run lists the chunks that were built and the keys that were removed from the
cache, in order. A request has built a chunk if it has moved the count of builds; an update or a
clearing has removed the keys that were in the cache before and are not there after. The cache
itself plays no other part in a history. What is remembered of a key is its last build, if the key
has not been removed since.
-/

namespace DistantChunks

namespace Pager

/-- A build that succeeded, with its view and what was disabled at that moment. -/
structure Build where
  view : ChunkView
  disabled : DisabledSet
  chunk : Shared Chunk

def Build.key (b : Build) : ChunkKey := b.view.id.key

inductive Event where
  | built (b : Build)
  | removed (key : ChunkKey)

namespace Event

def key : Event → ChunkKey
  | built b => b.key
  | removed k => k

def build? : Event → Option Build
  | built b => some b
  | removed _ => none

end Event

section Remembering

variable (key : ChunkKey)

/-- The last event of a key decides what is known of it. -/
def remember (known : Option Build) (e : Event) : Option Build :=
  if e.key = key then e.build? else known

/-- The last build of a key, if the key has not been removed since. -/
def remembered (es : List Event) : Option Build := es.foldl (remember key) none

@[simp] theorem remembered_nil : remembered key [] = none := rfl

theorem remembered_concat (es : List Event) (e : Event) :
    remembered key (es ++ [e]) = if e.key = key then e.build? else remembered key es := by
  simp [remembered, remember, List.foldl_append]

theorem remembered_append_removed (es : List Event) (keys : List ChunkKey) :
    remembered key (es ++ keys.map .removed) =
      if key ∈ keys then none else remembered key es := by
  induction keys using List.reverseRecOn with
  | nil => simp
  | append_singleton keys k ih =>
    rw [List.map_append, ← List.append_assoc, List.map_singleton, remembered_concat, ih]
    by_cases hk : k = key
    · simp [Event.key, Event.build?, hk]
    · simp [Event.key, hk, Ne.symm hk]

variable {key}

theorem mem_of_remembered {es : List Event} {b : Build} (h : remembered key es = some b) :
    .built b ∈ es ∧ b.key = key := by
  induction es using List.reverseRecOn with
  | nil => cases h
  | append_singleton es e ih =>
    rw [remembered_concat] at h
    by_cases he : e.key = key
    · rw [if_pos he] at h
      cases e with
      | built c =>
        cases h
        exact ⟨by simp, he⟩
      | removed k => cases h
    · rw [if_neg he] at h
      exact ⟨List.mem_append_left _ (ih h).1, (ih h).2⟩

theorem removed_mem_of_remembered_eq_none {xs ys : List Event} {b : Build}
    (h : remembered b.key (xs ++ .built b :: ys) = none) : .removed b.key ∈ ys := by
  induction ys using List.reverseRecOn with
  | nil => simp [remembered_concat, Event.key, Event.build?] at h
  | append_singleton ys e ih =>
    rw [← List.cons_append, ← List.append_assoc, remembered_concat] at h
    by_cases he : e.key = b.key
    · rw [if_pos he] at h
      cases e with
      | built c => cases h
      | removed k =>
        have hk : k = b.key := he
        simp [hk]
    · rw [if_neg he] at h
      exact List.mem_append_left _ (ih h)

end Remembering

/-- No key is built as long as it is remembered. -/
def BuildsOnce (es : List Event) : Prop :=
  ∀ xs b zs, es = xs ++ .built b :: zs → remembered b.key xs = none

theorem buildsOnce_nil : BuildsOnce [] := by
  intro xs b zs h
  simp at h

theorem BuildsOnce.concat {es : List Event} (h : BuildsOnce es) {e : Event}
    (he : ∀ b, e = .built b → remembered b.key es = none) : BuildsOnce (es ++ [e]) := by
  intro xs b zs heq
  cases zs using List.reverseRecOn with
  | nil =>
    obtain ⟨rfl, hb⟩ := List.append_inj' heq rfl
    exact he b (List.singleton_inj.1 hb)
  | append_singleton front last =>
    rw [← List.cons_append, ← List.append_assoc] at heq
    exact h xs b front (List.append_inj' heq rfl).1

theorem BuildsOnce.append_removed {es : List Event} (h : BuildsOnce es) (keys : List ChunkKey) :
    BuildsOnce (es ++ keys.map .removed) := by
  induction keys using List.reverseRecOn with
  | nil => simpa using h
  | append_singleton keys k ih =>
    rw [List.map_append, ← List.append_assoc]
    exact ih.concat (by simp)

variable (p : Pager)

/-- The build of a request, if it has moved the count of builds. -/
def getEvents (r : Request) : List Event :=
  match p.get r with
  | (.ok (some chunk), q) =>
    if q.builds = p.builds then [] else [.built ⟨r.view, p.disabled, chunk⟩]
  | _ => []

def prefetchEvents (p : Pager) : List Request → List Event
  | [] => []
  | r :: rest => match p.get r with
    | (.error _, _) => p.getEvents r
    | (.ok _, q) => p.getEvents r ++ q.prefetchEvents rest

/-- The keys that are in the cache of the first pager and not in that of the second. -/
def removals (q : Pager) : List Event :=
  (p.cache.entries.keys.filter fun key => !q.cache.entries.contains key).map .removed

inductive Operation where
  | get (r : Request)
  | prefetch (rs : List Request)
  | create (v : ChunkView)
  | enable (n : RefNum) (enabled : Bool)
  | enableAll
  | setExpiryDelay (seconds : Float)
  | update (now : Float) (held : Nat → Bool)
  | clearCache
  | prune (held : List Chunk)
  | takeUploads (max : Nat)

def Operation.disabling (disabled : DisabledSet) : Operation → DisabledSet
  | .enable n enabled => (disabled.enable n enabled).2
  | .enableAll => .empty
  | _ => disabled

def apply : Operation → Pager
  | .get r => (p.get r).2
  | .prefetch rs => (p.prefetch rs).2
  | .create v => (p.create v).2
  | .enable n enabled => p.enable n enabled
  | .enableAll => p.enableAll
  | .setExpiryDelay seconds => p.setExpiryDelay seconds
  | .update now held => (p.update now held).2
  | .clearCache => p.clearCache
  | .prune held => (p.prune held).2
  | .takeUploads max => (p.takeUploads max).2

def run (ops : List Operation) : Pager := ops.foldl apply p

/-- The pager when the loader has come to answer otherwise. -/
def reload (loader : String → Except Failure (Node Float32)) : Pager :=
  { p with resources := { p.resources with loader := loader } }

def events : Operation → List Event
  | .get r => p.getEvents r
  | .prefetch rs => p.prefetchEvents rs
  | .update now held => p.removals (p.update now held).2
  | .clearCache => p.removals p.clearCache
  | _ => []

def history (p : Pager) : List Operation → List Event
  | [] => []
  | op :: ops => p.events op ++ (p.apply op).history ops

end Pager

end DistantChunks
