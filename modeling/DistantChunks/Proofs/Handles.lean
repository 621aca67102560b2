import DistantChunks.Proofs.History
import Mathlib.Data.List.Basic

/-!
# What is held outside of a pager

Chunks and templates are shared: those that are handed out live on until the last handle to them is
dropped. A session is a pager with the handles to what it has handed out. They decide which chunks
an update of the cache finds in use, and, with the chunks in the cache, which templates the
template cache may drop.
-/

namespace DistantChunks

/-- A chunk from the cache, a chunk that was built beside it, or a template. -/
inductive Handle where
  | cached (chunk : Shared Chunk)
  | created (chunk : Chunk)
  | template (t : Shared Template)

namespace Handle

def chunk? : Handle → Option Chunk
  | cached chunk => some chunk.value
  | created chunk => some chunk
  | template _ => none

def templates : Handle → List (Shared Template)
  | cached chunk => chunk.value.templates
  | created chunk => chunk.templates
  | template t => [t]

theorem templates_of_chunk? {h : Handle} {c : Chunk} (hc : h.chunk? = some c) :
    h.templates = c.templates := by
  cases h <;> cases hc <;> rfl

def isCached (serial : Nat) : Handle → Bool
  | cached chunk => chunk.serial == serial
  | _ => false

end Handle

structure Session where
  pager : Pager
  handles : List Handle

namespace Session

variable (s : Session)

/-- The chunks that are cached or held. -/
def chunks : List Chunk :=
  s.pager.cache.chunks.map (·.value) ++ s.handles.filterMap Handle.chunk?

/-- The templates that something outside of the template cache holds. -/
def templates : List (Shared Template) :=
  s.pager.cache.chunks.flatMap (·.value.templates) ++ s.handles.flatMap (·.templates)

def holdsChunk (serial : Nat) : Bool := s.handles.any (·.isCached serial)

def holdsTemplate (serial : Nat) : Bool := s.templates.any (·.serial == serial)

def prune : Nat × Session :=
  let (dropped, resources) := s.pager.resources.prune s.holdsTemplate
  (dropped, { s with pager := { s.pager with resources := resources } })

/-- Where only chunks are held, the templates are pruned as by the pager. -/
theorem prune_eq (hheld : ∀ h ∈ s.handles, h.chunk?.isSome = true) :
    (s.prune.1, s.prune.2.pager) = s.pager.prune (s.handles.filterMap Handle.chunk?) := by
  have htemplates : s.handles.flatMap (·.templates) =
      (s.handles.filterMap Handle.chunk?).flatMap (·.templates) := by
    rw [List.filterMap_eq_flatMap_toList, List.flatMap_assoc]
    refine List.flatMap_congr fun h hh => ?_
    obtain ⟨c, hc⟩ := Option.isSome_iff_exists.1 (hheld h hh)
    simp [hc, Handle.templates_of_chunk? hc]
  have hholds : s.holdsTemplate = fun serial =>
      s.chunks.any fun c => c.templates.any (·.serial == serial) := by
    funext serial
    simp only [holdsTemplate, templates, htemplates, chunks, List.any_append, List.any_flatMap,
      List.any_map, Function.comp_def]
  simp only [prune, hholds]
  rfl

inductive Operation where
  | get (r : Request)
  | create (v : ChunkView)
  | getTemplate (path : String) (compile : Bool)
  | drop (i : Nat)
  | update (now : Float)
  | clearCache
  | prune
  | reload (loader : String → Except Failure (Node Float32))
  | enable (n : RefNum) (enabled : Bool)
  | enableAll
  | setExpiryDelay (seconds : Float)

/-- Whatever is handed out is held until its handle is dropped. -/
def apply : Operation → Session
  | .get r => match s.pager.get r with
    | (.ok (some chunk), p) => ⟨p, .cached chunk :: s.handles⟩
    | (_, p) => ⟨p, s.handles⟩
  | .create v => match s.pager.create v with
    | (.ok chunk, p) => ⟨p, .created chunk :: s.handles⟩
    | (.error _, p) => ⟨p, s.handles⟩
  | .getTemplate path compile => match s.pager.resources.get path compile with
    | (.ok t, resources) => ⟨{ s.pager with resources := resources }, .template t :: s.handles⟩
    | (.error _, resources) => ⟨{ s.pager with resources := resources }, s.handles⟩
  | .drop i => { s with handles := s.handles.eraseIdx i }
  | .update now => { s with pager := (s.pager.update now s.holdsChunk).2 }
  | .clearCache => { s with pager := s.pager.clearCache }
  | .prune => s.prune.2
  | .reload loader => { s with pager := s.pager.reload loader }
  | .enable n enabled => { s with pager := s.pager.enable n enabled }
  | .enableAll => { s with pager := s.pager.enableAll }
  | .setExpiryDelay seconds => { s with pager := s.pager.setExpiryDelay seconds }

def run (ops : List Operation) : Session := ops.foldl apply s

end Session

end DistantChunks
