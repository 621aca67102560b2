import DistantChunks.Chunk.Scan
import DistantChunks.Paging.Config
import DistantChunks.Scene.Census
import DistantChunks.Template.Cache

/-!
# Grouping references by template

References are taken in the order of their numbers. Those outside a chunk smaller than a cell,
markers, and those without a model ask for no template; those that look too small are dropped once
their template is known. The rest is listed by template, in the order in which templates first
occur, and a template is counted in the census when its list starts.
-/

namespace DistantChunks

/-- Ids of references that mark places and are never drawn. -/
def markerIds : List String := ["prisonmarker", "divinemarker", "templemarker", "northmarker"]

structure InstanceList where
  path : String
  template : Shared Template
  census : Census
  instances : List Reference

structure Collection where
  lists : List InstanceList
  usage : StateTally

namespace Collection

def empty : Collection := ⟨[], .empty⟩

def instanceCount (c : Collection) : Nat := c.lists.foldl (fun n l => n + l.instances.length) 0

/-- Puts a reference into the list of a path, which is started with the template if it is new. -/
def add (c : Collection) (path : String) (template : Shared Template) (r : Reference) :
    Collection :=
  if c.lists.any (·.path == path) then
    { c with lists := c.lists.map fun l =>
        if l.path == path then { l with instances := l.instances ++ [r] } else l }
  else
    let (census, usage) := Census.take template.value.root c.usage
    ⟨c.lists ++ [⟨path, template, census, [r]⟩], usage⟩

end Collection

/-- The square of a chunk, the eye point it is seen from, and whether new templates are to be
uploaded early. -/
structure ChunkView where
  size : Float32
  center : Vec2 Float32
  eye : Vec3 Float32
  compile : Bool

namespace ChunkView

variable (v : ChunkView) (config : PagingConfig)

/-- Whether a reference is drawn at all and falls to this chunk. -/
def admits (r : Reference) : Bool :=
  (!decide (v.size < 1) || Coverage.holds v.size v.center config.cellSize r.position) &&
    !markerIds.contains (lowercase r.id)

def isTooSmall (radius : Float32) (r : Reference) : Bool :=
  decide (radius * r.scale < v.eye.distance r.position * config.minSize)

end ChunkView

namespace Grouping

variable {σ : Type} (v : ChunkView) (config : PagingConfig) (models : ModelResolver)
  (source : TemplateSource σ)

def meshPath (model : String) : String := "meshes/" ++ model

def step (c : Collection) (r : Reference) (s : σ) : Except Failure Collection × σ :=
  if !v.admits config r then (.ok c, s)
  else match models r.kind (lowercase r.id) with
    | .error e => (.error e, s)
    | .ok model =>
      if model = "" then (.ok c, s)
      else match source (meshPath model) v.compile s with
        | (.error e, s) => (.error e, s)
        | (.ok template, s) =>
          if v.isTooSmall config template.value.bound.radius r then (.ok c, s)
          else (.ok (c.add (meshPath model) template r), s)

def run (c : Collection) : List Reference → σ → Except Failure Collection × σ
  | [], s => (.ok c, s)
  | r :: rest, s => match step v config models source c r s with
    | (.error e, s) => (.error e, s)
    | (.ok c, s) => run c rest s

def ofTable (refs : RefTable) (s : σ) : Except Failure Collection × σ :=
  run v config models source .empty refs.values s

end Grouping

end DistantChunks
