import Std.Data.ExtTreeMap.Basic
import Std.Data.ExtTreeMap.Lemmas
import DistantChunks.Records.Failure
import DistantChunks.Scene.UploadQueue

/-!
# Templates

A template is the tree that is loaded for one mesh path. The cache loads every path once and hands
out the same template from then on. Templates that nothing outside the cache holds can be dropped;
after that the path is loaded anew. A failed load is not remembered.
-/

namespace DistantChunks

/-- A value with an identity: equal values with different serial numbers are different things. -/
structure Shared (β : Type) where
  serial : Nat
  value : β

structure Template where
  path : String
  root : Node Float32
  bound : Sphere Float32 := root.bound
  bound_eq : bound = root.bound := by rfl

def Template.new (path : String) (root : Node Float32) : Template := { path, root }

/-- A source of templates over some state. The flag asks for the tree of a newly loaded template to
be uploaded early. -/
abbrev TemplateSource (σ : Type) :=
  String → Bool → σ → Except Failure (Shared Template) × σ

structure TemplateCache where
  loader : String → Except Failure (Node Float32)
  templates : Std.ExtTreeMap String (Shared Template)
  /-- How often the loader was called. -/
  loads : Nat
  nextSerial : Nat
  queue : UploadQueue Float32
  /-- Whether trees of new templates go into the queue when that is asked for. -/
  uploads : Bool

namespace TemplateCache

def new (loader : String → Except Failure (Node Float32)) (uploads : Bool) : TemplateCache :=
  ⟨loader, ∅, 0, 0, .empty, uploads⟩

def size (c : TemplateCache) : Nat := c.templates.size

def contains (c : TemplateCache) (path : String) : Bool := c.templates.contains path

def enqueue (c : TemplateCache) (n : Node Float32) : TemplateCache :=
  { c with queue := c.queue.enqueue n }

/-- A loader's failure as the failure to load a path; one that says so already stays as it is. -/
def loadFailure (path : String) : Failure → Failure
  | .templateLoad p reason => .templateLoad p reason
  | other => .templateLoad path other.message

def load (c : TemplateCache) (path : String) (compile : Bool) :
    Except Failure (Shared Template) × TemplateCache :=
  let c := { c with loads := c.loads + 1 }
  match c.loader path with
  | .error e => (.error (loadFailure path e), c)
  | .ok root =>
    let template : Shared Template := ⟨c.nextSerial, Template.new path root⟩
    let c := { c with
      templates := c.templates.insert path template
      nextSerial := c.nextSerial + 1 }
    (.ok template, if compile && c.uploads then c.enqueue root else c)

def get (path : String) (compile : Bool) (c : TemplateCache) :
    Except Failure (Shared Template) × TemplateCache :=
  match c.templates[path]? with
  | some template => (.ok template, c)
  | none => c.load path compile

def prune (c : TemplateCache) (held : Nat → Bool) : Nat × TemplateCache :=
  let kept := c.templates.filter fun _ t => held t.serial
  (c.templates.size - kept.size, { c with templates := kept })

def clear (c : TemplateCache) : TemplateCache := { c with templates := ∅ }

def describe (c : TemplateCache) : String :=
  "TemplateCache \x7b templates: " ++ c.size.repr ++ ", compile_queue: " ++
    (if c.uploads then "true" else "false") ++ " \x7d"

end TemplateCache

end DistantChunks
