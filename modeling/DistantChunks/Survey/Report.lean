import DistantChunks.Chunk.Tiling
import DistantChunks.Paging.Pager
import DistantChunks.Records.WorldJson
import DistantChunks.Survey.Arguments

/-!
# Survey of a world

The survey builds every far chunk of a world and reports what each of them contains. Meshes are
not read: every path stands for a box whose size follows from the path, so that reports can be
compared. The survey is a function of its arguments and of the texts of the files it names.
-/

namespace DistantChunks.Survey

inductive Level where
  | info
  | warning
  | failure

def Level.name : Level → String
  | .info => "INFO"
  | .warning => "WARN"
  | .failure => "ERROR"

structure LogLine where
  level : Level
  message : String

/-- The output is a function of the words that tell the time taken. -/
structure Outcome where
  succeeded : Bool
  built : Nat
  output : String → List String
  log : List LogLine

def boxHalf (path : String) : Float32 :=
  let spread := path.toUTF8.toList.foldl (fun (n : UInt32) b => n * 31 + b.toUInt32) 0
  50 + Single.ofNat (spread % 400).toNat

def boxTemplate (path : String) : Node Float32 :=
  .drawable { Attributes.fresh with name := path } (Mesh.cuboid (Vec3.splat (boxHalf path)))

def headerLines (args : Arguments) (worldPath : String) (range : World.Range)
    (config : PagingConfig) : List String :=
  ["=== Object Paging ===",
   "World:  " ++ worldPath,
   "Cells:  (" ++ range.minX.toInt.repr ++ ", " ++ range.minY.toInt.repr ++ ") to (" ++
     range.maxX.toInt.repr ++ ", " ++ range.maxY.toInt.repr ++ ")",
   "Chunk:  " ++ Single.displayText args.size ++ " cells",
   "Jobs:   " ++ args.jobs.repr ++ " parallel",
   "Merge factor " ++ Single.displayText config.mergeFactor ++ ", min size " ++
     Single.displayText config.minSize,
   ""]

def chunkLine (c : Chunk) : String :=
  let drawables := match c.mergeChange with
    | some change => change.before.repr ++ " -> " ++ change.after.repr ++ " drawables"
    | none => "no merge group"
  "  " ++ c.id.text ++ ": " ++ c.instanceCount.repr ++ " instances, " ++ c.mergedCount.repr ++
    " merged, " ++ c.templates.length.repr ++ " templates, " ++ drawables

/-- A byte count in units of 1024, to one place. -/
def kilobytes (bytes : Nat) : String :=
  let tenths := roundedQuotient (bytes * 10) 1024
  (tenths / 10).repr ++ "." ++ (tenths % 10).repr

def total (count : Chunk → Nat) (chunks : List Chunk) : Nat :=
  chunks.foldl (fun n c => n + count c) 0

def summaryLines (pager : Pager) (chunks : List Chunk) (time : String) : List String :=
  ["",
   "=== Paging Complete ===",
   "Chunks:    " ++ pager.builds.repr ++ " built" ++ time,
   "Instances: " ++ (total Chunk.instanceCount chunks).repr ++ " (" ++
     (total Chunk.mergedCount chunks).repr ++ " merged)",
   "Templates: " ++ pager.resources.size.repr ++ " loaded",
   "Compile:   " ++ pager.resources.queue.size.repr ++ " groups pending, " ++
     kilobytes pager.resources.queue.pendingBytes ++ " KB vertex data"]

def surveyRange (args : Arguments) (worldPath : String) (config : PagingConfig) (world : World)
    (range : World.Range) (log : List LogLine) : Outcome :=
  let header := headerLines args worldPath range config
  let resources := TemplateCache.new (fun path => .ok (boxTemplate path)) true
  let pager := Pager.new world.store world.resolveModel config resources true
  let (result, pager) := pager.prefetch (Tiling.requests args.size range config.cellSize)
  let log := log ++ pager.unreadable.map fun e =>
    ⟨.warning, "Skipping unreadable references: " ++ e.message⟩
  match result with
  | .error e => ⟨false, pager.builds, fun _ => header, log ++ [⟨.failure, e.message⟩]⟩
  | .ok found =>
    let chunks := (found.filterMap id).map (·.value)
    let lines := (chunks.filter (!·.isEmpty)).map chunkLine
    ⟨true, pager.builds, fun time => header ++ lines ++ summaryLines pager chunks time, log⟩

def surveyWorld (args : Arguments) (worldPath : String) (config : PagingConfig) (world : World)
    (log : List LogLine) : Outcome :=
  match world.range? with
  | none => ⟨true, 0, fun _ => ["World has no cells"], log⟩
  | some range => surveyRange args worldPath config world range log

def fail (log : List LogLine) (e : Failure) : Outcome :=
  ⟨false, 0, fun _ => [], log ++ [⟨.failure, e.message⟩]⟩

def loadConfig (read : String → Except Failure String) :
    Option String → Except Failure (PagingConfig × List LogLine)
  | none => .ok (.standard, [])
  | some path => do
    let config ← PagingConfig.load (← read path)
    return (config, [⟨.info, "Loaded paging config from " ++ path⟩])

def loadWorld (read : String → Except Failure String) (path : String) :
    Except Failure (World × LogLine) := do
  let world ← World.load (← read path)
  return (world, ⟨.info, "Loaded world " ++ path ++ ": " ++ world.cells.length.repr ++ " cells, " ++
    world.models.size.repr ++ " object records"⟩)

/-- Runs the survey with a function that reads files. -/
def run (read : String → Except Failure String) (args : List String) : Outcome :=
  let args := Arguments.ofList args
  match args.worldPath with
  | none => fail [] (.config "--world <PATH> is required")
  | some worldPath =>
    match loadConfig read args.configPath with
    | .error e => fail [] e
    | .ok (config, log) =>
      match loadWorld read worldPath with
      | .error e => fail log e
      | .ok (world, line) => surveyWorld args worldPath config world (log ++ [line])

end DistantChunks.Survey
