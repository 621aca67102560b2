import DistantChunks.Json.Reader
import DistantChunks.Json.Writer
import DistantChunks.Records.ReferenceJson
import DistantChunks.Records.World

/-!
# Worlds as JSON

The document form of worlds. Saving writes cells in their order and records by id; loading lowers
the ids of records, and of several records that then agree keeps the one that comes last by its
written id.
-/

namespace DistantChunks

namespace Context

def toJson (c : Context) : Json :=
  .object [
    Json.member "refs" (.array (c.refs.map Reference.toJson)),
    Json.member "corrupt" (.bool c.corrupt)]

def ofJson? (j : Json) : Option Context := do
  match ← j.fields? ["refs", "corrupt"] with
  | [refs, corrupt] =>
    return ⟨← Json.defaulting [] (Json.arrayOf? Reference.ofJson?) refs,
      ← Json.defaulting false Json.bool? corrupt⟩
  | _ => none

end Context

namespace Cell

def toJson (c : Cell) : Json :=
  .object [
    Json.member "x" (.ofInt c.x.toInt),
    Json.member "y" (.ofInt c.y.toInt),
    Json.member "contexts" (.array (c.contexts.map Context.toJson)),
    Json.member "moved" (.array (c.moved.map RefNum.toJson)),
    Json.member "leased" (.array (c.leased.map Reference.toJson))]

def ofJson? (j : Json) : Option Cell := do
  match ← j.fields? ["x", "y", "contexts", "moved", "leased"] with
  | [x, y, contexts, moved, leased] =>
    return {
      x := Int32.ofInt (← Json.required Json.int32? x)
      y := Int32.ofInt (← Json.required Json.int32? y)
      contexts := ← Json.defaulting [] (Json.arrayOf? Context.ofJson?) contexts
      moved := ← Json.defaulting [] (Json.arrayOf? RefNum.ofJson?) moved
      leased := ← Json.defaulting [] (Json.arrayOf? Reference.ofJson?) leased }
  | _ => none

end Cell

namespace ModelRecord

def toJson (r : ModelRecord) : Json :=
  .object [Json.member "record_type" r.kind.toJson, Json.member "model" (.ofText r.model)]

def ofJson? (j : Json) : Option ModelRecord := do
  match ← j.fields? ["record_type", "model"] with
  | [kind, model] =>
    return ⟨← Json.required RecordKind.ofJson? kind, ← Json.defaulting "" Json.text? model⟩
  | _ => none

end ModelRecord

namespace World

def modelTable (members : List (String × ModelRecord)) : ModelTable :=
  members.foldl (fun t (id, r) => t.insert id r) ∅

def lowerIds (t : ModelTable) : ModelTable :=
  modelTable (t.toList.map fun (id, r) => (lowercase id, r))

def modelsOfJson? (j : Json) : Option ModelTable := do
  let members ← (← j.members?).mapM fun (id, value) => return (id, ← ModelRecord.ofJson? value)
  return modelTable members

def toJson (w : World) : Json :=
  .object [
    Json.member "cells" (.array (w.cells.map Cell.toJson)),
    Json.member "models" (.object (w.models.toList.map fun (id, r) => Json.member id r.toJson))]

def ofJson? (j : Json) : Option World := do
  match ← j.fields? ["cells", "models"] with
  | [cells, models] =>
    let cells ← Json.defaulting [] (Json.arrayOf? Cell.ofJson?) cells
    let models ← Json.defaulting ∅ modelsOfJson? models
    return ⟨cells, lowerIds models⟩
  | _ => none

def save (w : World) : String := w.toJson.pretty

def load (s : String) : Except Failure World :=
  match Json.read? s >>= ofJson? with
  | some w => .ok w
  | none => .error .json

end World

def Reference.load (s : String) : Except Failure Reference :=
  match Json.read? s >>= ofJson? with
  | some r => .ok r
  | none => .error .json

end DistantChunks
