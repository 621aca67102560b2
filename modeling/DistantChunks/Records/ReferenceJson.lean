import DistantChunks.Json.Value
import DistantChunks.Records.Reference

/-!
# References as JSON

The document form of references: each field by name, in one fixed order when written. Rotation,
scale and deletion may be left out and ids are lowered when read.
-/

namespace DistantChunks

def Vec3.toJson (v : Vec3 Float32) : Json :=
  .array [.ofSingle v.x, .ofSingle v.y, .ofSingle v.z]

def Vec3.ofJson? (j : Json) : Option (Vec3 Float32) := do
  match ← j.array? with
  | [x, y, z] => return ⟨← x.single?, ← y.single?, ← z.single?⟩
  | _ => none

namespace RefNum

def toJson (n : RefNum) : Json :=
  .object [
    Json.member "content_file" (.ofInt n.file.toInt),
    Json.member "index" (.ofNat n.index.toNat)]

def ofJson? (j : Json) : Option RefNum := do
  match ← j.fields? ["content_file", "index"] with
  | [file, index] =>
    return ⟨Int32.ofInt (← Json.required Json.int32? file),
      UInt32.ofNat (← Json.required Json.uint32? index)⟩
  | _ => none

end RefNum

namespace RecordKind

def toJson (k : RecordKind) : Json := .ofText k.name

/-- A kind is its name, or an object whose only member has that name and no value. -/
def ofJson? (j : Json) : Option RecordKind :=
  match j with
  | .object [(name, .null)] => Json.unescape? name >>= ofName?
  | j => j.text? >>= ofName?

end RecordKind

namespace Reference

def toJson (r : Reference) : Json :=
  .object [
    Json.member "ref_num" r.number.toJson,
    Json.member "record_type" r.kind.toJson,
    Json.member "id" (.ofText r.id),
    Json.member "position" r.position.toJson,
    Json.member "rotation" r.rotation.toJson,
    Json.member "scale" (.ofSingle r.scale),
    Json.member "deleted" (.bool r.deleted)]

def ofJson? (j : Json) : Option Reference := do
  match ← j.fields? ["ref_num", "record_type", "id", "position", "rotation", "scale",
      "deleted"] with
  | [number, kind, id, position, rotation, scale, deleted] =>
    return {
      number := ← Json.required RefNum.ofJson? number
      kind := ← Json.required RecordKind.ofJson? kind
      id := lowercase (← Json.required Json.text? id)
      position := ← Json.required Vec3.ofJson? position
      rotation := ← Json.defaulting 0 Vec3.ofJson? rotation
      scale := ← Json.defaulting 1 Json.single? scale
      deleted := ← Json.defaulting false Json.bool? deleted }
  | _ => none

end Reference

end DistantChunks
