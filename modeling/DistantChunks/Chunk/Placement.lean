import DistantChunks.Number.Angle
import DistantChunks.Records.Reference
import DistantChunks.Space.Matrix

/-!
# Placing references in a chunk

The geometry of a chunk is relative to its middle, so that it stays precise far from the origin of
the world.
-/

namespace DistantChunks

def worldCenter (center : Vec2 Float32) (cellSize : Float32) : Vec3 Float32 :=
  Vec3.scale ⟨center.x, center.y, 0⟩ cellSize

def Quaternion.ofAxisAngle (axis : Vec3 Float32) (angle : Float32) : Quaternion Float32 :=
  let half := angle * 0.5
  ofAxis axis (Angle.sine half) (Angle.cosine half)

/-- The rotation of a reference: about z, then y, then x, each against the sense of its axis. -/
def Reference.rotationQuaternion (r : Reference) : Quaternion Float32 :=
  .ofAxisAngle ⟨-1, 0, 0⟩ r.rotation.x * .ofAxisAngle ⟨0, -1, 0⟩ r.rotation.y *
    .ofAxisAngle ⟨0, 0, -1⟩ r.rotation.z

def Reference.placement (r : Reference) (middle : Vec3 Float32) : Matrix Float32 :=
  .ofPlacement r.scale r.rotationQuaternion (r.position - middle)

end DistantChunks
