import DistantChunks.Proofs.Drawing
import DistantChunks.Scene.Merging

/-!
# Joining meshes

Indices are moved by the count of the vertices before them, and these counts add up. So joining is
associative with the empty mesh as its unit, and it commutes with moving the vertices. A mesh that
is built of others by joining and moving is fixed by the row of its moved parts, however they are
grouped, `Assembly.mesh_eq_joined`. The merging of a bucket is one such grouping.
-/

namespace DistantChunks

variable {α : Type}

namespace Mesh

theorem empty_append (a : Mesh α) : empty.append a = a := by
  have hkept : a.indices.map (· + UInt32.ofNat 0) = a.indices := by simp
  change (⟨#[] ++ a.vertices, #[] ++ a.indices.map (· + UInt32.ofNat 0)⟩ : Mesh α) = a
  rw [hkept, Array.empty_append, Array.empty_append]

theorem append_empty (a : Mesh α) : a.append empty = a := by
  simp [append, empty]

theorem append_assoc (a b c : Mesh α) : (a.append b).append c = a.append (b.append c) := by
  have hoffset (i : UInt32) : i + UInt32.ofNat (a.vertices.size + b.vertices.size) =
      i + UInt32.ofNat b.vertices.size + UInt32.ofNat a.vertices.size := by
    rw [UInt32.ofNat_add, UInt32.add_assoc, UInt32.add_comm (UInt32.ofNat b.vertices.size)]
  simp only [append, Array.size_append, Array.map_append, Array.map_map, Array.append_assoc,
    Function.comp_def, hoffset]

/-- The vertices that the indices name, in their order; an index beyond the vertices names none. -/
def named (m : Mesh α) : List (Option (Vec3 α)) :=
  m.indices.toList.map fun i => m.vertices[i.toNat]?

/-- The indices of the second mesh can be moved behind the vertices of the first. -/
def Fits (a b : Mesh α) : Prop := ∀ i ∈ b.indices, a.vertices.size + i.toNat < UInt32.size

theorem named_append {a b : Mesh α} (ha : a.IsIndexed) (hfit : a.Fits b) :
    (a.append b).named = a.named ++ b.named := by
  simp only [named, append, Array.toList_append, Array.toList_map, List.map_append, List.map_map]
  congr 1
  · refine List.map_congr_left fun i hi => ?_
    exact Array.getElem?_append_left (ha i (Array.mem_toList_iff.1 hi))
  · refine List.map_congr_left fun i hi => ?_
    have hmoved := toNat_add_ofNat (hfit i (Array.mem_toList_iff.1 hi))
    rw [Function.comp_apply, hmoved, Array.getElem?_append_right (Nat.le_add_right _ _),
      Nat.add_sub_cancel_left]

def joined (meshes : List (Mesh α)) : Mesh α := meshes.foldl append .empty

theorem foldl_append_eq (a : Mesh α) (meshes : List (Mesh α)) :
    meshes.foldl append a = a.append (joined meshes) := by
  induction meshes generalizing a with
  | nil => exact a.append_empty.symm
  | cons b meshes ih =>
    have hcons : joined (b :: meshes) = b.append (joined meshes) := by
      rw [joined, List.foldl_cons, ih, empty_append]
    rw [List.foldl_cons, ih, hcons, append_assoc]

theorem joined_append (ms ns : List (Mesh α)) :
    joined (ms ++ ns) = (joined ms).append (joined ns) := by
  rw [joined, List.foldl_append, foldl_append_eq]
  rfl

theorem joined_map_moved [Scalar α] (ms : List (Mesh α)) (x : Matrix α) :
    joined (ms.map (·.moved x)) = (joined ms).moved x := by
  have hempty : (empty : Mesh α).moved x = empty := by simp [moved, empty]
  rw [joined, List.foldl_map, ← hempty]
  exact List.foldl_hom (moved · x) fun a b => (moved_append a b x).symm

end Mesh

/-- A way to build a mesh of others: two of them are joined at a time, in any grouping, and what
has been built can be moved on the way. -/
inductive Assembly (α : Type) where
  | part (mesh : Mesh α)
  | join (left right : Assembly α)
  | bake (x : Matrix α) (whole : Assembly α)

namespace Assembly

variable [Scalar α]

def mesh : Assembly α → Mesh α
  | part m => m
  | join left right => left.mesh.append right.mesh
  | bake x whole => whole.mesh.moved x

/-- The meshes that are joined, each moved as it is in the end. -/
def parts : Assembly α → List (Mesh α)
  | part m => [m]
  | join left right => left.parts ++ right.parts
  | bake x whole => whole.parts.map (·.moved x)

theorem mesh_eq_joined (t : Assembly α) : t.mesh = Mesh.joined t.parts := by
  induction t with
  | part m => exact m.empty_append.symm
  | join left right ihl ihr => rw [mesh, parts, Mesh.joined_append, ihl, ihr]
  | bake x whole ih => rw [mesh, parts, Mesh.joined_map_moved, ih]

end Assembly

theorem MergeRule.mesh?_join [Scalar α] (rule : MergeRule α) (first : Member α)
    (rest : List (Member α)) : (rule.join first rest).mesh? =
      some (Mesh.joined ((rule.order (first :: rest)).map Member.mesh)) := by
  rw [join, Node.mesh?, Mesh.joined, List.foldl_map]

/-- Joining is associative with the empty mesh as its unit on both sides, and joining what has been
moved is moving what has been joined. The indices of a joined mesh name what those of its parts
name. So every grouping of the members of a bucket gives the mesh that merging makes of them, and
every grouping of the moved members gives this mesh moved. -/
theorem Mesh.append_groups_freely [Scalar α] (a b c : Mesh α) (x : Matrix α) :
    (a.append b).append c = a.append (b.append c) ∧
      Mesh.empty.append a = a ∧ a.append .empty = a ∧
      (a.append b).moved x = (a.moved x).append (b.moved x) ∧
      (a.IsIndexed → a.Fits b → (a.append b).named = a.named ++ b.named) ∧
      ∀ (rule : MergeRule α) (first : Member α) (rest : List (Member α)) (t : Assembly α),
        t.parts = (rule.order (first :: rest)).map Member.mesh →
          (rule.join first rest).mesh? = some t.mesh ∧
          ∀ u : Assembly α, u.parts = t.parts.map (·.moved x) → u.mesh = t.mesh.moved x := by
  refine ⟨append_assoc a b c, a.empty_append, a.append_empty, moved_append a b x, named_append,
    fun rule first rest t ht => ⟨?_, fun u hu => ?_⟩⟩
  · rw [rule.mesh?_join, ← ht, t.mesh_eq_joined]
  · rw [u.mesh_eq_joined, hu, joined_map_moved, ← t.mesh_eq_joined]

def roof : Mesh Float32 := ⟨#[⟨0, 0, 0⟩, ⟨4, 0, 0⟩, ⟨0, 4, 1⟩], #[0, 1, 2]⟩

def chimney : Mesh Float32 := ⟨#[⟨1, 1, 2⟩], #[0, 7]⟩

/-- Behind the roof the chimney names its vertex and nothing, as it did alone. Roof, chimney and
roof are joined in any grouping. -/
theorem roof_append_chimney :
    let t : Assembly Float32 := .join (.part roof) (.join (.part chimney) (.part roof))
    let member : Mesh Float32 → Member Float32 := Member.mk .fresh
    (roof.append chimney).named = roof.named ++ [some ⟨1, 1, 2⟩, none] ∧
      (MergeRule.join ⟨none, false⟩ (member roof) [member chimney, member roof]).mesh? =
        some t.mesh := by
  intro t member
  obtain ⟨-, -, -, -, hnamed, hjoin⟩ := Mesh.append_groups_freely roof chimney roof .identity
  have hindexed : roof.IsIndexed := by simp [roof, Mesh.IsIndexed]
  have hfits : roof.Fits chimney := by simp [roof, chimney, Mesh.Fits, UInt32.size]
  have hparts : t.parts = [member roof, member chimney, member roof].map Member.mesh := rfl
  exact ⟨hnamed hindexed hfits, (hjoin ⟨none, false⟩ _ _ t hparts).1⟩

end DistantChunks
