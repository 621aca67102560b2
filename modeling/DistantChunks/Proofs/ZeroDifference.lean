import Mathlib

/-!
# Taking zero off

Taking zero off a number changes at most the sign of a zero, so the difference is never below the
number. That packing undoes unpacking is a law of the library, and only the whole of it brings it.
-/

namespace DistantChunks

open Float.Model Float.Model.UnpackedFloat

namespace Double

theorem lt_iff {a b : Float} :
    a < b ↔ a.toModel.unpack.compare b.toModel.unpack = some .lt := by
  change decide (a.toModel < b.toModel) = true ↔ _
  rw [decide_eq_true_iff]
  exact beq_iff_eq

theorem compare_self_ne_lt (u : UnpackedFloat) : u.compare u ≠ some .lt := by
  cases u with
  | infinity s => cases s <;> decide
  | notANumber => decide
  | zero s => cases s <;> decide
  | finite s m e hm =>
    have hself : (compare e e).then (compare m m) = .eq := by simp
    cases s with
    | negative =>
      change some ((compare e e).then (compare m m)).swap ≠ some .lt
      rw [hself]
      decide
    | positive =>
      change some ((compare e e).then (compare m m)) ≠ some .lt
      rw [hself]
      decide

/-- Taking zero off changes at most the sign of a zero. -/
theorem unpack_sub_zero (x : Float) : (x - 0).toModel.unpack = x.toModel.unpack ∨
    ∃ s t, x.toModel.unpack = .zero s ∧ (x - 0).toModel.unpack = .zero t := by
  have hpacked : UnpackedFloat.pack .binary64 x.toModel.unpack = x.toModel.toBits.toBitVec :=
    pack_unpack_of_valid x.toModel.valid
  have hsub : (x - 0).toModel.unpack = UnpackedFloat.unpack .binary64 (UnpackedFloat.pack .binary64
      (UnpackedFloat.sub .binary64 x.toModel.unpack (.zero .positive))) := rfl
  rw [hsub]
  cases h : x.toModel.unpack with
  | zero s => cases s <;> exact .inr ⟨_, _, rfl, rfl⟩
  | infinity | notANumber | finite =>
    rw [h] at hpacked
    exact .inl ((congrArg (UnpackedFloat.unpack .binary64) hpacked).trans h)

theorem not_sub_zero_lt (x : Float) : ¬ x - 0 < x := by
  rw [lt_iff]
  rcases unpack_sub_zero x with h | ⟨s, t, hs, ht⟩
  · rw [h]
    exact compare_self_ne_lt _
  · rw [hs, ht]
    cases s <;> cases t <;> decide

end Double

end DistantChunks
