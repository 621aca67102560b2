import DistantChunks.Proofs.ZeroDifference

/-!
# Differences of finite numbers

Numbers that are not the undefined one can all be compared, so one that is not below another is at
least that other. The difference of two finite numbers can leave their range and is infinite then,
but it is never undefined.
-/

namespace DistantChunks

open Float.Model Float.Model.UnpackedFloat

namespace Double

theorem le_iff {a b : Float} :
    a ≤ b ↔ (a.toModel.unpack.compare b.toModel.unpack).any (·.isLE) = true := by
  change decide (a.toModel ≤ b.toModel) = true ↔ _
  rw [decide_eq_true_iff]
  exact Iff.rfl

theorem compare_swap (u v : UnpackedFloat) : (u.compare v).map .swap = v.compare u := by
  cases u with
  | notANumber => cases v <;> rfl
  | infinity s => cases v with
    | infinity t => cases s <;> cases t <;> rfl
    | _ => cases s <;> rfl
  | zero s => cases v with
    | infinity t | finite t => cases t <;> rfl
    | _ => rfl
  | finite s m e hm => cases v with
    | finite t n d hn =>
      have hswap : ((compare e d).then (compare m n)).swap = (compare d e).then (compare n m) := by
        rw [Ordering.swap_then, Std.OrientedOrd.eq_swap (a := e), Std.OrientedOrd.eq_swap (a := m)]
        simp
      cases s <;> cases t <;> simp [UnpackedFloat.compare, hswap]
    | infinity t => cases t <;> rfl
    | zero => cases s <;> rfl
    | notANumber => rfl

theorem isSome_compare {u v : UnpackedFloat} (hu : u.isNaN = false) (hv : v.isNaN = false) :
    (u.compare v).isSome = true := by
  cases u with
  | notANumber => cases hu
  | infinity s => cases v with
    | notANumber => cases hv
    | _ => cases s <;> rfl
  | zero s => cases v with
    | notANumber => cases hv
    | infinity t | finite t => cases t <;> rfl
    | zero => rfl
  | finite s => cases v with
    | notANumber => cases hv
    | infinity t | finite t => cases s <;> cases t <;> rfl
    | zero => cases s <;> rfl

theorem not_lt_iff {x y : Float} (hx : x.isNaN = false) (hy : y.isNaN = false) :
    ¬ x < y ↔ y ≤ x := by
  obtain ⟨o, ho⟩ := Option.isSome_iff_exists.1 (isSome_compare hy hx)
  rw [lt_iff, le_iff, ← compare_swap, ho]
  cases o <;> decide

theorem isNaN_unpack_packComponents {spec : Format} (s : Sign) (e : BitVec spec.exponentBits)
    (m : BitVec spec.mantissaBitsWithoutImplicit) (h : e = -1#_ → m = 0#_) :
    (UnpackedFloat.unpack spec (packComponents spec s e m)).isNaN = false := by
  unfold UnpackedFloat.unpack
  simp only [unpackExponent_packComponents, unpackMantissa_packComponents]
  split
  · next he => rw [if_pos (h he)]; rfl
  · split
    · split <;> rfl
    · rfl

theorem isNaN_unpack_pack {u : UnpackedFloat} (h : u.isNaN = false) :
    (UnpackedFloat.unpack .binary64 (UnpackedFloat.pack .binary64 u)).isNaN = false := by
  cases u with
  | notANumber => cases h
  | infinity s => exact isNaN_unpack_packComponents s _ _ fun _ => rfl
  | zero s => exact isNaN_unpack_packComponents s _ _ fun _ => rfl
  | finite s m e hm =>
    rw [UnpackedFloat.pack]
    split
    · exact isNaN_unpack_packComponents s _ _ fun _ => rfl
    · next hlow =>
      -- An exponent that is small enough for a number is not the highest one.
      have hnotall : BitVec.ofNat Format.binary64.exponentBits (e +
          Format.binary64.exponentBias +
            Format.binary64.mantissaBitsWithoutImplicit).toNat ≠ -1#_ := by
        refine ne_of_apply_ne BitVec.toNat ?_
        rw [BitVec.toNat_ofNat, BitVec.neg_one_eq_allOnes, BitVec.toNat_allOnes,
          Nat.mod_eq_of_lt (by omega)]
        omega
      split
      · exact isNaN_unpack_packComponents s _ _ fun h => absurd h hnotall
      · exact isNaN_unpack_packComponents s _ _ fun h => absurd h (by decide)

theorem isNaN_normalize (spec : Format) (m e : ℤ) (s : Sign) :
    (UnpackedFloat.normalize spec m e s).isNaN = false := by
  have hround (z : Sign) (k : ℕ) (d : ℤ) (a : Accuracy) :
      (roundWithAccuracy spec z k d a).isNaN = false := by
    rw [roundWithAccuracy]
    dsimp only
    split <;> rfl
  rw [UnpackedFloat.normalize]
  split
  · exact hround _ _ _ _
  · rfl
  · exact hround _ _ _ _

theorem isNaN_sub {x y : Float} (hx : x.isFinite = true) (hy : y.isFinite = true) :
    (x - y).isNaN = false := by
  change x.toModel.unpack.isFinite = true at hx
  change y.toModel.unpack.isFinite = true at hy
  refine isNaN_unpack_pack (u := UnpackedFloat.sub .binary64 x.toModel.unpack y.toModel.unpack) ?_
  cases hu : x.toModel.unpack with
  | notANumber | infinity => rw [hu] at hx; cases hx
  | zero s => cases hv : y.toModel.unpack with
    | notANumber | infinity => rw [hv] at hy; cases hy
    | zero t => cases s <;> cases t <;> rfl
    | finite => rfl
  | finite s m e hm => cases hv : y.toModel.unpack with
    | notANumber | infinity => rw [hv] at hy; cases hy
    | zero t => rfl
    | finite => exact isNaN_normalize _ _ _ _

theorem isNaN_of_isFinite {x : Float} (h : x.isFinite = true) : x.isNaN = false := by
  change x.toModel.unpack.isFinite = true at h
  change x.toModel.unpack.isNaN = false
  cases hu : x.toModel.unpack with
  | notANumber => rw [hu] at h; cases h
  | _ => rfl

end Double

end DistantChunks
