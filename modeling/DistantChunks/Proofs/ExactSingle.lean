import DistantChunks.Number.Single
import DistantChunks.Proofs.ExactRounding
import DistantChunks.Space.Scalar

/-!
# Exact arithmetic in single precision

`Denotes x q` says that the single precision number `x` stands for the rational `q`. Zeros of both
signs stand for zero. Sums, differences and quotients stand for those of the rationals wherever
single precision holds these exactly, comparisons are those of the rationals, and rounding down and
up, conversions and sorting ranks follow.
-/

namespace DistantChunks

open Float.Model Float.Model.UnpackedFloat

def Denotes (x : Float32) (q : ℚ) : Prop := number? x.toModel.unpack = some q

instance (x : Float32) (q : ℚ) : Decidable (Denotes x q) :=
  inferInstanceAs (Decidable (number? x.toModel.unpack = some q))

namespace Denotes

variable {x y : Float32} {p q : ℚ}

theorem zero : Denotes 0 0 := by decide

theorem one : Denotes 1 1 := by decide +kernel

theorem two : Denotes 2 2 := by decide +kernel

theorem scalar_two : Denotes Scalar.two 2 := by decide +kernel

theorem unique (hp : Denotes x p) (hq : Denotes x q) : p = q :=
  Option.some.inj (hp.symm.trans hq)

/-- What is stored in a number has been unpacked from one and is not changed by storing it. -/
theorem stored?_unpack (x : Float32) : stored? x.toModel.unpack = number? x.toModel.unpack := by
  rw [stored?]
  exact congrArg (fun b => number? (UnpackedFloat.unpack .binary32 b))
    (pack_unpack_of_valid x.toModel.valid)

theorem unpack_cases (h : Denotes x p) : (∃ s, x.toModel.unpack = .zero s ∧ p = 0) ∨
    ∃ s m e, ∃ hm : IsCanonical m e, x.toModel.unpack = .finite s m e hm.pos ∧
      p = ((s.apply m : ℤ) : ℚ) * 2 ^ e := by
  rw [Denotes] at h
  cases hx : x.toModel.unpack with
  | zero s =>
    rw [hx, number?, Option.some.injEq] at h
    exact .inl ⟨s, rfl, h.symm⟩
  | finite s m e hm =>
    rw [hx, number?, Option.some.injEq] at h
    exact .inr ⟨s, m, e, isCanonical_of_unpack hx, rfl, h.symm⟩
  | infinity | notANumber =>
    rw [hx] at h
    cases h

theorem add (hx : Denotes x p) (hy : Denotes y q) (h : IsSingle (p + q)) :
    Denotes (x + y) (p + q) := by
  change stored? (UnpackedFloat.add .binary32 x.toModel.unpack y.toModel.unpack) = _
  have hx' := hx
  have hy' := hy
  rw [Denotes, ← stored?_unpack] at hx' hy'
  rcases hx.unpack_cases with ⟨s, hux, rfl⟩ | ⟨s, m, e, hm, hux, hp⟩
  · rw [zero_add]
    rcases hy.unpack_cases with ⟨z, huy, rfl⟩ | ⟨z, n, t, hn, huy, hq⟩
    · rw [hux, huy, UnpackedFloat.add]
      split
      · exact stored?_zero _
      · exact stored?_zero _
    · rw [huy] at hy'
      rw [hux, huy]
      exact hy'
  · rcases hy.unpack_cases with ⟨z, huy, rfl⟩ | ⟨z, n, t, hn, huy, hq⟩
    · rw [hux] at hx'
      rw [add_zero, hux, huy]
      exact hx'
    · rw [hux, huy, UnpackedFloat.add]
      refine stored?_normalize _ h ?_
      rw [Int.cast_add, add_mul, hp, hq]
      congr 1
      · exact apply_mul_congr s (decreaseExponent_mul m (min_le_left e t))
      · exact apply_mul_congr z (decreaseExponent_mul n (min_le_right e t))

theorem neg (hx : Denotes x p) : Denotes (-x) (-p) := by
  change stored? (UnpackedFloat.neg x.toModel.unpack) = _
  rcases hx.unpack_cases with ⟨s, hux, rfl⟩ | ⟨s, m, e, hm, hux, rfl⟩
  · rw [hux, UnpackedFloat.neg, neg_zero]
    exact stored?_zero _
  · rw [hux, UnpackedFloat.neg, stored?_finite (-s) hm, ← neg_mul]
    congr 2
    cases s with
    | positive => exact Int.cast_neg _
    | negative => rw [← Int.cast_neg]; exact congrArg _ (neg_neg _).symm

theorem sub (hx : Denotes x p) (hy : Denotes y q) (h : IsSingle (p - q)) :
    Denotes (x - y) (p - q) := by
  change stored? (UnpackedFloat.sub .binary32 x.toModel.unpack y.toModel.unpack) = _
  have hx' := hx
  have hy' := hy.neg
  rw [Denotes, ← stored?_unpack] at hx'
  rcases hx.unpack_cases with ⟨s, hux, rfl⟩ | ⟨s, m, e, hm, hux, hp⟩
  · rw [zero_sub]
    rcases hy.unpack_cases with ⟨z, huy, rfl⟩ | ⟨z, n, t, hn, huy, hq⟩
    · rw [hux, huy, UnpackedFloat.sub, neg_zero]
      split
      · exact stored?_zero _
      · exact stored?_zero _
    · change stored? (UnpackedFloat.neg y.toModel.unpack) = _ at hy'
      rw [huy, UnpackedFloat.neg] at hy'
      rw [hux, huy, UnpackedFloat.sub]
      exact hy'
  · rcases hy.unpack_cases with ⟨z, huy, rfl⟩ | ⟨z, n, t, hn, huy, hq⟩
    · rw [hux] at hx'
      rw [sub_zero, hux, huy]
      exact hx'
    · rw [hux, huy, UnpackedFloat.sub]
      refine stored?_normalize _ h ?_
      rw [Int.cast_sub, sub_mul, hp, hq]
      congr 1
      · exact apply_mul_congr s (decreaseExponent_mul m (min_le_left e t))
      · exact apply_mul_congr z (decreaseExponent_mul n (min_le_right e t))

theorem div (hx : Denotes x p) (hy : Denotes y q) (hq : q ≠ 0) (h : IsSingle (p / q)) :
    Denotes (x / y) (p / q) := by
  change stored? (UnpackedFloat.div .binary32 x.toModel.unpack y.toModel.unpack) = _
  obtain ⟨z, n, t, hn, huy, rfl⟩ := (hy.unpack_cases).resolve_left fun ⟨_, _, h0⟩ => hq h0
  rcases hx.unpack_cases with ⟨s, hux, rfl⟩ | ⟨s, m, e, hm, hux, rfl⟩
  · rw [hux, huy, UnpackedFloat.div, zero_div]
    exact stored?_zero _
  · rw [hux, huy]
    exact stored?_div hm.pos hn.pos h rfl

theorem compare_apply {s z : Sign} {m n : ℕ} {e t : ℤ} (hm : IsCanonical m e)
    (hn : IsCanonical n t) :
    UnpackedFloat.compare (.finite s m e hm.pos) (.finite z n t hn.pos) =
      some (compare (((s.apply m : ℤ) : ℚ) * 2 ^ e) ((z.apply n : ℤ) * 2 ^ t)) := by
  have hmpos := hm.value_pos
  have hnpos := hn.value_pos
  have hnegative (k : ℕ) : ((Sign.apply .negative k : ℤ) : ℚ) = -k := by simp [Sign.apply]
  have hpositive (k : ℕ) : ((Sign.apply .positive k : ℤ) : ℚ) = k := by simp [Sign.apply]
  cases s <;> cases z
  · have hswap : compare (-((m : ℚ) * 2 ^ e)) (-((n : ℚ) * 2 ^ t)) =
        (compare ((m : ℚ) * 2 ^ e) (n * 2 ^ t)).swap := by
      rcases lt_trichotomy ((m : ℚ) * 2 ^ e) (n * 2 ^ t) with h | h | h
      · rw [compare_lt_iff_lt.2 h, compare_gt_iff_gt.2 (neg_lt_neg h), Ordering.swap_lt]
      · rw [h, compare_eq_iff_eq.2 rfl, compare_eq_iff_eq.2 rfl, Ordering.swap_eq]
      · rw [compare_gt_iff_gt.2 h, compare_lt_iff_lt.2 (neg_lt_neg h), Ordering.swap_gt]
    rw [hnegative, hnegative, neg_mul, neg_mul, hswap, ← hm.compare_eq hn]
    rfl
  · rw [hnegative, hpositive, neg_mul, compare_lt_iff_lt.2 (by linarith)]
    rfl
  · rw [hnegative, hpositive, neg_mul, compare_gt_iff_gt.2 (by linarith)]
    rfl
  · rw [hpositive, hpositive, ← hm.compare_eq hn]
    rfl

/-- Numbers compare as the rationals they stand for. -/
theorem compare_eq (hx : Denotes x p) (hy : Denotes y q) :
    x.toModel.unpack.compare y.toModel.unpack = some (compare p q) := by
  rcases hx.unpack_cases with ⟨s, hux, rfl⟩ | ⟨s, m, e, hm, hux, rfl⟩
  · rcases hy.unpack_cases with ⟨z, huy, rfl⟩ | ⟨z, n, t, hn, huy, rfl⟩
    · rw [hux, huy, compare_eq_iff_eq.2 rfl]
      rfl
    · have hpos := hn.value_pos
      rw [hux, huy]
      cases z with
      | positive =>
        rw [compare_lt_iff_lt.2 (by simpa [Sign.apply] using hpos)]
        rfl
      | negative =>
        rw [compare_gt_iff_gt.2 (by simpa [Sign.apply] using hpos)]
        rfl
  · rcases hy.unpack_cases with ⟨z, huy, rfl⟩ | ⟨z, n, t, hn, huy, rfl⟩
    · have hpos := hm.value_pos
      rw [hux, huy]
      cases s with
      | positive =>
        rw [compare_gt_iff_gt.2 (by simpa [Sign.apply] using hpos)]
        rfl
      | negative =>
        rw [compare_lt_iff_lt.2 (by simpa [Sign.apply] using hpos)]
        rfl
    · rw [hux, huy]
      exact compare_apply hm hn

theorem lt_iff (hx : Denotes x p) (hy : Denotes y q) : x < y ↔ p < q := by
  have hcompare := hx.compare_eq hy
  change decide (x.toModel < y.toModel) = true ↔ _
  rw [decide_eq_true_iff]
  change (x.toModel.unpack.compare y.toModel.unpack == some .lt) = true ↔ _
  rw [hcompare, beq_iff_eq, Option.some.injEq, compare_lt_iff_lt]

theorem le_iff (hx : Denotes x p) (hy : Denotes y q) : x ≤ y ↔ p ≤ q := by
  have hcompare := hx.compare_eq hy
  change decide (x.toModel ≤ y.toModel) = true ↔ _
  rw [decide_eq_true_iff]
  change (x.toModel.unpack.compare y.toModel.unpack).any (·.isLE) = true ↔ _
  rw [hcompare, Option.any_some, Ordering.isLE_iff_ne_gt, ← ne_eq, compare_le_iff_le]

/-- What lies between two numbers is a number. -/
theorem exists_of_le_of_le {a : Float32} (hx : Denotes x p) (hy : Denotes y q) (hxa : x ≤ a)
    (hay : a ≤ y) : ∃ r, Denotes a r := by
  change decide (x.toModel ≤ a.toModel) = true at hxa
  change decide (a.toModel ≤ y.toModel) = true at hay
  rw [decide_eq_true_iff] at hxa hay
  change (x.toModel.unpack.compare a.toModel.unpack).any (·.isLE) = true at hxa
  change (a.toModel.unpack.compare y.toModel.unpack).any (·.isLE) = true at hay
  simp only [Denotes]
  cases ha : a.toModel.unpack with
  | zero s => exact ⟨0, rfl⟩
  | finite s m e hm => exact ⟨_, rfl⟩
  | notANumber =>
    rcases hy.unpack_cases with ⟨_, hy, -⟩ | ⟨_, _, _, _, hy, -⟩ <;>
      simp [ha, hy, UnpackedFloat.compare] at hay
  | infinity s =>
    cases s with
    | positive =>
      rcases hy.unpack_cases with ⟨_, hy, -⟩ | ⟨_, _, _, _, hy, -⟩ <;>
        simp [ha, hy, UnpackedFloat.compare] at hay
    | negative =>
      rcases hx.unpack_cases with ⟨_, hx, -⟩ | ⟨_, _, _, _, hx, -⟩ <;>
        simp [ha, hx, UnpackedFloat.compare] at hxa

theorem least (hx : Denotes x p) (hy : Denotes y q) : Denotes (Scalar.least x y) (min p q) := by
  unfold Scalar.least
  split
  · next h =>
    rw [min_eq_right ((hy.lt_iff hx).1 h).le]
    exact hy
  · next h =>
    have hle : p ≤ q := not_lt.1 fun hlt => h ((hy.lt_iff hx).2 hlt)
    rw [if_pos ((hx.le_iff hx).2 le_rfl), min_eq_left hle]
    exact hx

theorem most (hx : Denotes x p) (hy : Denotes y q) : Denotes (Scalar.most x y) (max p q) := by
  unfold Scalar.most
  split
  · next h =>
    rw [max_eq_right ((hx.lt_iff hy).1 h).le]
    exact hy
  · next h =>
    have hle : q ≤ p := not_lt.1 fun hlt => h ((hx.lt_iff hy).2 hlt)
    rw [if_pos ((hx.le_iff hx).2 le_rfl), max_eq_left hle]
    exact hx

end Denotes

/-- The rational that a value stands for. -/
def BinaryValue.number? : BinaryValue → Option ℚ
  | .finite negative m e => some (((if negative then -m else m : ℤ) : ℚ) * 2 ^ e)
  | .infinite _ | .notANumber => none

namespace BinaryFormat

theorem single_signPattern : single.signPattern = 2147483648 := rfl

theorem single_infinityPattern : single.infinityPattern = 2139095040 := rfl

theorem single_lowestExponent : single.lowestExponent = -149 := rfl

theorem single_significand (n : ℕ) :
    single.significand n = if n < 8388608 then n else 8388608 + n % 8388608 := rfl

theorem single_exponent (n : ℕ) : single.exponent n = -149 + (n / 8388608 - 1 : ℕ) := rfl

section Fields

variable (b : BitVec Format.binary32.numBits)

theorem toNat_unpackMantissa : (unpackMantissa b).toNat = b.toNat % 8388608 := by
  rw [unpackMantissa_def, BitVec.extractLsb'_toNat]
  rfl

theorem toNat_unpackExponent : (unpackExponent b).toNat = b.toNat / 8388608 % 256 := by
  rw [unpackExponent_def, BitVec.extractLsb'_toNat, Nat.shiftRight_eq_div_pow]
  rfl

theorem toNat_unpackSign : (unpackSign b).toNat = b.toNat / 2147483648 := by
  have hn : b.toNat < 4294967296 := b.isLt
  rw [unpackSign_def, BitVec.extractLsb'_toNat, Nat.shiftRight_eq_div_pow]
  change b.toNat / 2147483648 % 2 = _
  omega

theorem apply_unpackSign (m : ℕ) : ((Sign.ofBitVec (unpackSign b)).apply m : ℤ) =
    if decide (2147483648 ≤ b.toNat) = true then -(m : ℤ) else m := by
  have hn : b.toNat < 4294967296 := b.isLt
  have hsign := toNat_unpackSign b
  unfold Sign.ofBitVec
  by_cases h : 2147483648 ≤ b.toNat
  · have hne : unpackSign b ≠ 0#1 := ne_of_apply_ne BitVec.toNat (by rw [hsign]; simp; omega)
    rw [if_neg hne, if_pos (decide_eq_true h)]
    rfl
  · have heq : unpackSign b = 0#1 := BitVec.eq_of_toNat_eq (by rw [hsign]; simp; omega)
    rw [if_pos heq, if_neg (by simpa using h)]
    rfl

/-- Reading a pattern and unpacking it agree. -/
theorem number?_read :
    (single.read b.toNat).number? = DistantChunks.number? (UnpackedFloat.unpack .binary32 b) := by
  have hn : b.toNat < 4294967296 := b.isLt
  have hmantissa := toNat_unpackMantissa b
  have hexponent := toNat_unpackExponent b
  have happly := apply_unpackSign b
  have hbias : Format.binary32.exponentBias = 127 := rfl
  unfold UnpackedFloat.unpack BinaryFormat.read
  dsimp only
  rw [single_signPattern, single_infinityPattern]
  by_cases hall : unpackExponent b = -1#8
  · have hfield : b.toNat / 8388608 % 256 = 255 := by rw [← hexponent, hall]; rfl
    rw [if_neg (by omega), if_pos hall]
    split <;> split <;> rfl
  have hfield : b.toNat / 8388608 % 256 ≠ 255 := fun heq =>
    hall (BitVec.eq_of_toNat_eq (hexponent.trans heq))
  rw [if_pos (by omega), if_neg hall, BinaryValue.number?]
  by_cases hzero : unpackExponent b = 0#8
  · have hfield : b.toNat / 8388608 % 256 = 0 := by rw [← hexponent, hzero]; rfl
    have hsignificand : single.significand (b.toNat % 2147483648) = b.toNat % 8388608 := by
      rw [single_significand, if_pos (by omega)]
      omega
    have hplace : single.exponent (b.toNat % 2147483648) = -149 := by
      rw [single_exponent]
      omega
    rw [if_pos hzero, hsignificand, hplace]
    by_cases hnone : unpackMantissa b = 0#23
    · have hrest : b.toNat % 8388608 = 0 := by rw [← hmantissa, hnone]; rfl
      rw [dif_pos hnone, hrest, DistantChunks.number?]
      simp
    · rw [dif_neg hnone, DistantChunks.number?, happly, hmantissa, hzero, hbias]
      rfl
  · have hfield' : b.toNat / 8388608 % 256 ≠ 0 := fun heq =>
      hzero (BitVec.eq_of_toNat_eq (hexponent.trans heq))
    have hsignificand :
        single.significand (b.toNat % 2147483648) = 2 ^ 23 + b.toNat % 8388608 := by
      rw [single_significand, if_neg (by omega)]
      omega
    have hplace : single.exponent (b.toNat % 2147483648) =
        (b.toNat / 8388608 % 256 : ℕ) - ((127 : ℕ) + (23 : ℕ)) := by
      rw [single_exponent]
      omega
    rw [if_neg hzero, hsignificand, hplace, DistantChunks.number?, happly, toNat_append_one,
      hmantissa, hexponent, hbias]

end Fields

theorem significand_lt (n : ℕ) : single.significand n < 2 ^ 24 := by
  rw [single_significand]
  split
  · omega
  · omega

/-- Patterns of positive numbers are ordered as the numbers. -/
theorem significand_mul_le {m n : ℕ} (h : m ≤ n) :
    (single.significand m : ℚ) * 2 ^ single.exponent m ≤
      single.significand n * 2 ^ single.exponent n := by
  rw [single_exponent, single_exponent]
  by_cases hfield : m / 8388608 - 1 = n / 8388608 - 1
  · have hle : single.significand m ≤ single.significand n := by
      rw [single_significand, single_significand]
      split <;> split <;> omega
    have hle' : (single.significand m : ℚ) ≤ single.significand n := by exact_mod_cast hle
    rw [hfield]
    exact mul_le_mul_of_nonneg_right hle' (zpow_pos two_pos _).le
  · have hlt : (single.significand m : ℚ) ≤ 2 ^ 24 := by
      exact_mod_cast (significand_lt m).le
    have hfull : 2 ^ 23 ≤ single.significand n := by
      rw [single_significand, if_neg (by omega)]
      omega
    have hfull' : (2 : ℚ) ^ 23 ≤ single.significand n := by exact_mod_cast hfull
    have hstep : m / 8388608 - 1 + 1 ≤ n / 8388608 - 1 := by omega
    calc (single.significand m : ℚ) * 2 ^ (-149 + (m / 8388608 - 1 : ℕ) : ℤ)
        ≤ 2 ^ 24 * 2 ^ (-149 + (m / 8388608 - 1 : ℕ) : ℤ) :=
          mul_le_mul_of_nonneg_right hlt (zpow_pos two_pos _).le
      _ = 2 ^ (24 + (-149 + (m / 8388608 - 1 : ℕ)) : ℤ) := by
          rw [zpow_add₀ two_ne_zero 24]; norm_cast
      _ ≤ 2 ^ (23 + (-149 + (n / 8388608 - 1 : ℕ)) : ℤ) :=
          zpow_le_zpow_right₀ one_le_two (by omega)
      _ = 2 ^ 23 * 2 ^ (-149 + (n / 8388608 - 1 : ℕ) : ℤ) := by
          rw [zpow_add₀ two_ne_zero 23]; norm_cast
      _ ≤ single.significand n * 2 ^ (-149 + (n / 8388608 - 1 : ℕ) : ℤ) :=
          mul_le_mul_of_nonneg_right hfull' (zpow_pos two_pos _).le

/-- A whole number moved up until its leading bit is the 24th. -/
theorem mul_two_pow_log2 {k : ℕ} (hk : 0 < k) (hlt : k < 2 ^ 24) :
    2 ^ 23 ≤ k * 2 ^ (23 - k.log2) ∧ k * 2 ^ (23 - k.log2) < 2 ^ 24 := by
  have hlog : k.log2 < 24 := (Nat.log2_lt hk.ne').2 hlt
  have hlower : 2 ^ k.log2 ≤ k := (Nat.le_log2 hk.ne').1 le_rfl
  have hupper : k < 2 ^ (k.log2 + 1) := (Nat.log2_lt hk.ne').1 (Nat.lt_succ_self _)
  constructor
  · calc 2 ^ 23 = 2 ^ k.log2 * 2 ^ (23 - k.log2) := by rw [← pow_add]; congr 1; omega
      _ ≤ k * 2 ^ (23 - k.log2) := Nat.mul_le_mul_right _ hlower
  · calc k * 2 ^ (23 - k.log2) < 2 ^ (k.log2 + 1) * 2 ^ (23 - k.log2) :=
          Nat.mul_lt_mul_of_pos_right hupper (Nat.two_pow_pos _)
      _ = 2 ^ 24 := by rw [← pow_add]; congr 1; omega

theorem binaryMagnitude_one {k : ℕ} (hk : 0 < k) : binaryMagnitude k 1 = k.log2 := by
  have hle : 1 * pow2 (k.log2 : ℤ).toNat ≤ k * pow2 (-(k.log2 : ℤ)).toNat := by
    have hpow : 2 ^ k.log2 ≤ k := (Nat.le_log2 hk.ne').1 le_rfl
    rw [show (-(k.log2 : ℤ)).toNat = 0 by omega, Int.toNat_natCast]
    simpa [pow2] using hpow
  have hone : (1 : ℕ).log2 = 0 := rfl
  simp only [binaryMagnitude, hone, Nat.cast_zero, sub_zero]
  rw [if_pos hle]

/-- The pattern of a whole number that needs no rounding. -/
theorem nearest_one {k : ℕ} (hk : 0 < k) (hlt : k < 2 ^ 24) :
    single.nearest k 1 = (k.log2 + 126) * 8388608 + k * 2 ^ (23 - k.log2) := by
  have hlog : k.log2 < 24 := (Nat.log2_lt hk.ne').2 hlt
  have hplace : max ((k.log2 : ℤ) - 23) (-149) = (k.log2 : ℤ) - 23 := by omega
  have hdown : (-((k.log2 : ℤ) - 23)).toNat = 23 - k.log2 := by omega
  have hup : ((k.log2 : ℤ) - 23).toNat = 0 := by omega
  have hsteps : ((k.log2 : ℤ) - 23 - -149).toNat = k.log2 + 126 := by omega
  have hfraction : ((single.fractionBits : ℕ) : ℤ) = 23 := rfl
  have hscaled := (mul_two_pow_log2 hk hlt).2
  rw [nearest, if_neg hk.ne', binaryMagnitude_one hk, single_lowestExponent,
    single_infinityPattern, hfraction, hplace]
  dsimp only
  rw [hdown, hup, hsteps]
  have hrounded : roundedQuotient (k * pow2 (23 - k.log2)) (1 * pow2 0) =
      k * 2 ^ (23 - k.log2) := by
    simp [roundedQuotient, pow2, Nat.mod_one]
  rw [hrounded, min_eq_left]
  · rfl
  · change (k.log2 + 126) * 8388608 + k * 2 ^ (23 - k.log2) ≤ 2139095040
    omega

theorem nearest_le (n d : ℕ) : single.nearest n d ≤ single.infinityPattern := by
  rw [nearest]
  split
  · exact Nat.zero_le _
  · exact min_le_right _ _

theorem write_finite_lt (negative : Bool) (m : ℕ) (e : ℤ) :
    single.write (.finite negative m e) < UInt32.size := by
  have hle := nearest_le (m * pow2 e.toNat) (pow2 (-e).toNat)
  rw [single_infinityPattern] at hle
  rw [write, single_signPattern, show UInt32.size = 4294967296 from rfl]
  split
  · omega
  · omega

/-- A whole number of up to 24 bits is written exactly. -/
theorem number?_read_write {k : ℕ} (negative : Bool) (hlt : k < 2 ^ 24) :
    (single.read (single.write (.finite negative k 0))).number? =
      some ((if negative then -k else k : ℤ) : ℚ) := by
  have hwrite : single.write (.finite negative k 0) =
      (if negative = true then 2147483648 else 0) + single.nearest k 1 := by
    have hk : single.nearest (k * 1) 1 = single.nearest k 1 := by rw [mul_one]
    exact congrArg _ hk
  rcases Nat.eq_zero_or_pos k with rfl | hk
  · cases negative <;> simp [hwrite, nearest, read, BinaryValue.number?, single_signPattern,
      single_infinityPattern, single_significand]
  · have hlog : k.log2 < 24 := (Nat.log2_lt hk.ne').2 hlt
    obtain ⟨hwlower, hwupper⟩ := mul_two_pow_log2 hk hlt
    obtain ⟨w, hw⟩ : ∃ w, k * 2 ^ (23 - k.log2) = w := ⟨_, rfl⟩
    rw [hw] at hwlower hwupper
    have hnearest : single.nearest k 1 = (k.log2 + 126) * 8388608 + w := by
      rw [nearest_one hk hlt, hw]
    obtain ⟨n, hn⟩ : ∃ n, single.write (.finite negative k 0) = n := ⟨_, rfl⟩
    have hpattern : n % 2147483648 = (k.log2 + 126) * 8388608 + w := by
      rw [← hn, hwrite, hnearest]
      split
      · omega
      · omega
    have hsign : decide (2147483648 ≤ n) = negative := by
      rw [← hn, hwrite, hnearest]
      cases negative
      · exact decide_eq_false (by simp; omega)
      · exact decide_eq_true (by simp)
    have hsignificand : single.significand (n % 2147483648) = w := by
      rw [single_significand, if_neg (by omega)]
      omega
    have hexponent : single.exponent (n % 2147483648) = (k.log2 : ℤ) - 23 := by
      rw [single_exponent]
      omega
    have hvalue : (w : ℚ) * 2 ^ ((k.log2 : ℤ) - 23) = k := by
      rw [← hw, Nat.cast_mul, Nat.cast_pow, Nat.cast_ofNat, mul_assoc, ← zpow_natCast,
        ← zpow_add₀ two_ne_zero, show ((23 - k.log2 : ℕ) : ℤ) + (k.log2 - 23) = 0 by omega,
        zpow_zero, mul_one]
    rw [hn, read, single_signPattern, single_infinityPattern, if_pos (by omega), hsign,
      hsignificand, hexponent, BinaryValue.number?]
    cases negative
    · simp [hvalue]
    · simp [hvalue]

end BinaryFormat

/-- A number is an integer or a fraction by a power of two. -/
theorem mul_two_zpow_of_neg {m : ℕ} {e : ℤ} (he : e < 0) :
    (m : ℚ) * 2 ^ e = m / (2 ^ (-e).toNat : ℕ) := by
  rw [Nat.cast_pow, Nat.cast_ofNat, ← zpow_natCast, Int.toNat_of_nonneg (by omega), zpow_neg,
    div_inv_eq_mul]

theorem mul_two_zpow_of_nonneg {m : ℕ} {e : ℤ} (he : 0 ≤ e) :
    (m : ℚ) * 2 ^ e = (m * 2 ^ e.toNat : ℕ) := by
  rw [Nat.cast_mul, Nat.cast_pow, Nat.cast_ofNat, ← zpow_natCast, Int.toNat_of_nonneg he]

theorem floor_neg_div {m u : ℕ} (hu : 0 < u) :
    ⌊-((m : ℚ) / u)⌋ = -(((m + u - 1) / u : ℕ) : ℤ) := by
  have hupos : (0 : ℚ) < u := by exact_mod_cast hu
  have hdivision := Nat.div_add_mod (m + u - 1) u
  have hrest := Nat.mod_lt (m + u - 1) hu
  set c := (m + u - 1) / u with hc
  have hle : m ≤ u * c := by omega
  have hlt : u * c < m + u := by omega
  have hle' : (m : ℚ) ≤ u * c := by exact_mod_cast hle
  have hlt' : (u : ℚ) * c < m + u := by exact_mod_cast hlt
  rw [Int.floor_eq_iff]
  push_cast
  constructor
  · rw [neg_le_neg_iff, div_le_iff₀ hupos]
    linarith
  · rw [neg_lt, neg_add', neg_neg, lt_div_iff₀ hupos]
    linarith

theorem whole_part {m k : ℕ} {e : ℤ} (h : (m : ℚ) * 2 ^ e = k) :
    m * 2 ^ e.toNat / 2 ^ (-e).toNat = k := by
  rcases le_or_gt 0 e with he | he
  · rw [mul_two_zpow_of_nonneg he] at h
    rw [show (-e).toNat = 0 by omega, pow_zero, Nat.div_one]
    exact_mod_cast h
  · have hunit : 0 < 2 ^ (-e).toNat := Nat.two_pow_pos _
    rw [mul_two_zpow_of_neg he, div_eq_iff (by exact_mod_cast hunit.ne')] at h
    have hm : m = k * 2 ^ (-e).toNat := by exact_mod_cast h
    rw [show e.toNat = 0 by omega, pow_zero, mul_one, hm, Nat.mul_div_cancel _ hunit]

namespace Denotes

open BinaryFormat

variable {x y : Float32} {p q : ℚ}

theorem iff_value : Denotes x q ↔ (Single.value x).number? = some q := by
  rw [Single.value, Denotes]
  have hread := number?_read x.toBits.toBitVec
  rw [show (single.read x.toBits.toNat).number? = number? x.toModel.unpack from hread]

theorem exists_value (h : Denotes x q) : ∃ negative m e,
    Single.value x = .finite negative m e ∧ m < 2 ^ 24 ∧
      q = ((if negative then -m else m : ℤ) : ℚ) * 2 ^ e := by
  rw [iff_value, Single.value, BinaryFormat.read] at h
  split at h
  · next hfinite =>
    rw [BinaryValue.number?, Option.some.injEq] at h
    refine ⟨_, _, _, ?_, significand_lt _, h.symm⟩
    rw [Single.value, BinaryFormat.read, if_pos hfinite]
  · split at h
    · cases h
    · cases h

/-- The pattern of a finite number is kept. -/
theorem ofBits {b : UInt32} (h : (single.read b.toNat).number? = some q) :
    Denotes (Float32.ofBits b) q := by
  have hstored : stored? (UnpackedFloat.unpack .binary32 b.toBitVec) = some q := by
    rw [show (single.read b.toNat).number? = number? (UnpackedFloat.unpack .binary32 b.toBitVec)
      from number?_read b.toBitVec] at h
    cases hu : UnpackedFloat.unpack .binary32 b.toBitVec with
    | zero s =>
      rw [hu] at h
      rw [stored?_zero, ← h]
      rfl
    | finite s m e hm =>
      rw [hu] at h
      rw [stored?_finite s (isCanonical_of_unpack hu), ← h]
      rfl
    | infinity | notANumber =>
      rw [hu] at h
      cases h
  exact hstored

theorem ofValue {k : ℕ} (negative : Bool) (hlt : k < 2 ^ 24) :
    Denotes (Single.ofValue (.finite negative k 0)) ((if negative then -k else k : ℤ) : ℚ) := by
  have hnat : (UInt32.ofNat (single.write (.finite negative k 0))).toNat =
      single.write (.finite negative k 0) :=
    UInt32.toNat_ofNat_of_lt' (write_finite_lt negative k 0)
  refine ofBits ?_
  rw [hnat]
  exact number?_read_write negative hlt

theorem ofInt {n : ℤ} (hlt : n.natAbs < 2 ^ 24) : Denotes (Single.ofInt n) n := by
  have hvalue := ofValue (decide (n < 0)) hlt
  have hn : (if decide (n < 0) = true then -(n.natAbs : ℤ) else n.natAbs) = n := by
    by_cases h : n < 0
    · rw [if_pos (decide_eq_true h)]
      omega
    · rw [if_neg (by simpa using h)]
      omega
  rw [hn] at hvalue
  exact hvalue

theorem floor (h : Denotes x q) : Denotes (Single.floor x) (⌊q⌋ : ℤ) := by
  obtain ⟨negative, m, e, hvalue, hlt, hq⟩ := h.exists_value
  rw [Single.floor, hvalue]
  dsimp only
  split
  · next he =>
    have hinteger := mul_two_zpow_of_nonneg (m := m) he
    obtain ⟨z, hz⟩ : ∃ z : ℤ, q = z := by
      cases negative
      · exact ⟨(m * 2 ^ e.toNat : ℕ), by simpa [hq] using hinteger⟩
      · exact ⟨-(m * 2 ^ e.toNat : ℕ), by simpa [hq] using hinteger⟩
    rw [hz, Int.floor_intCast, ← hz]
    exact h
  next he =>
  rw [not_le] at he
  have hunit : 0 < 2 ^ (-e).toNat := Nat.two_pow_pos _
  have hfraction := mul_two_zpow_of_neg (m := m) he
  cases negative
  · have hfloor : ⌊q⌋ = ((m / 2 ^ (-e).toNat : ℕ) : ℤ) := by
      rw [hq]
      simp only [Bool.false_eq_true, if_false, Int.cast_natCast]
      rw [hfraction, ← Nat.floor_div_eq_div (K := ℚ), Int.natCast_floor_eq_floor (by positivity)]
    rw [hfloor]
    exact ofValue false ((Nat.div_le_self _ _).trans_lt hlt)
  · have hfloor : ⌊q⌋ = -(((m + 2 ^ (-e).toNat - 1) / 2 ^ (-e).toNat : ℕ) : ℤ) := by
      rw [hq, ← floor_neg_div hunit, ← hfraction]
      simp
    have hsmall : (m + 2 ^ (-e).toNat - 1) / 2 ^ (-e).toNat < 2 ^ 24 := by
      rw [Nat.div_lt_iff_lt_mul hunit]
      omega
    rw [hfloor]
    exact ofValue true hsmall

theorem ceil (h : Denotes x q) : Denotes (Scalar.ceil x) (⌈q⌉ : ℤ) := by
  have hfloor := h.neg.floor.neg
  rw [Int.floor_neg, Int.cast_neg, neg_neg] at hfloor
  exact hfloor

theorem toInt {n : ℤ} (h : Denotes x n) (hlow : -2147483648 ≤ n) (hhigh : n ≤ 2147483647) :
    Single.toInt x = n := by
  obtain ⟨negative, m, e, hvalue, -, hq⟩ := h.exists_value
  have habs : (m : ℚ) * 2 ^ e = n.natAbs := by
    rw [Nat.cast_natAbs, Int.cast_abs, hq]
    cases negative
    · simp
    · simp
  have hwhole : ((m * pow2 e.toNat / pow2 (-e).toNat : ℕ) : ℤ) = n.natAbs :=
    congrArg Nat.cast (whole_part habs)
  rw [Single.toInt, hvalue]
  dsimp only
  rw [hwhole]
  cases negative
  · have hcast : (n : ℚ) = (n.natAbs : ℤ) := by
      rw [Int.cast_natCast, ← habs, hq]
      simp
    have hn : n = n.natAbs := Int.cast_injective hcast
    simp only [Bool.false_eq_true, if_false]
    omega
  · have hcast : (n : ℚ) = (-(n.natAbs : ℤ) : ℤ) := by
      rw [Int.cast_neg, Int.cast_natCast, ← habs, hq]
      simp
    have hn : n = -(n.natAbs : ℤ) := Int.cast_injective hcast
    simp only [if_true]
    omega

theorem eq_pattern (h : Denotes x q) :
    let pattern := x.toBits.toNat % 2147483648
    let magnitude : ℚ := single.significand pattern * 2 ^ single.exponent pattern
    q = if x.toBits.toNat < 2147483648 then magnitude else -magnitude := by
  rw [iff_value, Single.value, BinaryFormat.read, single_signPattern] at h
  split at h
  · rw [BinaryValue.number?, Option.some.injEq] at h
    dsimp only
    rw [← h]
    by_cases hsign : x.toBits.toNat < 2147483648
    · simp [hsign, not_le.2 hsign]
    · simp [hsign, not_lt.1 hsign]
  · split at h
    · cases h
    · cases h

/-- The sorting order places greater numbers later. -/
theorem rank_lt_rank (hx : Denotes x p) (hy : Denotes y q) (h : p < q) :
    Single.rank x < Single.rank y := by
  have hp := hx.eq_pattern
  have hq := hy.eq_pattern
  dsimp only at hp hq
  obtain ⟨m, hm⟩ : ∃ m, x.toBits.toNat = m := ⟨_, rfl⟩
  obtain ⟨n, hn⟩ : ∃ n, y.toBits.toNat = n := ⟨_, rfl⟩
  rw [hm] at hp
  rw [hn] at hq
  rw [Single.rank, Single.rank, hm, hn]
  have hnonneg (k : ℕ) : (0 : ℚ) ≤ single.significand k * 2 ^ single.exponent k :=
    mul_nonneg (Nat.cast_nonneg _) (zpow_pos two_pos _).le
  have hmpos := hnonneg (m % 2147483648)
  have hnpos := hnonneg (n % 2147483648)
  have hmsize : m < 4294967296 := hm ▸ x.toBits.toNat_lt
  have hnsize : n < 4294967296 := hn ▸ y.toBits.toNat_lt
  by_cases hmsign : m < 2147483648
  · rw [if_pos hmsign] at hp
    by_cases hnsign : n < 2147483648
    · rw [if_pos hnsign] at hq
      have hlt : m % 2147483648 < n % 2147483648 := by
        by_contra hle
        have := significand_mul_le (not_lt.1 hle)
        linarith
      simp only [if_pos hmsign, if_pos hnsign]
      omega
    · rw [if_neg hnsign] at hq
      linarith
  · rw [if_neg hmsign] at hp
    by_cases hnsign : n < 2147483648
    · simp only [if_neg hmsign, if_pos hnsign]
      omega
    · rw [if_neg hnsign] at hq
      have hlt : n % 2147483648 < m % 2147483648 := by
        by_contra hle
        have := significand_mul_le (not_lt.1 hle)
        linarith
      simp only [if_neg hmsign, if_neg hnsign]
      omega

end Denotes

end DistantChunks
