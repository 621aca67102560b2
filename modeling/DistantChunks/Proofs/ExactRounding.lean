import Mathlib

/-!
# Rounding what need not be rounded

An unpacked number stands for a rational. Rounding to single precision leaves a number alone that
has 24 significant bits and an exponent in range, in whatever form it is given, and packing and
unpacking it leaves it alone as well. So an operation is exact wherever its exact result is such a
number, and comparing two of them compares the rationals. The laws of packed numbers that this
rests on are those of the library, and only the whole of it brings them.
-/

namespace DistantChunks

open Float.Model Float.Model.UnpackedFloat

/-- The rational that an unpacked number stands for. -/
def number? : UnpackedFloat → Option ℚ
  | .zero _ => some 0
  | .finite s m e _ => some (((s.apply m : ℤ) : ℚ) * 2 ^ e)
  | .infinity _ | .notANumber => none

/-- The significand and the exponent of a number as single precision holds it. -/
structure IsCanonical (m : ℕ) (e : ℤ) : Prop where
  pos : 0 < m
  lt : m < 2 ^ 24
  le_exponent : -149 ≤ e
  exponent_le : e ≤ 104
  full : 2 ^ 23 ≤ m ∨ e = -149

/-- A rational that single precision holds exactly. -/
def IsSingle (q : ℚ) : Prop :=
  ∃ (k : ℤ) (t : ℤ), q = k * 2 ^ t ∧ k.natAbs < 2 ^ 24 ∧ -149 ≤ t ∧ t ≤ 104

theorem targetExponent_eq (x : ℤ) : Format.binary32.targetExponent x = max (x - 24) (-149) := rfl

namespace IsCanonical

variable {m : ℕ} {e : ℤ}

theorem targetExponent (h : IsCanonical m e) :
    Format.binary32.targetExponent (totalExponent m e) = e := by
  have hne : m ≠ 0 := h.pos.ne'
  have hlt : m.log2 < 24 := (Nat.log2_lt hne).2 h.lt
  have hlow := h.le_exponent
  rw [targetExponent_eq, totalExponent]
  rcases h.full with hfull | rfl
  · have hle : 23 ≤ m.log2 := (Nat.le_log2 hne).2 hfull
    omega
  · omega

theorem value_pos (h : IsCanonical m e) : (0 : ℚ) < m * 2 ^ e :=
  mul_pos (by exact_mod_cast h.pos) (zpow_pos two_pos e)

theorem exists_mul_two_pow {k : ℕ} {t : ℤ} (hk : 0 < k) (hlt : k < 2 ^ 24) (hlow : -149 ≤ t)
    (hhigh : t ≤ 104) : ∃ d : ℕ, IsCanonical (k * 2 ^ d) (t - d) := by
  have hne : k ≠ 0 := hk.ne'
  have hlog : k.log2 < 24 := (Nat.log2_lt hne).2 hlt
  have hlower : 2 ^ k.log2 ≤ k := (Nat.le_log2 hne).1 le_rfl
  have hupper : k < 2 ^ (k.log2 + 1) := (Nat.log2_lt hne).1 (Nat.lt_succ_self _)
  set d := min (23 - k.log2) (t + 149).toNat with hd
  have hscaled : k * 2 ^ d < 2 ^ 24 := by
    calc k * 2 ^ d < 2 ^ (k.log2 + 1) * 2 ^ d :=
          Nat.mul_lt_mul_of_pos_right hupper (Nat.two_pow_pos d)
      _ = 2 ^ (k.log2 + 1 + d) := (pow_add _ _ _).symm
      _ ≤ 2 ^ 24 := Nat.pow_le_pow_right (by omega) (by omega)
  refine ⟨d, Nat.mul_pos hk (Nat.two_pow_pos d), hscaled, by omega, by omega, ?_⟩
  by_cases hcase : 23 - k.log2 ≤ (t + 149).toNat
  · left
    calc 2 ^ 23 = 2 ^ k.log2 * 2 ^ d := by rw [← pow_add]; congr 1; omega
      _ ≤ k * 2 ^ d := Nat.mul_le_mul_right _ hlower
  · right
    omega

end IsCanonical

theorem eq_mul_two_pow {m n : ℕ} {e t : ℤ} (hle : e ≤ t) (h : (m : ℚ) * 2 ^ e = n * 2 ^ t) :
    m = n * 2 ^ (t - e).toNat := by
  have hpow : (2 : ℚ) ^ t = 2 ^ (t - e).toNat * 2 ^ e := by
    rw [← zpow_natCast, ← zpow_add₀ two_ne_zero]
    congr 1
    omega
  rw [hpow, ← mul_assoc] at h
  have hcast := mul_right_cancel₀ (zpow_ne_zero e two_ne_zero) h
  exact_mod_cast hcast

section Shifting

theorem shiftRight_mul_two_pow (m d : ℕ) :
    (⟨m * 2 ^ d, false, false⟩ : ExtendedMantissa) >>> d = ⟨m, false, false⟩ := by
  change d.repeat ExtendedMantissa.shiftRightOne _ = _
  induction d generalizing m with
  | zero => simp [Nat.repeat]
  | succ d ih =>
    have hdouble : m * 2 ^ (d + 1) = (m * 2) * 2 ^ d := by ring
    rw [Nat.repeat, hdouble, ih]
    simp [ExtendedMantissa.shiftRightOne]

theorem totalExponent_mul_two_pow {m : ℕ} (hm : 0 < m) (d : ℕ) (e : ℤ) :
    totalExponent (m * 2 ^ d) e = totalExponent m (e + d) := by
  have hlog : (m * 2 ^ d).log2 = m.log2 + d := by
    have hpos := Nat.mul_pos hm (Nat.two_pow_pos d)
    rw [Nat.log2_eq_iff hpos.ne']
    have hlower : 2 ^ m.log2 ≤ m := (Nat.le_log2 hm.ne').1 le_rfl
    have hupper : m < 2 ^ (m.log2 + 1) := (Nat.log2_lt hm.ne').1 (Nat.lt_succ_self _)
    constructor
    · rw [pow_add]
      exact Nat.mul_le_mul_right _ hlower
    · rw [Nat.add_right_comm, pow_add]
      exact Nat.mul_lt_mul_of_pos_right hupper (Nat.two_pow_pos d)
  rw [totalExponent, totalExponent, hlog]
  push_cast
  ring

variable {m d : ℕ} {e t : ℤ}

theorem shiftToTargetExponent_mul_two_pow (h : IsCanonical m (e + d)) :
    shiftToTargetExponent .binary32 (m * 2 ^ d) e .exact = (⟨m, false, false⟩, e + d) := by
  have hamount : (e + d - e).toNat = d := by omega
  rw [shiftToTargetExponent, totalExponent_mul_two_pow h.pos, h.targetExponent, shiftToExponent]
  simp only [hamount, ExtendedMantissa.ofMantissaAndAccuracy, shiftRight_mul_two_pow]

theorem roundWithAccuracy_mul_two_pow (s : Sign) (h : IsCanonical m (e + d)) :
    roundWithAccuracy .binary32 s (m * 2 ^ d) e .exact = .finite s m (e + d) h.pos := by
  have hagain := shiftToTargetExponent_mul_two_pow (m := m) (d := 0) (e := e + d) (by simpa using h)
  rw [pow_zero, mul_one, Nat.cast_zero, add_zero] at hagain
  have hrounded : (⟨m, false, false⟩ : ExtendedMantissa).roundedMantissa = m := rfl
  simp only [roundWithAccuracy, shiftToTargetExponent_mul_two_pow h, hrounded, hagain]
  rw [dif_neg h.pos.ne']

/-- Rounding finds the canonical form of a number that has one. -/
theorem round_eq {n : ℕ} (s : Sign) (h : IsCanonical m t) (heq : (n : ℚ) * 2 ^ e = m * 2 ^ t) :
    UnpackedFloat.round .binary32 s n e = .finite s m t h.pos := by
  rcases le_total e t with hle | hle
  · have hn := eq_mul_two_pow hle heq
    obtain ⟨d, rfl⟩ := Int.le.dest hle
    rw [show (e + d - e).toNat = d by omega] at hn
    subst hn
    rw [UnpackedFloat.round, totalExponent_mul_two_pow h.pos, h.targetExponent, decreaseExponent]
    have hamount : (e - (e + d)).toNat = 0 := by omega
    simp only [hamount, Nat.shiftLeft_zero, Nat.cast_zero, sub_zero]
    exact roundWithAccuracy_mul_two_pow s h
  · have hm := eq_mul_two_pow hle heq.symm
    obtain ⟨d, rfl⟩ := Int.le.dest hle
    rw [show (t + d - t).toNat = d by omega] at hm
    have hn : 0 < n := by
      rcases Nat.eq_zero_or_pos n with rfl | hn
      · exact absurd h.pos (by simp [hm])
      · exact hn
    have htarget := h.targetExponent
    have hround := roundWithAccuracy_mul_two_pow (m := m) (d := 0) (e := t) s (by simpa using h)
    subst hm
    rw [totalExponent_mul_two_pow hn] at htarget
    have hamount : (t + d - t).toNat = d := by omega
    rw [UnpackedFloat.round, htarget, decreaseExponent]
    simp only [hamount, Nat.shiftLeft_eq, add_sub_cancel_right]
    simpa using hround

end Shifting

section Packing

theorem toNat_append_one (v : BitVec 23) : (1#1 ++ v).toNat = 2 ^ 23 + v.toNat := by
  rw [BitVec.toNat_append, ← Nat.shiftLeft_add_eq_or_of_lt v.isLt]
  rfl

theorem isCanonical_of_unpack {b : BitVec Format.binary32.numBits} {s : Sign} {m : ℕ} {e : ℤ}
    {hm : 0 < m} (h : unpack .binary32 b = .finite s m e hm) : IsCanonical m e := by
  have hexponent := (unpackExponent b).isLt
  have hmantissa := (unpackMantissa b).isLt
  have hbias : Format.binary32.exponentBias = 127 := rfl
  unfold UnpackedFloat.unpack at h
  dsimp only at h hexponent hmantissa
  split at h
  · split at h
    · cases h
    · cases h
  · next hfinite =>
    have hne : (unpackExponent b).toNat ≠ 255 := fun heq => hfinite (BitVec.eq_of_toNat_eq heq)
    split at h
    · next hzero =>
      split at h
      · cases h
      · injection h with _ hm' he
        rw [hzero, hbias] at he
        subst hm' he
        refine ⟨hm, by omega, by simp, by simp, .inr (by simp)⟩
    · next hnonzero =>
      have hpos : (unpackExponent b).toNat ≠ 0 := fun heq => hnonzero (BitVec.eq_of_toNat_eq heq)
      injection h with _ hm' he
      rw [toNat_append_one] at hm'
      rw [hbias] at he
      subst hm' he
      exact ⟨hm, by omega, by omega, by omega, .inl (by omega)⟩

theorem unpack_normal (s : Sign) {m n : ℕ} (hfull : 2 ^ 23 ≤ m) (hlt : m < 2 ^ 24) (hn : 0 < n)
    (hn' : n < 255) :
    unpack .binary32 (packComponents .binary32 s (BitVec.ofNat 8 n) (BitVec.ofNat 23 m)) =
      .finite s m (n - 150) (by omega) := by
  have hexponent : (BitVec.ofNat 8 n).toNat = n := by
    rw [BitVec.toNat_ofNat]
    omega
  have hmantissa : (BitVec.ofNat 23 m).toNat = m - 2 ^ 23 := by
    rw [BitVec.toNat_ofNat]
    omega
  have hnotall : BitVec.ofNat 8 n ≠ -1#8 :=
    ne_of_apply_ne BitVec.toNat (by rw [hexponent]; simp; omega)
  have hnotzero : BitVec.ofNat 8 n ≠ 0#8 :=
    ne_of_apply_ne BitVec.toNat (by rw [hexponent]; simp; omega)
  have hbias : Format.binary32.exponentBias = 127 := rfl
  unfold UnpackedFloat.unpack
  simp only [unpackExponent_packComponents, unpackMantissa_packComponents,
    unpackSign_packComponents, Sign.ofBitVec_toBitVec]
  rw [if_neg hnotall, if_neg hnotzero]
  congr 1
  · rw [toNat_append_one, hmantissa]
    omega
  · rw [hexponent, hbias]
    omega

theorem unpack_subnormal (s : Sign) {m : ℕ} (hpos : 0 < m) (hlt : m < 2 ^ 23) :
    unpack .binary32 (packComponents .binary32 s 0#8 (BitVec.ofNat 23 m)) =
      .finite s m (-149) hpos := by
  have hmantissa : (BitVec.ofNat 23 m).toNat = m := by
    rw [BitVec.toNat_ofNat]
    omega
  have hnonzero : BitVec.ofNat 23 m ≠ 0#23 :=
    ne_of_apply_ne BitVec.toNat (by rw [hmantissa]; simpa using hpos.ne')
  unfold UnpackedFloat.unpack
  simp only [unpackExponent_packComponents, unpackMantissa_packComponents,
    unpackSign_packComponents, Sign.ofBitVec_toBitVec]
  rw [if_neg (by decide), if_pos trivial, dif_neg hnonzero]
  congr 1

theorem unpack_pack_finite (s : Sign) {m : ℕ} {e : ℤ} (h : IsCanonical m e) :
    unpack .binary32 (UnpackedFloat.pack .binary32 (.finite s m e h.pos)) =
      .finite s m e h.pos := by
  have hlow := h.le_exponent
  have hhigh := h.exponent_le
  have hne : m ≠ 0 := h.pos.ne'
  have hbias : Format.binary32.exponentBias = 127 := rfl
  have hbits : Format.binary32.mantissaBits = 24 := rfl
  obtain ⟨n, hn⟩ : ∃ n : ℕ, (e + 127 + 23).toNat = n := ⟨_, rfl⟩
  unfold UnpackedFloat.pack
  dsimp only
  simp only [hbias, Nat.cast_ofNat, hn]
  rw [if_neg (by omega)]
  by_cases hfull : 2 ^ 23 ≤ m
  · have hlog : m.log2 = 23 := (Nat.log2_eq_iff hne).2 ⟨hfull, h.lt⟩
    rw [if_pos (by rw [hlog, hbits])]
    refine (unpack_normal s hfull h.lt (by omega) (by omega)).trans ?_
    congr 1
    omega
  · obtain rfl : e = -149 := h.full.resolve_left hfull
    have hlog : m.log2 < 23 := (Nat.log2_lt hne).2 (by omega)
    rw [if_neg (by rw [hbits]; omega)]
    exact unpack_subnormal s h.pos (by omega)

end Packing

/-- What is left of an unpacked number when it is stored and loaded again. -/
def stored? (u : UnpackedFloat) : Option ℚ :=
  number? (UnpackedFloat.unpack .binary32 (UnpackedFloat.pack .binary32 u))

theorem stored?_zero (s : Sign) : stored? (.zero s) = some 0 := by
  have hzero : UnpackedFloat.unpack .binary32 (UnpackedFloat.pack .binary32 (.zero s)) = .zero s :=
    unpack_packedZero
  rw [stored?, hzero]
  rfl

theorem stored?_finite (s : Sign) {m : ℕ} {e : ℤ} (h : IsCanonical m e) :
    stored? (.finite s m e h.pos) = some (((s.apply m : ℤ) : ℚ) * 2 ^ e) := by
  rw [stored?, unpack_pack_finite s h]
  rfl

theorem abs_apply (s : Sign) (n : ℕ) : |((s.apply n : ℤ) : ℚ)| = n := by
  cases s <;> simp [Sign.apply]

section Exact

variable {q : ℚ} {e : ℤ}

theorem IsSingle.exists_canonical (hq : IsSingle q) (hne : q ≠ 0) :
    ∃ m t, IsCanonical m t ∧ |q| = m * 2 ^ t := by
  obtain ⟨k, t, rfl, hlt, hlow, hhigh⟩ := hq
  have hk : 0 < k.natAbs := Int.natAbs_pos.2 fun hzero => hne (by rw [hzero]; simp)
  obtain ⟨d, hd⟩ := IsCanonical.exists_mul_two_pow hk hlt hlow hhigh
  refine ⟨_, _, hd, ?_⟩
  have hexponent : (t : ℤ) = d + (t - d) := by omega
  have hpow : |(2 : ℚ) ^ t| = 2 ^ t := abs_of_pos (zpow_pos two_pos t)
  rw [abs_mul, hpow, ← Int.cast_abs, ← Nat.cast_natAbs, Nat.cast_mul,
    mul_assoc, Nat.cast_pow, Nat.cast_ofNat, ← zpow_natCast, ← zpow_add₀ two_ne_zero, ← hexponent]

theorem abs_apply_mul (s : Sign) (n : ℕ) (e : ℤ) :
    |((s.apply n : ℤ) : ℚ) * 2 ^ e| = n * 2 ^ e := by
  rw [abs_mul, abs_apply, abs_of_pos (zpow_pos two_pos e)]

theorem apply_div_mul (s z : Sign) {k m n : ℕ} {e r t : ℤ}
    (h : (m : ℚ) * 2 ^ e / (n * 2 ^ t) = k * 2 ^ r) :
    ((s.apply m : ℤ) : ℚ) * 2 ^ e / ((z.apply n : ℤ) * 2 ^ t) = ((s / z).apply k : ℤ) * 2 ^ r := by
  cases s <;> cases z
  · change ((-m : ℤ) : ℚ) * 2 ^ e / ((-n : ℤ) * 2 ^ t) = (k : ℤ) * 2 ^ r
    simpa [neg_div_neg_eq] using h
  · change ((-m : ℤ) : ℚ) * 2 ^ e / ((n : ℤ) * 2 ^ t) = (-k : ℤ) * 2 ^ r
    simpa [neg_div] using h
  · change ((m : ℤ) : ℚ) * 2 ^ e / ((-n : ℤ) * 2 ^ t) = (-k : ℤ) * 2 ^ r
    simpa [div_neg] using h
  · change ((m : ℤ) : ℚ) * 2 ^ e / ((n : ℤ) * 2 ^ t) = (k : ℤ) * 2 ^ r
    simpa using h

theorem apply_mul_congr (s : Sign) {m n : ℕ} {t : ℤ} (h : (n : ℚ) * 2 ^ e = m * 2 ^ t) :
    ((s.apply n : ℤ) : ℚ) * 2 ^ e = (s.apply m : ℤ) * 2 ^ t := by
  cases s with
  | positive => simpa [Sign.apply] using h
  | negative => simpa [Sign.apply] using h

theorem stored?_round (s : Sign) {n : ℕ} (hn : 0 < n) (hq : IsSingle q)
    (h : ((s.apply n : ℤ) : ℚ) * 2 ^ e = q) :
    stored? (UnpackedFloat.round .binary32 s n e) = some q := by
  have habs : |q| = n * 2 ^ e := by rw [← h, abs_apply_mul]
  have hcast : (0 : ℚ) < n := by exact_mod_cast hn
  have hne : q ≠ 0 := abs_pos.1 (habs ▸ mul_pos hcast (zpow_pos two_pos e))
  obtain ⟨m, t, hm, heq⟩ := hq.exists_canonical hne
  rw [habs] at heq
  rw [round_eq s hm heq, stored?_finite s hm, ← h, apply_mul_congr s heq]

/-- A sum or a difference of numbers with a common exponent is exact if it can be. -/
theorem stored?_normalize {n : ℤ} (z : Sign) (hq : IsSingle q) (h : (n : ℚ) * 2 ^ e = q) :
    stored? (UnpackedFloat.normalize .binary32 n e z) = some q := by
  unfold UnpackedFloat.normalize
  rcases lt_trichotomy n 0 with hn | rfl | hn
  · rw [compare_lt_iff_lt.2 hn]
    refine stored?_round .negative (by omega) hq ?_
    rw [← h, Sign.apply, Int.toNat_of_nonneg (by omega), neg_neg]
  · rw [Int.cast_zero, zero_mul] at h
    rw [compare_eq_iff_eq.2 rfl, ← h]
    exact stored?_zero z
  · rw [compare_gt_iff_gt.2 hn]
    refine stored?_round .positive (by omega) hq ?_
    rw [← h, Sign.apply, Int.toNat_of_nonneg hn.le]

variable {m n : ℕ} {t : ℤ}

theorem decreaseExponent_mul (m : ℕ) (hle : t ≤ e) :
    ((decreaseExponent m e t).1 : ℚ) * 2 ^ t = m * 2 ^ e := by
  have hpow : (2 : ℚ) ^ e = 2 ^ (e - t).toNat * 2 ^ t := by
    rw [← zpow_natCast, ← zpow_add₀ two_ne_zero]
    congr 1
    omega
  rw [decreaseExponent, hpow, Nat.shiftLeft_eq]
  push_cast
  ring

theorem quotient_exponent_le {k : ℕ} {r : ℤ} (hm : 0 < m) (hn : 0 < n) (hk : IsCanonical k r)
    (h : (m : ℚ) * 2 ^ e = k * 2 ^ r * (n * 2 ^ t)) :
    Format.binary32.targetExponent (totalExponent m e - totalExponent n t) ≤ r := by
  have hlower : ((2 ^ m.log2 : ℕ) : ℚ) ≤ m := by
    exact_mod_cast (Nat.le_log2 hm.ne').1 le_rfl
  have hupper : (n : ℚ) < ((2 ^ (n.log2 + 1) : ℕ) : ℚ) := by
    exact_mod_cast (Nat.log2_lt hn.ne').1 (Nat.lt_succ_self _)
  have hlt : (k : ℚ) < ((2 ^ 24 : ℕ) : ℚ) := by exact_mod_cast hk.lt
  have hpos : (0 : ℚ) < k := by exact_mod_cast hk.pos
  have hpow (x : ℤ) : (0 : ℚ) < 2 ^ x := zpow_pos two_pos x
  have hnat (a : ℕ) : ((2 ^ a : ℕ) : ℚ) = 2 ^ (a : ℤ) := by
    rw [zpow_natCast, Nat.cast_pow, Nat.cast_ofNat]
  have hbound : (2 : ℚ) ^ ((m.log2 : ℤ) + e) < 2 ^ ((24 : ℤ) + r + (n.log2 + 1 + t)) := by
    calc (2 : ℚ) ^ ((m.log2 : ℤ) + e) = ((2 ^ m.log2 : ℕ) : ℚ) * 2 ^ e := by
          rw [hnat, zpow_add₀ two_ne_zero]
      _ ≤ m * 2 ^ e := mul_le_mul_of_nonneg_right hlower (hpow e).le
      _ = k * 2 ^ r * (n * 2 ^ t) := h
      _ < ((2 ^ 24 : ℕ) : ℚ) * 2 ^ r * (((2 ^ (n.log2 + 1) : ℕ) : ℚ) * 2 ^ t) := by
          have hleft := mul_lt_mul_of_pos_right hlt (hpow r)
          have hright := mul_lt_mul_of_pos_right hupper (hpow t)
          exact mul_lt_mul'' hleft hright (mul_pos hpos (hpow r)).le (by have := hpow t; positivity)
      _ = 2 ^ ((24 : ℤ) + r + (n.log2 + 1 + t)) := by
          rw [hnat, hnat, ← zpow_add₀ two_ne_zero, ← zpow_add₀ two_ne_zero,
            ← zpow_add₀ two_ne_zero]
          rfl
  have hexponents := (zpow_lt_zpow_iff_right₀ one_lt_two).1 hbound
  have hlow := hk.le_exponent
  rw [targetExponent_eq, totalExponent, totalExponent]
  omega

/-- A quotient is exact if it can be. -/
theorem stored?_div {s z : Sign} (hm : 0 < m) (hn : 0 < n) (hq : IsSingle q)
    (h : (((s.apply m : ℤ) : ℚ) * 2 ^ e) / (((z.apply n : ℤ) : ℚ) * 2 ^ t) = q) :
    stored? (UnpackedFloat.div .binary32 (.finite s m e hm) (.finite z n t hn)) = some q := by
  have hpow (x : ℤ) : (0 : ℚ) < 2 ^ x := zpow_pos two_pos x
  have hmpos : (0 : ℚ) < m * 2 ^ e := mul_pos (by exact_mod_cast hm) (hpow e)
  have hnpos : (0 : ℚ) < n * 2 ^ t := mul_pos (by exact_mod_cast hn) (hpow t)
  have habs : |q| = m * 2 ^ e / (n * 2 ^ t) := by
    rw [← h, abs_div, abs_apply_mul, abs_apply_mul]
  have hne : q ≠ 0 := abs_pos.1 (habs ▸ div_pos hmpos hnpos)
  obtain ⟨k, r, hk, heq⟩ := hq.exists_canonical hne
  rw [habs, div_eq_iff hnpos.ne'] at heq
  set x := min (e - t)
    (Format.binary32.targetExponent (totalExponent m e - totalExponent n t)) with hx
  have hxr : x ≤ r := (min_le_right _ _).trans (quotient_exponent_le hm hn hk heq)
  -- With enough places moved from the exponent to the dividend, the division leaves no rest.
  have hshifted : m <<< (e - t - x).toNat = n * k * 2 ^ (r - x).toNat := by
    refine eq_mul_two_pow hxr ?_
    have hexponent : e = (e - t - x).toNat + (x + t) := by omega
    rw [hexponent, zpow_add₀ two_ne_zero, zpow_add₀ two_ne_zero x, zpow_natCast] at heq
    rw [Nat.shiftLeft_eq]
    push_cast
    refine mul_right_cancel₀ (hpow t).ne' ?_
    linear_combination heq
  have hquotient : m <<< (e - t - x).toNat / n = k * 2 ^ (r - x).toNat := by
    rw [hshifted, mul_assoc]
    exact Nat.mul_div_cancel_left _ hn
  have hrest : m <<< (e - t - x).toNat % n = 0 := by
    rw [hshifted, mul_assoc]
    exact Nat.mul_mod_right _ _
  have hr : x + (r - x).toNat = r := by omega
  have hround := roundWithAccuracy_mul_two_pow (m := k) (d := (r - x).toNat) (e := x) (s / z)
    (by rw [hr]; exact hk)
  have hdiv : UnpackedFloat.div .binary32 (.finite s m e hm) (.finite z n t hn) =
      .finite (s / z) k r hk.pos := by
    simp only [UnpackedFloat.div, divCore, ← hx, hquotient, hrest, accuracyOfFraction, if_true]
    simpa only [hr] using hround
  rw [hdiv, stored?_finite (s / z) hk, ← h]
  have hvalue : (m : ℚ) * 2 ^ e / (n * 2 ^ t) = k * 2 ^ r := by
    rw [div_eq_iff hnpos.ne', heq]
  rw [apply_div_mul s z hvalue]

end Exact

section Order

variable {m n : ℕ} {e t : ℤ}

theorem IsCanonical.lt_of_exponent_lt (hm : IsCanonical m e) (hn : IsCanonical n t) (h : e < t) :
    (m : ℚ) * 2 ^ e < n * 2 ^ t := by
  have hlow := hm.le_exponent
  have hfull : 2 ^ 23 ≤ n := hn.full.resolve_right (by omega)
  have hlt : (m : ℚ) < 2 ^ 24 := by exact_mod_cast hm.lt
  have hle : ((2 : ℚ) ^ 23) ≤ n := by exact_mod_cast hfull
  calc (m : ℚ) * 2 ^ e < 2 ^ 24 * 2 ^ e := mul_lt_mul_of_pos_right hlt (zpow_pos two_pos e)
    _ = 2 ^ (24 + e) := by rw [zpow_add₀ two_ne_zero]; norm_cast
    _ ≤ 2 ^ (23 + t) := zpow_le_zpow_right₀ one_le_two (by omega)
    _ = 2 ^ 23 * 2 ^ t := by rw [zpow_add₀ two_ne_zero]; norm_cast
    _ ≤ n * 2 ^ t := mul_le_mul_of_nonneg_right hle (zpow_pos two_pos t).le

theorem IsCanonical.compare_eq (hm : IsCanonical m e) (hn : IsCanonical n t) :
    (compare e t).then (compare m n) = compare ((m : ℚ) * 2 ^ e) (n * 2 ^ t) := by
  rcases lt_trichotomy e t with h | rfl | h
  · rw [compare_lt_iff_lt.2 h, compare_lt_iff_lt.2 (hm.lt_of_exponent_lt hn h)]
    rfl
  · have hpow : (0 : ℚ) < 2 ^ e := zpow_pos two_pos e
    rw [compare_eq_iff_eq.2 rfl]
    rcases lt_trichotomy m n with hlt | rfl | hlt
    · have hcast : (m : ℚ) < n := by exact_mod_cast hlt
      rw [compare_lt_iff_lt.2 hlt, compare_lt_iff_lt.2 (mul_lt_mul_of_pos_right hcast hpow)]
      rfl
    · rw [compare_eq_iff_eq.2 rfl, compare_eq_iff_eq.2 rfl]
      rfl
    · have hcast : (n : ℚ) < m := by exact_mod_cast hlt
      rw [compare_gt_iff_gt.2 hlt, compare_gt_iff_gt.2 (mul_lt_mul_of_pos_right hcast hpow)]
      rfl
  · rw [compare_gt_iff_gt.2 h, compare_gt_iff_gt.2 (hn.lt_of_exponent_lt hm h)]
    rfl

end Order

end DistantChunks
