import DistantChunks.Proofs.ExactSingle

/-!
# Rounding does not cross a number

A quotient of positive numbers, the first not less than the second, is at least one after it has
been rounded, since one is a number of single precision itself. For the same reason a whole number
that is rounded on conversion does not get above a number that it was not above before.
-/

namespace DistantChunks

open Float.Model Float.Model.UnpackedFloat

theorem mantissa_shiftRight (em : ExtendedMantissa) (d : ℕ) :
    (em >>> d).mantissa = em.mantissa / 2 ^ d := by
  change (d.repeat ExtendedMantissa.shiftRightOne em).mantissa = _
  induction d with
  | zero => rw [Nat.repeat, pow_zero, Nat.div_one]
  | succ d ih =>
    rw [Nat.repeat, ExtendedMantissa.shiftRightOne, ih, Nat.div_div_eq_div_mul, pow_succ]

theorem mantissa_ofMantissaAndAccuracy (m : ℕ) (a : Accuracy) :
    (ExtendedMantissa.ofMantissaAndAccuracy m a).mantissa = m := by
  cases a with
  | exact => rfl
  | inexact o => cases o <;> rfl

theorem roundedMantissa_bounds (em : ExtendedMantissa) :
    em.mantissa ≤ em.roundedMantissa ∧ em.roundedMantissa ≤ em.mantissa + 1 := by
  obtain ⟨m, round, sticky⟩ := em
  simp only [ExtendedMantissa.roundedMantissa]
  cases round with
  | false =>
    have hstays : (ExtendedMantissa.accuracy ⟨m, false, sticky⟩).roundToNearestEven m = m := by
      cases sticky <;> rfl
    omega
  | true =>
    cases sticky with
    | false =>
      have heven : (ExtendedMantissa.accuracy ⟨m, true, false⟩).roundToNearestEven m =
        m + m % 2 := rfl
      omega
    | true =>
      have hup : (ExtendedMantissa.accuracy ⟨m, true, true⟩).roundToNearestEven m = m + 1 := rfl
      omega

theorem mantissa_shiftToTargetExponent {m : ℕ} {e : ℤ} (hm : 2 ^ 23 ≤ m)
    (hlow : -126 ≤ m.log2 + e) (a : Accuracy) :
    (shiftToTargetExponent .binary32 m e a).1.mantissa = m / 2 ^ (m.log2 - 23) ∧
      (shiftToTargetExponent .binary32 m e a).2 = e + (m.log2 - 23 : ℕ) := by
  have hlog : 23 ≤ m.log2 := (Nat.le_log2 (by omega)).2 hm
  have htarget : Format.binary32.targetExponent (totalExponent m e) = e + (m.log2 - 23 : ℕ) := by
    rw [targetExponent_eq, totalExponent]
    omega
  have hamount : (e + (m.log2 - 23 : ℕ) - e).toNat = m.log2 - 23 := by omega
  rw [shiftToTargetExponent, htarget, shiftToExponent]
  simp only [hamount, mantissa_shiftRight, mantissa_ofMantissaAndAccuracy, true_and]

theorem div_two_pow_log2_bounds {m : ℕ} (hm : 2 ^ 23 ≤ m) :
    2 ^ 23 ≤ m / 2 ^ (m.log2 - 23) ∧ m / 2 ^ (m.log2 - 23) < 2 ^ 24 := by
  have hne : m ≠ 0 := by omega
  have hlog : 23 ≤ m.log2 := (Nat.le_log2 hne).2 hm
  have hlower : 2 ^ m.log2 ≤ m := (Nat.le_log2 hne).1 le_rfl
  have hupper : m < 2 ^ (m.log2 + 1) := (Nat.log2_lt hne).1 (Nat.lt_succ_self _)
  constructor
  · rw [Nat.le_div_iff_mul_le (Nat.two_pow_pos _), ← pow_add, Nat.add_sub_cancel' hlog]
    exact hlower
  · rw [Nat.div_lt_iff_lt_mul (Nat.two_pow_pos _), ← pow_add]
    exact hupper.trans_le (Nat.pow_le_pow_right (by omega) (by omega))

/-- A value from one up is rounded to a significand of 24 bits whose last place is not too low. -/
theorem exists_roundWithAccuracy {m : ℕ} {e : ℤ} (hm : 2 ^ 23 ≤ m) (hone : 0 ≤ m.log2 + e)
    (a : Accuracy) : ∃ n t, ∃ hn : 0 < n,
      roundWithAccuracy .binary32 .positive m e a = .finite .positive n t hn ∧
        2 ^ 23 ≤ n ∧ n < 2 ^ 24 ∧ -23 ≤ t := by
  have hlog : 23 ≤ m.log2 := (Nat.le_log2 (by omega)).2 hm
  obtain ⟨hmantissa, hexponent⟩ := mantissa_shiftToTargetExponent (e := e) hm (by omega) a
  obtain ⟨hfull, hshort⟩ := div_two_pow_log2_bounds hm
  obtain ⟨hle, hge⟩ := roundedMantissa_bounds (shiftToTargetExponent .binary32 m e a).1
  set r := (shiftToTargetExponent .binary32 m e a).1.roundedMantissa with hr
  set t := (shiftToTargetExponent .binary32 m e a).2 with ht
  have hrfull : 2 ^ 23 ≤ r := by omega
  have hrlog : 23 ≤ r.log2 := (Nat.le_log2 (by omega)).2 hrfull
  obtain ⟨hagain, hlast⟩ := mantissa_shiftToTargetExponent hrfull (e := t) (by omega) .exact
  obtain ⟨hlower, hupper⟩ := div_two_pow_log2_bounds hrfull
  refine ⟨r / 2 ^ (r.log2 - 23), t + (r.log2 - 23 : ℕ), by omega, ?_, hlower, hupper, by omega⟩
  rw [roundWithAccuracy]
  simp only [← hr, ← ht, hagain, hlast]
  rw [dif_neg (by omega)]

theorem pack_of_lt_exponent {m : ℕ} {e : ℤ} (hm : 0 < m) (he : 104 < e) :
    UnpackedFloat.pack .binary32 (.finite .positive m e hm) =
      packedInfinity .binary32 .positive := by
  have hbias : Format.binary32.exponentBias = 127 := rfl
  rw [UnpackedFloat.pack]
  dsimp only
  rw [if_pos (by rw [hbias]; omega)]

theorem unpack_packedInfinity :
    UnpackedFloat.unpack .binary32 (packedInfinity .binary32 .positive) = .infinity .positive := by
  rfl

namespace Denotes

variable {x y : Float32} {p q : ℚ}

theorem exists_unpack_of_pos (hx : Denotes x p) (hp : 0 < p) : ∃ m e, ∃ hm : IsCanonical m e,
    x.toModel.unpack = .finite .positive m e hm.pos ∧ p = m * 2 ^ e := by
  rcases hx.unpack_cases with ⟨s, -, rfl⟩ | ⟨s, m, e, hm, hux, rfl⟩
  · exact absurd hp (lt_irrefl 0)
  · cases s with
    | positive => exact ⟨m, e, hm, hux, by simp [Sign.apply]⟩
    | negative =>
      have hneg : ((Sign.apply .negative m : ℤ) : ℚ) * 2 ^ e = -(m * 2 ^ e) := by
        simp [Sign.apply]
      rw [hneg] at hp
      linarith [hm.value_pos]

section Quotient

variable {m n : ℕ} {e t : ℤ}

theorem totalExponent_le (hm : 0 < m) (hn : 0 < n) (h : (n : ℚ) * 2 ^ t ≤ m * 2 ^ e) :
    totalExponent n t ≤ totalExponent m e := by
  have hlower : ((2 ^ n.log2 : ℕ) : ℚ) ≤ n := by
    exact_mod_cast (Nat.le_log2 hn.ne').1 le_rfl
  have hupper : (m : ℚ) < ((2 ^ (m.log2 + 1) : ℕ) : ℚ) := by
    exact_mod_cast (Nat.log2_lt hm.ne').1 (Nat.lt_succ_self _)
  have hnat (a : ℕ) (x : ℤ) : ((2 ^ a : ℕ) : ℚ) * 2 ^ x = 2 ^ ((a : ℤ) + x) := by
    rw [zpow_add₀ two_ne_zero, zpow_natCast, Nat.cast_pow, Nat.cast_ofNat]
  have hpow (x : ℤ) : (0 : ℚ) < 2 ^ x := zpow_pos two_pos x
  have hlt : (2 : ℚ) ^ ((n.log2 : ℤ) + t) < 2 ^ (((m.log2 + 1 : ℕ) : ℤ) + e) := by
    calc (2 : ℚ) ^ ((n.log2 : ℤ) + t) = ((2 ^ n.log2 : ℕ) : ℚ) * 2 ^ t := (hnat _ _).symm
      _ ≤ n * 2 ^ t := mul_le_mul_of_nonneg_right hlower (hpow t).le
      _ ≤ m * 2 ^ e := h
      _ < ((2 ^ (m.log2 + 1) : ℕ) : ℚ) * 2 ^ e := mul_lt_mul_of_pos_right hupper (hpow e)
      _ = 2 ^ (((m.log2 + 1 : ℕ) : ℤ) + e) := hnat _ _
  have hexponents := (zpow_lt_zpow_iff_right₀ one_lt_two).1 hlt
  rw [totalExponent, totalExponent]
  push_cast at hexponents
  omega

/-- The dividend is moved far enough for a quotient of 24 bits, and none of its value is lost. -/
theorem divCore_bounds (hm : 0 < m) (hn : 0 < n) (h : (n : ℚ) * 2 ^ t ≤ m * 2 ^ e) :
    2 ^ 23 ≤ (divCore .binary32 m e n t).1 ∧
      0 ≤ (divCore .binary32 m e n t).1.log2 + (divCore .binary32 m e n t).2.1 := by
  have htotal := totalExponent_le hm hn h
  simp only [divCore]
  set w := min (e - t) (Format.binary32.targetExponent (totalExponent m e - totalExponent n t))
    with hw
  rw [targetExponent_eq] at hw
  rw [totalExponent, totalExponent] at hw htotal
  obtain ⟨s, hs⟩ : ∃ s : ℕ, (e - t - w).toNat = s := ⟨_, rfl⟩
  rw [hs, Nat.shiftLeft_eq]
  have hfull : 2 ^ 23 ≤ m * 2 ^ s / n := by
    have hlower : 2 ^ m.log2 ≤ m := (Nat.le_log2 hm.ne').1 le_rfl
    have hupper : n < 2 ^ (n.log2 + 1) := (Nat.log2_lt hn.ne').1 (Nat.lt_succ_self _)
    rw [Nat.le_div_iff_mul_le hn]
    calc 2 ^ 23 * n ≤ 2 ^ 23 * 2 ^ (n.log2 + 1) := Nat.mul_le_mul_left _ hupper.le
      _ = 2 ^ (23 + (n.log2 + 1)) := (pow_add _ _ _).symm
      _ ≤ 2 ^ (m.log2 + s) := Nat.pow_le_pow_right (by omega) (by omega)
      _ = 2 ^ m.log2 * 2 ^ s := pow_add _ _ _
      _ ≤ m * 2 ^ s := Nat.mul_le_mul_right _ hlower
  refine ⟨hfull, ?_⟩
  by_cases hsign : 0 ≤ w
  · omega
  have hscaled : 2 ^ (-w).toNat * n ≤ m * 2 ^ s := by
    have hpow : (0 : ℚ) < 2 ^ (-w - t) := zpow_pos two_pos _
    have hmoved := mul_le_mul_of_nonneg_right h hpow.le
    rw [mul_assoc, mul_assoc, ← zpow_add₀ two_ne_zero, ← zpow_add₀ two_ne_zero,
      show t + (-w - t) = ((-w).toNat : ℤ) by omega, show e + (-w - t) = (s : ℤ) by omega,
      zpow_natCast, zpow_natCast] at hmoved
    rw [mul_comm]
    exact_mod_cast hmoved
  have hlog : (-w).toNat ≤ (m * 2 ^ s / n).log2 :=
    (Nat.le_log2 (by omega)).2 ((Nat.le_div_iff_mul_le hn).2 hscaled)
  omega

end Quotient

/-- A quotient of a number by one that is not greater is at least one, whether it is rounded or
not. -/
theorem one_le_div (hx : Denotes x p) (hy : Denotes y q) (hq : 0 < q) (hle : q ≤ p) :
    1 ≤ x / y := by
  obtain ⟨m, e, hm, hux, rfl⟩ := hx.exists_unpack_of_pos (hq.trans_le hle)
  obtain ⟨n, t, hn, huy, rfl⟩ := hy.exists_unpack_of_pos hq
  obtain ⟨hfull, hone⟩ := divCore_bounds hm.pos hn.pos hle
  obtain ⟨k, r, hk, hround, hkfull, hklt, hr⟩ :=
    exists_roundWithAccuracy hfull hone (divCore .binary32 m e n t).2.2
  have hquotient : (x / y).toModel.unpack = UnpackedFloat.unpack .binary32
      (UnpackedFloat.pack .binary32 (.finite .positive k r hk)) := by
    change UnpackedFloat.unpack .binary32 (UnpackedFloat.pack .binary32
      (UnpackedFloat.div .binary32 x.toModel.unpack y.toModel.unpack)) = _
    rw [hux, huy, ← hround]
    rfl
  by_cases hhigh : r ≤ 104
  · have hcanonical : IsCanonical k r := ⟨hk, hklt, by omega, hhigh, .inl hkfull⟩
    have hdenotes : Denotes (x / y) (k * 2 ^ r) := by
      rw [Denotes, hquotient, unpack_pack_finite .positive hcanonical]
      simp [number?, Sign.apply]
    have hvalue : (1 : ℚ) ≤ k * 2 ^ r := by
      have hkcast : (2 : ℚ) ^ (23 : ℤ) ≤ k := by exact_mod_cast hkfull
      calc (1 : ℚ) = 2 ^ (23 : ℤ) * 2 ^ (-23 : ℤ) := by
            rw [← zpow_add₀ two_ne_zero]
            norm_num
        _ ≤ k * 2 ^ r := mul_le_mul hkcast (zpow_le_zpow_right₀ one_le_two hr)
            (zpow_pos two_pos _).le (Nat.cast_nonneg k)
    exact (one.le_iff hdenotes).2 hvalue
  · -- The quotient is beyond the greatest number and becomes infinite.
    change decide ((1 : Float32).toModel ≤ (x / y).toModel) = true
    rw [decide_eq_true_iff]
    change ((1 : Float32).toModel.unpack.compare (x / y).toModel.unpack).any (·.isLE) = true
    rw [hquotient, pack_of_lt_exponent hk (not_le.1 hhigh), unpack_packedInfinity]
    obtain ⟨n, t, hn, hone, -⟩ := one.exists_unpack_of_pos one_pos
    rw [hone]
    rfl

end Denotes

section Conversion

theorem roundedQuotient_le {n d c : ℕ} (hd : 0 < d) (h : n ≤ c * d) : roundedQuotient n d ≤ c := by
  have hwhole : n / d ≤ c := Nat.div_le_of_le_mul (by rw [mul_comm]; exact h)
  have hrest : n % d ≠ 0 → n / d < c := by
    intro hne
    have hdivision := Nat.div_add_mod n d
    by_contra hge
    have hcd : c * d ≤ d * (n / d) := by
      rw [mul_comm c d]
      exact Nat.mul_le_mul_left d (not_lt.1 hge)
    omega
  unfold roundedQuotient
  dsimp only
  split
  · exact hwhole
  · next hhalf =>
    have := hrest (by omega)
    split
    · omega
    · omega

theorem le_roundedQuotient {n d c : ℕ} (hd : 0 < d) (h : c * d ≤ n) : c ≤ roundedQuotient n d := by
  have hwhole : c ≤ n / d := (Nat.le_div_iff_mul_le hd).2 h
  unfold roundedQuotient
  dsimp only
  split
  · exact hwhole
  · split
    · omega
    · omega

namespace BinaryFormat

theorem nearest_one_of_le {n : ℕ} (hn : 2 ^ 23 ≤ n) : single.nearest n 1 =
    min ((n.log2 + 126) * 8388608 + roundedQuotient n (2 ^ (n.log2 - 23)))
      single.infinityPattern := by
  have hlog : 23 ≤ n.log2 := (Nat.le_log2 (by omega)).2 hn
  have hfraction : ((single.fractionBits : ℕ) : ℤ) = 23 := rfl
  have hplace : max ((n.log2 : ℤ) - 23) (-149) = (n.log2 : ℤ) - 23 := by omega
  have hdown : (-((n.log2 : ℤ) - 23)).toNat = 0 := by omega
  have hup : ((n.log2 : ℤ) - 23).toNat = n.log2 - 23 := by omega
  have hsteps : ((n.log2 : ℤ) - 23 - -149).toNat = n.log2 + 126 := by omega
  rw [nearest, if_neg (by omega), binaryMagnitude_one (by omega), single_lowestExponent, hfraction,
    hplace]
  dsimp only
  rw [hdown, hup, hsteps, pow2, pow2, Nat.pow_eq, Nat.pow_eq, pow_zero, mul_one, one_mul]
  rfl

theorem number?_read_steps {k r : ℕ} (hfull : 2 ^ 23 ≤ r) (hle : r ≤ 2 ^ 24)
    (hlt : (k + 126) * 8388608 + r < 2139095040) :
    (single.read ((k + 126) * 8388608 + r)).number? = some ((r : ℚ) * 2 ^ ((k : ℤ) - 23)) := by
  have hmod : ((k + 126) * 8388608 + r) % 2147483648 = (k + 126) * 8388608 + r :=
    Nat.mod_eq_of_lt (by omega)
  have hsign : decide (2147483648 ≤ (k + 126) * 8388608 + r) = false :=
    decide_eq_false (by omega)
  rw [read, single_signPattern, single_infinityPattern, hmod, if_pos hlt, hsign,
    BinaryValue.number?]
  rcases hle.lt_or_eq with hshort | rfl
  · have hsignificand : single.significand ((k + 126) * 8388608 + r) = r := by
      rw [single_significand, if_neg (by omega)]
      omega
    have hexponent : single.exponent ((k + 126) * 8388608 + r) = (k : ℤ) - 23 := by
      rw [single_exponent]
      omega
    rw [hsignificand, hexponent]
    rfl
  · have hsignificand : single.significand ((k + 126) * 8388608 + 2 ^ 24) = 2 ^ 23 := by
      rw [single_significand, if_neg (by omega)]
      omega
    have hexponent : single.exponent ((k + 126) * 8388608 + 2 ^ 24) = (k : ℤ) - 22 := by
      rw [single_exponent]
      omega
    have hdouble : ((2 ^ 23 : ℕ) : ℚ) * 2 ^ ((k : ℤ) - 22) = (2 ^ 24 : ℕ) * 2 ^ ((k : ℤ) - 23) := by
      rw [show (k : ℤ) - 22 = 1 + (k - 23) by ring, zpow_add₀ two_ne_zero]
      norm_num
      ring
    rw [hsignificand, hexponent, ← hdouble]
    rfl

end BinaryFormat

namespace Denotes

open BinaryFormat

variable {x : Float32} {n t : ℕ}

/-- A whole number of at least 24 bits that is not above a number of single precision: both are
counted in steps of one size, and the number is a whole number of steps. -/
theorem exists_steps (hx : Denotes x t) (hn : 2 ^ 23 ≤ n) (h : n ≤ t) : ∃ c : ℕ,
    t = c * 2 ^ (n.log2 - 23) ∧ n.log2 ≤ 127 ∧ (n.log2 = 127 → c < 2 ^ 24) := by
  have hpos : (0 : ℚ) < t := by exact_mod_cast (show 0 < t by omega)
  obtain ⟨m, e, hm, -, ht⟩ := hx.exists_unpack_of_pos hpos
  have hlog : 23 ≤ n.log2 := (Nat.le_log2 (by omega)).2 hn
  have hhigh := hm.exponent_le
  have hlower : ((2 ^ n.log2 : ℕ) : ℚ) ≤ t := by
    exact_mod_cast ((Nat.le_log2 (by omega)).1 le_rfl).trans h
  have hlt : (m : ℚ) < ((2 ^ 24 : ℕ) : ℚ) := by exact_mod_cast hm.lt
  have hbound : (2 : ℚ) ^ (n.log2 : ℤ) < 2 ^ (24 + e) := by
    calc (2 : ℚ) ^ (n.log2 : ℤ) = ((2 ^ n.log2 : ℕ) : ℚ) := by
          rw [zpow_natCast, Nat.cast_pow, Nat.cast_ofNat]
      _ ≤ m * 2 ^ e := ht ▸ hlower
      _ < ((2 ^ 24 : ℕ) : ℚ) * 2 ^ e := mul_lt_mul_of_pos_right hlt (zpow_pos two_pos e)
      _ = 2 ^ (24 + e) := by rw [zpow_add₀ two_ne_zero]; norm_cast
  have hexponents := (zpow_lt_zpow_iff_right₀ one_lt_two).1 hbound
  have hsteps : t = m * 2 ^ (e - 0).toNat :=
    eq_mul_two_pow (by omega) (by rw [zpow_zero, mul_one]; exact ht)
  refine ⟨m * 2 ^ (e.toNat - (n.log2 - 23)), ?_, by omega, fun hmost => ?_⟩
  · rw [hsteps, mul_assoc, ← pow_add]
    congr 2
    omega
  · rw [show e.toNat - (n.log2 - 23) = 0 by omega, pow_zero, mul_one]
    exact hm.lt

/-- The conversion of a whole number does not take it above a number that it was not above. -/
theorem ofNat_le (hx : Denotes x t) (hn : 0 < n) (h : n ≤ t) :
    ∃ q, Denotes (Single.ofNat n) q ∧ 0 < q ∧ q ≤ t := by
  by_cases hshort : n < 2 ^ 24
  · exact ⟨n, ofValue false hshort, by exact_mod_cast hn, by exact_mod_cast h⟩
  have hfull : 2 ^ 23 ≤ n := by omega
  have hlog : 23 ≤ n.log2 := (Nat.le_log2 hn.ne').2 hfull
  have hstep : 0 < 2 ^ (n.log2 - 23) := Nat.two_pow_pos _
  obtain ⟨c, hc, hmost, hedge⟩ := hx.exists_steps hfull h
  have hlower : 2 ^ n.log2 ≤ n := (Nat.le_log2 hn.ne').1 le_rfl
  have hupper : n < 2 ^ (n.log2 + 1) := (Nat.log2_lt hn.ne').1 (Nat.lt_succ_self _)
  obtain ⟨r, hr⟩ : ∃ r, roundedQuotient n (2 ^ (n.log2 - 23)) = r := ⟨_, rfl⟩
  have hrfull : 2 ^ 23 ≤ r := by
    rw [← hr]
    refine le_roundedQuotient hstep ?_
    rwa [← pow_add, Nat.add_sub_cancel' hlog]
  have hrle : r ≤ 2 ^ 24 := by
    rw [← hr]
    refine roundedQuotient_le hstep (hupper.le.trans (le_of_eq ?_))
    rw [← pow_add]
    congr 1
    omega
  have hrc : r ≤ c := hr ▸ roundedQuotient_le hstep (hc ▸ h)
  have hlt : (n.log2 + 126) * 8388608 + r < 2139095040 := by
    by_cases hlast : n.log2 = 127
    · have := hedge hlast
      omega
    · omega
  have hpattern : single.write (.finite false n 0) = (n.log2 + 126) * 8388608 + r := by
    have hwrite : single.write (.finite false n 0) = 0 + single.nearest (n * 1) 1 := rfl
    rw [hwrite, zero_add, mul_one, nearest_one_of_le hfull, hr, single_infinityPattern,
      min_eq_left hlt.le]
  refine ⟨(r : ℚ) * 2 ^ ((n.log2 : ℤ) - 23), ?_, ?_, ?_⟩
  · refine ofBits ?_
    rw [UInt32.toNat_ofNat_of_lt' (write_finite_lt false n 0), hpattern]
    exact number?_read_steps hrfull hrle hlt
  · have hrpos : (0 : ℚ) < r := by exact_mod_cast (show 0 < r by omega)
    exact mul_pos hrpos (zpow_pos two_pos _)
  · have hrcast : (r : ℚ) ≤ c := by exact_mod_cast hrc
    rw [hc, Nat.cast_mul, Nat.cast_pow, Nat.cast_ofNat, ← zpow_natCast,
      show ((n.log2 - 23 : ℕ) : ℤ) = (n.log2 : ℤ) - 23 by omega]
    exact mul_le_mul_of_nonneg_right hrcast (zpow_pos two_pos _).le

end Denotes

end Conversion

end DistantChunks
