import DistantChunks.Proofs.ExactSingle
import DistantChunks.Proofs.Images

/-!
# Signs of zeros

A number that stands for a rational is fixed by it up to the sign of a zero. Taking this sign away
before an operation changes at most the sign of a zero in its result, and no comparison. Sorting
does tell the zeros apart, but lengths, which are all that is sorted, are never the negative one.
So `Unsigned.ofSingle`, which takes the sign away, is a change of numbers that the optimization of a
tree does not notice.
-/

namespace DistantChunks

open Float.Model Float.Model.UnpackedFloat

/-- A number without the sign of a zero. -/
def unsign : UnpackedFloat → UnpackedFloat
  | .zero _ => .zero .positive
  | u => u

theorem unsign_unsign (u : UnpackedFloat) : unsign (unsign u) = unsign u := by
  cases u <;> rfl

theorem unsign_add (u v : UnpackedFloat) :
    unsign (.add .binary32 (unsign u) (unsign v)) = unsign (.add .binary32 u v) := by
  cases u with
  | zero s => cases v with
    | zero t => cases s <;> cases t <;> rfl
    | _ => rfl
  | _ => cases v <;> rfl

theorem unsign_sub (u v : UnpackedFloat) :
    unsign (.sub .binary32 (unsign u) (unsign v)) = unsign (.sub .binary32 u v) := by
  cases u with
  | zero s => cases v with
    | zero t => cases s <;> cases t <;> rfl
    | _ => rfl
  | _ => cases v <;> rfl

theorem unsign_mul (u v : UnpackedFloat) :
    unsign (.mul .binary32 (unsign u) (unsign v)) = unsign (.mul .binary32 u v) := by
  cases u <;> cases v <;> rfl

theorem unsign_add_zero (u : UnpackedFloat) :
    unsign (.add .binary32 u (.zero .positive)) = unsign u := by
  cases u with
  | zero s => cases s <;> rfl
  | _ => rfl

theorem unsign_neg (u : UnpackedFloat) : unsign (unsign u).neg = unsign u.neg := by
  cases u <;> rfl

theorem unsign_sqrt (u : UnpackedFloat) :
    unsign (.sqrt .binary32 (unsign u)) = unsign (.sqrt .binary32 u) := by
  cases u <;> rfl

theorem compare_unsign (u v : UnpackedFloat) : (unsign u).compare (unsign v) = u.compare v := by
  cases u with
  | finite s => cases v <;> cases s <;> rfl
  | infinity s => cases v <;> cases s <;> rfl
  | notANumber => cases v <;> rfl
  | zero s => cases v with
    | finite t => cases t <;> rfl
    | infinity t => cases t <;> rfl
    | _ => rfl

/-- Unpacked numbers that compare as equal differ at most in the sign of a zero. -/
theorem unsign_eq_of_compare {u v : UnpackedFloat} (h : u.compare v = some .eq) :
    unsign u = unsign v := by
  cases u with
  | zero s => cases v with
    | zero t => rfl
    | infinity t | finite t => cases t <;> cases h
    | notANumber => cases h
  | infinity s => cases v with
    | infinity t => cases s <;> cases t <;> first | rfl | cases h
    | _ => cases s <;> cases h
  | notANumber => cases h
  | finite s m e hm => cases v with
    | finite t n d hn =>
      have heq (h : (compare e d).then (compare m n) = .eq) : e = d ∧ m = n :=
        (Ordering.then_eq_eq.1 h).imp compare_eq_iff_eq.1 compare_eq_iff_eq.1
      cases s <;> cases t
      · obtain ⟨rfl, rfl⟩ := heq (Ordering.swap_inj.1 (Option.some.inj h))
        rfl
      · cases h
      · cases h
      · obtain ⟨rfl, rfl⟩ := heq (Option.some.inj h)
        rfl
    | zero t => cases s <;> cases h
    | infinity t => cases t <;> cases s <;> cases h
    | notANumber => cases h

/-- What is read of a number after it has been stored. -/
def reread (u : UnpackedFloat) : UnpackedFloat :=
  UnpackedFloat.unpack .binary32 (UnpackedFloat.pack .binary32 u)

theorem reread_zero (s : Sign) : reread (.zero s) = .zero s := unpack_packedZero

theorem unsign_reread_unsign (u : UnpackedFloat) :
    unsign (reread (unsign u)) = unsign (reread u) := by
  cases u with
  | zero s =>
    rw [unsign, reread_zero, reread_zero]
    rfl
  | _ => rfl

namespace Single

theorem reread_unpack (x : Float32) : reread x.toModel.unpack = x.toModel.unpack :=
  congrArg (UnpackedFloat.unpack .binary32) (pack_unpack_of_valid x.toModel.valid)

theorem reread_unsign_unpack (x : Float32) :
    reread (unsign x.toModel.unpack) = unsign x.toModel.unpack := by
  have hx := reread_unpack x
  cases h : x.toModel.unpack with
  | zero s => exact reread_zero .positive
  | _ =>
    rw [h] at hx
    exact hx

/-- The number that is stored for an unpacked one. -/
def ofUnpacked (u : UnpackedFloat) : Float32 := .ofModel (.pack u)

theorem ofUnpacked_unpack (x : Float32) : ofUnpacked x.toModel.unpack = x := by
  obtain ⟨⟨bits, hbits⟩⟩ := x
  have hpack : Float32.Model.pack (Float32.Model.unpack ⟨bits, hbits⟩) = ⟨bits, hbits⟩ := by
    rw [Float32.Model.pack, Float32.Model.mk.injEq, ← UInt32.toBitVec_inj]
    exact pack_unpack_of_valid hbits
  exact congrArg Float32.ofModel hpack

/-- A number without the sign of a zero. -/
def unsigned (x : Float32) : Float32 := if x == 0 then 0 else x

theorem beq_zero (x : Float32) :
    (x == 0) = (x.toModel.unpack.compare (.zero .positive) == some .eq) :=
  rfl

theorem unsigned_eq (x : Float32) : unsigned x = ofUnpacked (unsign x.toModel.unpack) := by
  have hx := ofUnpacked_unpack x
  rw [unsigned, beq_zero]
  cases h : x.toModel.unpack with
  | zero s => rfl
  | finite s =>
    rw [h] at hx
    cases s <;> exact hx.symm
  | infinity s =>
    rw [h] at hx
    cases s <;> exact hx.symm
  | notANumber =>
    rw [h] at hx
    exact hx.symm

theorem unpack_unsigned (x : Float32) : (unsigned x).toModel.unpack = unsign x.toModel.unpack := by
  rw [unsigned_eq]
  exact reread_unsign_unpack x

theorem unsigned_unsigned (x : Float32) : unsigned (unsigned x) = unsigned x := by
  rw [unsigned_eq (unsigned x), unpack_unsigned, unsign_unsign, unsigned_eq]

/-- The sign of a zero result may be taken away before the result is stored. -/
theorem unsigned_ofUnpacked_congr {u v : UnpackedFloat} (h : unsign u = unsign v) :
    unsigned (ofUnpacked u) = unsigned (ofUnpacked v) := by
  rw [unsigned_eq, unsigned_eq]
  change ofUnpacked (unsign (reread u)) = ofUnpacked (unsign (reread v))
  rw [← unsign_reread_unsign u, ← unsign_reread_unsign v, h]

theorem unsigned_add (x y : Float32) : unsigned (unsigned x + unsigned y) = unsigned (x + y) := by
  refine unsigned_ofUnpacked_congr ?_
  rw [unpack_unsigned, unpack_unsigned]
  exact unsign_add _ _

theorem unsigned_sub (x y : Float32) : unsigned (unsigned x - unsigned y) = unsigned (x - y) := by
  refine unsigned_ofUnpacked_congr ?_
  rw [unpack_unsigned, unpack_unsigned]
  exact unsign_sub _ _

theorem unsigned_sub_congr {x y z w : Float32} (h : unsigned x = unsigned z)
    (h' : unsigned y = unsigned w) : unsigned (x - y) = unsigned (z - w) := by
  rw [← unsigned_sub x y, h, h', unsigned_sub]

theorem unsigned_add_zero (x : Float32) : unsigned (x + 0) = unsigned x := by
  calc unsigned (x + 0) = unsigned (ofUnpacked x.toModel.unpack) :=
        unsigned_ofUnpacked_congr (unsign_add_zero x.toModel.unpack)
    _ = unsigned x := by rw [ofUnpacked_unpack]

theorem unsigned_mul (x y : Float32) : unsigned (unsigned x * unsigned y) = unsigned (x * y) := by
  refine unsigned_ofUnpacked_congr ?_
  rw [unpack_unsigned, unpack_unsigned]
  exact unsign_mul _ _

theorem unsigned_neg (x : Float32) : unsigned (-unsigned x) = unsigned (-x) := by
  refine unsigned_ofUnpacked_congr ?_
  rw [unpack_unsigned]
  exact unsign_neg _

theorem unsigned_sqrt (x : Float32) : unsigned (unsigned x).sqrt = unsigned x.sqrt := by
  refine unsigned_ofUnpacked_congr ?_
  rw [unpack_unsigned]
  exact unsign_sqrt _

theorem lt_iff_compare (x y : Float32) :
    x < y ↔ x.toModel.unpack.compare y.toModel.unpack = some .lt := by
  change decide (x.toModel < y.toModel) = true ↔ _
  rw [decide_eq_true_iff]
  exact beq_iff_eq

theorem le_iff_compare (x y : Float32) :
    x ≤ y ↔ (x.toModel.unpack.compare y.toModel.unpack).any (·.isLE) = true := by
  change decide (x.toModel ≤ y.toModel) = true ↔ _
  rw [decide_eq_true_iff]
  rfl

theorem unsigned_lt (x y : Float32) : unsigned x < unsigned y ↔ x < y := by
  rw [lt_iff_compare, lt_iff_compare, unpack_unsigned, unpack_unsigned, compare_unsign]

theorem unsigned_le (x y : Float32) : unsigned x ≤ unsigned y ↔ x ≤ y := by
  rw [le_iff_compare, le_iff_compare, unpack_unsigned, unpack_unsigned, compare_unsign]

theorem unsigned_beq (x y : Float32) : (unsigned x == unsigned y) = (x == y) := by
  change ((unsigned x).toModel.unpack.compare (unsigned y).toModel.unpack == some .eq) =
    (x.toModel.unpack.compare y.toModel.unpack == some .eq)
  rw [unpack_unsigned, unpack_unsigned, compare_unsign]

end Single

/-- A number without a negative sign. -/
def IsPositive : UnpackedFloat → Prop
  | .notANumber => True
  | .infinity s | .zero s | .finite s .. => s = .positive

theorem unpackSign_packComponents {spec : Format} (s : Sign) (e : BitVec spec.exponentBits)
    (m : BitVec spec.mantissaBitsWithoutImplicit) :
    unpackSign (packComponents spec s e m) = s.toBitVec := by
  ext i hi
  obtain rfl : i = 0 := by omega
  simp [unpackSign, packComponents, BitVec.getLsbD_append, BitVec.getElem_append]

theorem unpackSign_pack {u : UnpackedFloat} (h : IsPositive u) :
    unpackSign (UnpackedFloat.pack .binary32 u) = 0#1 := by
  have hsign := @unpackSign_packComponents .binary32 .positive
  cases u with
  | notANumber => exact hsign _ _
  | infinity s => obtain rfl := h; exact hsign _ _
  | zero s => obtain rfl := h; exact hsign _ _
  | finite s m e hm =>
    obtain rfl := h
    rw [UnpackedFloat.pack]
    dsimp only
    split
    · exact hsign _ _
    · split <;> exact hsign _ _

theorem isPositive_unpack {b : BitVec Format.binary32.numBits} (h : unpackSign b = 0#1) :
    IsPositive (UnpackedFloat.unpack .binary32 b) := by
  rw [UnpackedFloat.unpack, h]
  dsimp only
  split
  · split
    · exact rfl
    · trivial
  · split
    · split <;> exact rfl
    · exact rfl

theorem IsPositive.reread {u : UnpackedFloat} (h : IsPositive u) : IsPositive (reread u) :=
  isPositive_unpack (unpackSign_pack h)

theorem isPositive_roundWithAccuracy (m : ℕ) (e : ℤ) (a : Accuracy) :
    IsPositive (roundWithAccuracy .binary32 .positive m e a) := by
  rw [roundWithAccuracy]
  dsimp only
  split <;> rfl

theorem isPositive_normalize {m : ℤ} (hm : 0 ≤ m) (e : ℤ) :
    IsPositive (normalize .binary32 m e .positive) := by
  rw [UnpackedFloat.normalize]
  split
  · rename_i hcompare
    rw [Int.compare_eq_lt] at hcompare
    omega
  · rfl
  · exact isPositive_roundWithAccuracy _ _ _

theorem isPositive_mul_self (u : UnpackedFloat) : IsPositive (.mul .binary32 u u) := by
  cases u with
  | notANumber => trivial
  | infinity s => cases s <;> rfl
  | zero s => cases s <;> rfl
  | finite s m e hm => cases s <;> exact isPositive_roundWithAccuracy _ _ _

theorem IsPositive.add {u v : UnpackedFloat} (hu : IsPositive u) (hv : IsPositive v) :
    IsPositive (.add .binary32 u v) := by
  cases u with
  | notANumber => trivial
  | infinity s =>
    obtain rfl := hu
    cases v with
    | infinity t => obtain rfl := hv; rfl
    | notANumber => trivial
    | _ => rfl
  | zero s =>
    obtain rfl := hu
    cases v with
    | zero t => obtain rfl := hv; rfl
    | notANumber => trivial
    | _ => exact hv
  | finite s =>
    obtain rfl := hu
    cases v with
    | notANumber => trivial
    | finite t =>
      obtain rfl := hv
      exact isPositive_normalize (add_nonneg (Int.natCast_nonneg _) (Int.natCast_nonneg _)) _
    | zero t => rfl
    | infinity t => exact hv

theorem IsPositive.sqrt {u : UnpackedFloat} (hu : IsPositive u) :
    IsPositive (.sqrt .binary32 u) := by
  cases u with
  | notANumber => trivial
  | infinity s => obtain rfl := hu; rfl
  | zero s => exact hu
  | finite s m e hm => obtain rfl := hu; exact isPositive_roundWithAccuracy _ _ _

theorem IsPositive.unsign {u : UnpackedFloat} (hu : IsPositive u) : unsign u = u := by
  cases u with
  | zero s => obtain rfl := hu; rfl
  | _ => rfl

namespace Single

theorem unsigned_of_isPositive {x : Float32} (h : IsPositive x.toModel.unpack) :
    unsigned x = x := by
  rw [unsigned_eq, h.unsign, ofUnpacked_unpack]

/-- A length is never the negative zero. -/
theorem isPositive_length (v : Vec3 Float32) : IsPositive v.length.toModel.unpack := by
  have hsquare (a : Float32) : IsPositive (a * a).toModel.unpack :=
    (isPositive_mul_self a.toModel.unpack).reread
  have hsum {a b : Float32} (ha : IsPositive a.toModel.unpack) (hb : IsPositive b.toModel.unpack) :
      IsPositive (a + b).toModel.unpack := (ha.add hb).reread
  exact (hsum (hsum (hsquare v.x) (hsquare v.y)) (hsquare v.z)).sqrt.reread

theorem unsigned_of_isLength {x : Float32} (h : IsLength x) : unsigned x = x := by
  cases h with
  | zero => exact unsigned_of_isPositive rfl
  | length v => exact unsigned_of_isPositive (isPositive_length v)

end Single

theorem Denotes.unsigned_eq {x y : Float32} {q : ℚ} (hx : Denotes x q) (hy : Denotes y q) :
    Single.unsigned x = Single.unsigned y := by
  rw [Single.unsigned_eq, Single.unsigned_eq]
  refine congrArg _ (unsign_eq_of_compare ?_)
  rw [hx.compare_eq hy, compare_eq_iff_eq.2 rfl]

/-- A single precision number that is not the negative zero. -/
structure Unsigned where
  number : Float32
  unsigned_number : Single.unsigned number = number

namespace Unsigned

def ofSingle (x : Float32) : Unsigned := ⟨Single.unsigned x, Single.unsigned_unsigned x⟩

instance : Scalar Unsigned where
  zero := ofSingle 0
  one := ofSingle 1
  add a b := ofSingle (a.number + b.number)
  sub a b := ofSingle (a.number - b.number)
  mul a b := ofSingle (a.number * b.number)
  div a b := ofSingle (a.number / b.number)
  neg a := ofSingle (-a.number)
  lt a b := a.number < b.number
  le a b := a.number ≤ b.number
  decLt a b := inferInstanceAs (Decidable (a.number < b.number))
  decLe a b := inferInstanceAs (Decidable (a.number ≤ b.number))
  same a b := a.number == b.number
  half := ofSingle Scalar.half
  sqrt a := ofSingle a.number.sqrt
  greatest := ofSingle Scalar.greatest
  floor a := ofSingle (Scalar.floor a.number)
  ofInt n := ofSingle (Scalar.ofInt n)
  toInt a := Scalar.toInt a.number
  precedes a b := Scalar.precedes a.number b.number

theorem ofSingle_eq_iff {x y : Float32} :
    ofSingle x = ofSingle y ↔ Single.unsigned x = Single.unsigned y := by
  rw [ofSingle, ofSingle, mk.injEq]

theorem image_eq_of_unsigned {v w : Vec3 Float32} (hx : Single.unsigned v.x = Single.unsigned w.x)
    (hy : Single.unsigned v.y = Single.unsigned w.y)
    (hz : Single.unsigned v.z = Single.unsigned w.z) : v.image ofSingle = w.image ofSingle := by
  rw [Vec3.image, ofSingle_eq_iff.2 hx, ofSingle_eq_iff.2 hy, ofSingle_eq_iff.2 hz, Vec3.image]

theorem isChange_ofSingle : IsChange ofSingle where
  zero := rfl
  one := rfl
  add a b := ofSingle_eq_iff.2 (Single.unsigned_add a b).symm
  sub a b := ofSingle_eq_iff.2 (Single.unsigned_sub a b).symm
  mul a b := ofSingle_eq_iff.2 (Single.unsigned_mul a b).symm
  neg a := ofSingle_eq_iff.2 (Single.unsigned_neg a).symm
  sqrt a := ofSingle_eq_iff.2 (Single.unsigned_sqrt a).symm
  half := rfl
  greatest := rfl
  lt := Single.unsigned_lt
  le := Single.unsigned_le
  same := Single.unsigned_beq
  precedes ha hb := by
    change Scalar.precedes (Single.unsigned _) (Single.unsigned _) = _
    rw [Single.unsigned_of_isLength ha, Single.unsigned_of_isLength hb]

/-- The sign of a zero in a vector does not show in its length. -/
theorem length_eq_of_image_eq {v w : Vec3 Float32} (h : v.image ofSingle = w.image ofSingle) :
    v.length = w.length := by
  have hlength : ofSingle v.length = ofSingle w.length := by
    rw [← Vec3.length_image isChange_ofSingle, h, Vec3.length_image isChange_ofSingle]
  rwa [ofSingle_eq_iff, Single.unsigned_of_isLength (.length v),
    Single.unsigned_of_isLength (.length w)] at hlength

end Unsigned

end DistantChunks
