import DistantChunks.Proofs.FineTiles
import DistantChunks.Proofs.MovedWorlds
import DistantChunks.Proofs.ZeroSigns

/-!
# Moved axes

What a build computes on one axis, before and after a move by whole cells. Where none of these
numbers is rounded, the eye and every position keep their places in the chunk and their distance
from each other. If the ends of the chunk are not rounded either, the moved axis scans the moved
cells, `span_movedBy`, and takes the moved positions, `holdsOnAxis_movedBy`.
-/

namespace DistantChunks

open Float.Model Float.Model.UnpackedFloat

/-- Two numbers stand for rationals, and an operation on them is not rounded. -/
def Exactly (op : Float32 → Float32 → Float32) (opRat : ℚ → ℚ → ℚ) (x y : Float32) : Prop :=
  ∃ p q, Denotes x p ∧ Denotes y q ∧ Denotes (op x y) (opRat p q)

abbrev ExactSum : Float32 → Float32 → Prop := Exactly (· + ·) (· + ·)

abbrev ExactDifference : Float32 → Float32 → Prop := Exactly (· - ·) (· - ·)

abbrev ExactProduct : Float32 → Float32 → Prop := Exactly (· * ·) (· * ·)

abbrev ExactQuotient : Float32 → Float32 → Prop := Exactly (· / ·) (· / ·)

namespace Exactly

variable {op : Float32 → Float32 → Float32} {opRat : ℚ → ℚ → ℚ} {x y : Float32} {p q : ℚ}

theorem denotes (h : Exactly op opRat x y) (hx : Denotes x p) (hy : Denotes y q) :
    Denotes (op x y) (opRat p q) := by
  obtain ⟨p', q', hp, hq, hresult⟩ := h
  rwa [hx.unique hp, hy.unique hq]

instance : Decidable (Exactly op opRat x y) :=
  match hx : number? x.toModel.unpack, hy : number? y.toModel.unpack with
  | some p, some q =>
    decidable_of_iff (Denotes (op x y) (opRat p q))
      ⟨fun h => ⟨p, q, hx, hy, h⟩, fun h => h.denotes hx hy⟩
  | none, _ => isFalse fun ⟨_, _, hp, _⟩ => nomatch hx.symm.trans hp
  | some _, none => isFalse fun ⟨_, _, _, hq, _⟩ => nomatch hy.symm.trans hq

theorem ne_zero (h : ExactQuotient x y) (hy : Denotes y q) : q ≠ 0 := by
  rintro rfl
  obtain ⟨p, q, hx, -, hquotient⟩ := h
  rcases hy.unpack_cases with ⟨z, huy, -⟩ | ⟨z, n, t, hn, -, hzero⟩
  · have hunpack : (x / y).toModel.unpack =
        reread (.div .binary32 x.toModel.unpack (.zero z)) := huy ▸ rfl
    have hnan : number? (reread .notANumber) = none := rfl
    have hinfinity (s : Sign) : number? (reread (.infinity s)) = none := by
      cases s <;> rfl
    rw [Denotes, hunpack] at hquotient
    rcases hx.unpack_cases with ⟨s, hux, -⟩ | ⟨s, m, e, hm, hux, -⟩
    · rw [hux] at hquotient
      cases hnan.symm.trans hquotient
    · rw [hux] at hquotient
      cases (hinfinity _).symm.trans hquotient
  · have hpos := hn.value_pos
    rw [← abs_apply_mul z, ← hzero, abs_zero] at hpos
    exact lt_irrefl 0 hpos

end Exactly

/-- The number lies among the whole numbers that single precision holds without gaps. -/
def IsGapless (x : Float32) : Prop := ∃ q, Denotes x q ∧ |q| ≤ 2 ^ 24 - 1

instance (x : Float32) : Decidable (IsGapless x) :=
  match hx : number? x.toModel.unpack with
  | some q => decidable_of_iff (|q| ≤ 2 ^ 24 - 1)
      ⟨fun h => ⟨q, hx, h⟩, fun ⟨_, hq, h⟩ => Denotes.unique hx hq ▸ h⟩
  | none => isFalse fun ⟨_, hq, _⟩ => nomatch hx.symm.trans hq

/-- The scan on an axis goes over whole cells, from the one that holds the lower end. -/
theorem Coverage.span_eq_range {size x : Float32} {c s : ℚ}
    (hlow : Denotes (x - size / Scalar.two) c)
    (hlimit : Denotes (Single.floor (x - size / Scalar.two) + size) (⌊c⌋ + s))
    (hstart : IsGapless (x - size / Scalar.two))
    (hend : IsGapless (Single.floor (x - size / Scalar.two) + size)) :
    span size x = Int.range ⌊c⌋ ⌈⌊c⌋ + s⌉ := by
  have hfirst : -(2 ^ 24 - 1) ≤ ⌊c⌋ ∧ ⌊c⌋ ≤ 2 ^ 24 - 1 := by
    obtain ⟨q, hq, hbound⟩ := hstart
    obtain ⟨hfrom, hto⟩ := abs_le.1 (hlow.unique hq ▸ hbound)
    exact ⟨Int.le_floor.2 (by exact_mod_cast hfrom), by exact_mod_cast (Int.floor_le c).trans hto⟩
  have hlast : ⌈⌊c⌋ + s⌉ ≤ 2 ^ 24 - 1 := by
    obtain ⟨q, hq, hbound⟩ := hend
    rw [Int.ceil_le, hlimit.unique hq]
    exact_mod_cast (le_abs_self q).trans hbound
  have hcorner : Single.toInt (Single.floor (x - size / Scalar.two)) = ⌊c⌋ :=
    hlow.floor.toInt (by omega) (by omega)
  rw [span, hcorner]
  by_cases hle : ⌊c⌋ ≤ ⌈⌊c⌋ + s⌉
  · exact line_eq hlimit (by omega) hle (by omega)
  · have hstop : ¬ Scalar.ofInt ⌊c⌋ < Single.floor (x - size / Scalar.two) + size := by
      have hstartInt : Denotes (Single.ofInt ⌊c⌋) ⌊c⌋ := Denotes.ofInt (by omega)
      change ¬ Single.ofInt ⌊c⌋ < Single.floor (x - size / Scalar.two) + size
      rw [hstartInt.lt_iff hlimit, ← Int.lt_ceil]
      omega
    rw [line, dif_neg fun h => hstop h.2, range_eq_nil (by omega)]

/-- What a build reads of a view on one axis. -/
structure Axis where
  size : Float32
  cellSize : Float32
  center : Float32
  eye : Float32

namespace Axis

variable (a : Axis) (n : Int32)

def middle : Float32 := a.center * a.cellSize

def low : Float32 := a.center - a.size / Scalar.two

def high : Float32 := a.center + a.size / Scalar.two

def limit : Float32 := Single.floor a.low + a.size

def movedBy : Axis :=
  { a with
    center := a.center + Single.ofInt n.toInt
    eye := a.eye + Shift.along a.cellSize n }

/-- The middle of the chunk and the place of the eye in it are not rounded. -/
structure IsExact : Prop where
  middle : ExactProduct a.center a.cellSize
  eye : ExactDifference a.eye a.middle

/-- What a build computes from a position is not rounded. Only chunks smaller than a cell measure
positions in cells. -/
structure IsExactAt (p : Float32) : Prop where
  place : ExactDifference p a.middle
  sight : ExactDifference a.eye p
  cells : a.size < 1 → ExactQuotient p a.cellSize

/-- The ends of the chunk and of its scan are not rounded and lie among the whole numbers that
single precision holds. -/
structure IsExactSquare : Prop where
  low : ExactDifference a.center (a.size / Scalar.two)
  high : a.size < 1 → ExactSum a.center (a.size / Scalar.two)
  limit : ExactSum (Single.floor a.low) a.size
  low_gapless : IsGapless a.low
  limit_gapless : IsGapless a.limit

/-- The move of the view is not rounded, nor is what a build computes from the view before and
after it. -/
structure IsExactMove : Prop where
  steps : Denotes (Single.ofInt n.toInt) n.toInt
  offset : ExactProduct (Single.ofInt n.toInt) a.cellSize
  center : ExactSum a.center (Single.ofInt n.toInt)
  eye : ExactSum a.eye (Shift.along a.cellSize n)
  before : a.IsExact
  after : (a.movedBy n).IsExact

/-- The move of a position is not rounded, nor is what a build computes from it before and after
it. -/
structure IsExactMoveAt (p : Float32) : Prop where
  position : ExactSum p (Shift.along a.cellSize n)
  before : a.IsExactAt p
  after : (a.movedBy n).IsExactAt (p + Shift.along a.cellSize n)

instance : Decidable a.IsExact :=
  decidable_of_iff (_ ∧ _) ⟨fun ⟨h, h'⟩ => ⟨h, h'⟩, fun h => ⟨h.middle, h.eye⟩⟩

instance (p : Float32) : Decidable (a.IsExactAt p) :=
  decidable_of_iff (_ ∧ _ ∧ _)
    ⟨fun ⟨h, h', h''⟩ => ⟨h, h', h''⟩, fun h => ⟨h.place, h.sight, h.cells⟩⟩

instance : Decidable a.IsExactSquare :=
  decidable_of_iff (_ ∧ _ ∧ _ ∧ _ ∧ _)
    ⟨fun ⟨h, h', h'', hlow, hlimit⟩ => ⟨h, h', h'', hlow, hlimit⟩,
      fun h => ⟨h.low, h.high, h.limit, h.low_gapless, h.limit_gapless⟩⟩

instance : Decidable (a.IsExactMove n) :=
  decidable_of_iff (_ ∧ _ ∧ _ ∧ _ ∧ _ ∧ _)
    ⟨fun ⟨h, h', h'', heye, hbefore, hafter⟩ => ⟨h, h', h'', heye, hbefore, hafter⟩,
      fun h => ⟨h.steps, h.offset, h.center, h.eye, h.before, h.after⟩⟩

instance (p : Float32) : Decidable (a.IsExactMoveAt n p) :=
  decidable_of_iff (_ ∧ _ ∧ _)
    ⟨fun ⟨h, h', h''⟩ => ⟨h, h', h''⟩, fun h => ⟨h.position, h.before, h.after⟩⟩

variable {a n} {p : Float32} {c s e r : ℚ}

theorem range_add (k l m : ℤ) : Int.range (k + m) (l + m) = (Int.range k l).map (· + m) := by
  rw [Int.range, Int.range, List.map_map, add_sub_add_right_eq_sub]
  refine List.map_congr_left fun i _ => ?_
  rw [Function.comp_apply, add_right_comm]

theorem IsExactSquare.span_eq (h : a.IsExactSquare) (hlow : Denotes a.low c)
    (hsize : Denotes a.size s) : Coverage.span a.size a.center = Int.range ⌊c⌋ ⌈⌊c⌋ + s⌉ :=
  Coverage.span_eq_range hlow (h.limit.denotes hlow.floor hsize) h.low_gapless h.limit_gapless

namespace IsExactMove

theorem denotes_offset (h : a.IsExactMove n) (hs : Denotes a.cellSize s) :
    Denotes (Shift.along a.cellSize n) (n.toInt * s) :=
  h.offset.denotes h.steps hs

theorem denotes_center (h : a.IsExactMove n) (hc : Denotes a.center c) :
    Denotes (a.movedBy n).center (c + n.toInt) :=
  h.center.denotes hc h.steps

theorem denotes_eye (h : a.IsExactMove n) (hs : Denotes a.cellSize s) (he : Denotes a.eye e) :
    Denotes (a.movedBy n).eye (e + n.toInt * s) :=
  h.eye.denotes he (h.denotes_offset hs)

theorem denotes_middle (h : a.IsExactMove n) (hc : Denotes a.center c)
    (hs : Denotes a.cellSize s) :
    Denotes a.middle (c * s) ∧ Denotes (a.movedBy n).middle ((c + n.toInt) * s) :=
  ⟨h.before.middle.denotes hc hs, h.after.middle.denotes (h.denotes_center hc) hs⟩

theorem denotes_low (h : a.IsExactMove n) (hsquare : (a.movedBy n).IsExactSquare)
    (hc : Denotes a.center c) (hr : Denotes (a.size / Scalar.two) r) :
    Denotes (a.movedBy n).low (c - r + n.toInt) := by
  rw [← add_sub_right_comm]
  exact hsquare.low.denotes (h.denotes_center hc) hr

theorem denotes_high (h : a.IsExactMove n) (hsquare : (a.movedBy n).IsExactSquare)
    (hsmall : a.size < 1) (hc : Denotes a.center c) (hr : Denotes (a.size / Scalar.two) r) :
    Denotes (a.movedBy n).high (c + r + n.toInt) := by
  rw [add_right_comm]
  exact (hsquare.high hsmall).denotes (h.denotes_center hc) hr

theorem unsigned_eye (h : a.IsExactMove n) :
    Single.unsigned ((a.movedBy n).eye - (a.movedBy n).middle) =
      Single.unsigned (a.eye - a.middle) := by
  obtain ⟨c, s, hc, hs, -⟩ := h.before.middle
  obtain ⟨e, -, he, -, -⟩ := h.before.eye
  obtain ⟨hmiddle, hmiddle'⟩ := h.denotes_middle hc hs
  have hmoved := h.after.eye.denotes (h.denotes_eye hs he) hmiddle'
  rw [add_mul, add_sub_add_right_eq_sub] at hmoved
  exact hmoved.unsigned_eq (h.before.eye.denotes he hmiddle)

theorem unsigned_place (h : a.IsExactMove n) (hp : a.IsExactMoveAt n p) :
    Single.unsigned (p + Shift.along a.cellSize n - (a.movedBy n).middle) =
      Single.unsigned (p - a.middle) := by
  obtain ⟨c, s, hc, hs, -⟩ := h.before.middle
  obtain ⟨u, -, hu, -, -⟩ := hp.before.place
  obtain ⟨hmiddle, hmiddle'⟩ := h.denotes_middle hc hs
  have hmoved := hp.after.place.denotes (hp.position.denotes hu (h.denotes_offset hs)) hmiddle'
  rw [add_mul, add_sub_add_right_eq_sub] at hmoved
  exact hmoved.unsigned_eq (hp.before.place.denotes hu hmiddle)

theorem unsigned_sight (h : a.IsExactMove n) (hp : a.IsExactMoveAt n p) :
    Single.unsigned ((a.movedBy n).eye - (p + Shift.along a.cellSize n)) =
      Single.unsigned (a.eye - p) := by
  obtain ⟨c, s, hc, hs, -⟩ := h.before.middle
  obtain ⟨e, u, he, hu, -⟩ := hp.before.sight
  have hmoved := hp.after.sight.denotes (h.denotes_eye hs he)
    (hp.position.denotes hu (h.denotes_offset hs))
  rw [add_sub_add_right_eq_sub] at hmoved
  exact hmoved.unsigned_eq (hp.before.sight.denotes he hu)

theorem span_movedBy (h : a.IsExactMove n) (hsquare : a.IsExactSquare)
    (hsquare' : (a.movedBy n).IsExactSquare) :
    Coverage.span a.size (a.movedBy n).center =
      (Coverage.span a.size a.center).map (· + n.toInt) := by
  obtain ⟨c, r, hc, hr, hlow⟩ := hsquare.low
  obtain ⟨-, s, -, hs, -⟩ := hsquare.limit
  have hspan : Coverage.span a.size (a.movedBy n).center = _ :=
    hsquare'.span_eq (h.denotes_low hsquare' hc hr) hs
  rw [hspan, hsquare.span_eq hlow hs, ← range_add, Int.floor_add_intCast, Int.cast_add,
    add_right_comm, Int.ceil_add_intCast]

theorem holdsOnAxis_movedBy (h : a.IsExactMove n) (hp : a.IsExactMoveAt n p)
    (hsquare : a.IsExactSquare) (hsquare' : (a.movedBy n).IsExactSquare) (hsmall : a.size < 1) :
    Coverage.holdsOnAxis (a.movedBy n).low (a.movedBy n).high
        ((p + Shift.along a.cellSize n) / a.cellSize) =
      Coverage.holdsOnAxis a.low a.high (p / a.cellSize) := by
  obtain ⟨c, r, hc, hr, -⟩ := hsquare.low
  obtain ⟨u, s, hu, hs, hcells⟩ := hp.before.cells hsmall
  have hne : s ≠ 0 := (hp.before.cells hsmall).ne_zero hs
  have hlow : Denotes a.low (c - r) := hsquare.low.denotes hc hr
  have hhigh : Denotes a.high (c + r) := (hsquare.high hsmall).denotes hc hr
  have hcells' : Denotes ((p + Shift.along a.cellSize n) / a.cellSize) (u / s + n.toInt) := by
    have hmoved := (hp.position.denotes hu (h.denotes_offset hs))
    rw [← mul_div_cancel_right₀ (n.toInt : ℚ) hne, ← add_div]
    exact (hp.after.cells hsmall).denotes hmoved hs
  rw [Bool.eq_iff_iff,
    Coverage.holdsOnAxis_iff (h.denotes_low hsquare' hc hr) (h.denotes_high hsquare' hsmall hc hr)
      hcells',
    Coverage.holdsOnAxis_iff hlow hhigh hcells, Int.floor_add_intCast, Int.ceil_add_intCast,
    Int.cast_add, Int.cast_add, max_add_add_right, min_add_add_right, add_le_add_iff_right,
    add_le_add_iff_right]

end IsExactMove

end Axis

end DistantChunks
