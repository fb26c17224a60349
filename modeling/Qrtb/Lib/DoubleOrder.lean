import Qrtb.Lib.Binary64
import Mathlib

/-!
# The order of the finite doubles

Doubles are compared by their exponents first and then by their mantissas. For mantissas that
are as long as the exponent allows, as they come out of the bit pattern, this is the order of
the numbers that the doubles stand for.
-/

namespace Binary64

open Float.Model

/-- Mantissas of 53 bits, or shorter ones at the least exponent. -/
def Canonical : UnpackedFloat → Prop
  | .finite _ mantissa exponent _ =>
    mantissa < 2 ^ 53 ∧ -1074 ≤ exponent ∧ (exponent = -1074 ∨ 2 ^ 52 ≤ mantissa)
  | _ => True

theorem canonical_unpack (b : BitVec Format.binary64.numBits) :
    Canonical (UnpackedFloat.unpack Format.binary64 b) := by
  have hmantissa : (UnpackedFloat.unpackMantissa b).toNat < 2 ^ 52 :=
    (UnpackedFloat.unpackMantissa b).isLt
  have hbias : (Format.binary64.exponentBias : ℤ) = 1023 := rfl
  rw [UnpackedFloat.unpack]
  dsimp only
  split_ifs with hspecial hnone hsubnormal hzero
  · trivial
  · trivial
  · trivial
  · rw [hsubnormal, hbias]
    exact ⟨by omega, by decide, Or.inl (by decide)⟩
  · have happend : (1#1 ++ UnpackedFloat.unpackMantissa b).toNat =
        2 ^ 52 + (UnpackedFloat.unpackMantissa b).toNat := by
      rw [BitVec.toNat_append, ← Nat.shiftLeft_add_eq_or_of_lt hmantissa]
      rfl
    have hpositive : (UnpackedFloat.unpackExponent b).toNat ≠ 0 :=
      fun h => hsubnormal (BitVec.eq_of_toNat_eq h)
    refine ⟨?_, ?_, Or.inr ?_⟩
    · rw [happend]
      omega
    · rw [hbias]
      omega
    · rw [happend]
      omega

theorem mul_zpow_lt {m m' : ℕ} {e e' : ℤ} (hm : m < 2 ^ 53) (hm' : 2 ^ 52 ≤ m') (he : e < e') :
    (m : ℚ) * 2 ^ e < m' * 2 ^ e' := by
  have hpos : (0 : ℚ) < 2 ^ e := zpow_pos (by norm_num) e
  have hlow : (m : ℚ) < 2 ^ 53 := by exact_mod_cast hm
  have hhigh : (2 : ℚ) ^ 52 ≤ m' := by exact_mod_cast hm'
  calc (m : ℚ) * 2 ^ e < 2 ^ 53 * 2 ^ e := mul_lt_mul_of_pos_right hlow hpos
    _ = 2 ^ 52 * 2 ^ (e + 1) := by
      rw [zpow_add_one₀ (by norm_num)]
      ring
    _ ≤ 2 ^ 52 * 2 ^ e' := by
      gcongr
      · norm_num
      · omega
    _ ≤ m' * 2 ^ e' := by gcongr

theorem compare_magnitudes {m m' : ℕ} {e e' : ℤ}
    (h : m < 2 ^ 53 ∧ -1074 ≤ e ∧ (e = -1074 ∨ 2 ^ 52 ≤ m))
    (h' : m' < 2 ^ 53 ∧ -1074 ≤ e' ∧ (e' = -1074 ∨ 2 ^ 52 ≤ m')) :
    (compare e e').then (compare m m') = compare ((m : ℚ) * 2 ^ e) (m' * 2 ^ e') := by
  have hpos : (0 : ℚ) < 2 ^ e := zpow_pos (by norm_num) e
  rcases lt_trichotomy e e' with hlt | rfl | hgt
  · rw [compare_lt_iff_lt.mpr hlt, compare_lt_iff_lt.mpr (mul_zpow_lt h.1 (by omega) hlt)]
    rfl
  · rw [compare_eq_iff_eq.mpr rfl, Ordering.eq_then]
    rcases lt_trichotomy m m' with hlt | rfl | hgt
    · rw [compare_lt_iff_lt.mpr hlt, compare_lt_iff_lt.mpr (by gcongr)]
    · rw [compare_eq_iff_eq.mpr rfl, compare_eq_iff_eq.mpr rfl]
    · rw [compare_gt_iff_gt.mpr hgt, compare_gt_iff_gt.mpr (by gcongr)]
  · rw [compare_gt_iff_gt.mpr hgt, compare_gt_iff_gt.mpr (mul_zpow_lt h'.1 (by omega) hgt)]
    rfl

theorem swap_compare (a b : ℚ) : (compare a b).swap = compare (-a) (-b) := by
  rcases lt_trichotomy a b with hlt | rfl | hgt
  · rw [compare_lt_iff_lt.mpr hlt, compare_gt_iff_gt.mpr (neg_lt_neg hlt)]
    rfl
  · rw [compare_eq_iff_eq.mpr rfl, compare_eq_iff_eq.mpr rfl]
    rfl
  · rw [compare_gt_iff_gt.mpr hgt, compare_lt_iff_lt.mpr (neg_lt_neg hgt)]
    rfl

theorem value_pos {m : ℕ} (hm : 0 < m) (e : ℤ) : (0 : ℚ) < m * 2 ^ e :=
  mul_pos (Nat.cast_pos.mpr hm) (zpow_pos (by norm_num) e)

theorem toRat_eq (x : Float.Model) : toRat x =
    match x.unpack with
    | .finite .positive m e _ => m * 2 ^ e
    | .finite .negative m e _ => -(m * 2 ^ e)
    | _ => 0 := by
  rw [toRat]
  cases x.unpack with
  | finite s m e h => cases s <;> rfl
  | zero s => cases s <;> simp [magnitude]
  | infinity s => cases s <;> simp [magnitude]
  | notANumber => rfl

theorem compare_eq_toRat {x y : Float.Model} (hx : x.isFinite = true) (hy : y.isFinite = true) :
    x.compare y = some (compare (toRat x) (toRat y)) := by
  have hcx := canonical_unpack x.toBits.toBitVec
  have hcy := canonical_unpack y.toBits.toBitVec
  rw [toRat_eq, toRat_eq, Float.Model.compare]
  rw [Float.Model.isFinite, Float.Model.unpack] at hx hy
  rw [Float.Model.unpack, Float.Model.unpack]
  generalize UnpackedFloat.unpack Format.binary64 x.toBits.toBitVec = u at hx hcx
  generalize UnpackedFloat.unpack Format.binary64 y.toBits.toBitVec = v at hy hcy
  cases u with
  | notANumber => cases hx
  | infinity => cases hx
  | zero s =>
    cases v with
    | notANumber => cases hy
    | infinity => cases hy
    | zero s' => exact congrArg some (compare_eq_iff_eq.mpr rfl).symm
    | finite s' m' e' h' =>
      have hpos' : (0 : ℚ) < m' * 2 ^ e' := value_pos h' e'
      cases s' with
      | positive => exact congrArg some (compare_lt_iff_lt.mpr hpos').symm
      | negative => exact congrArg some (compare_gt_iff_gt.mpr (neg_lt_zero.mpr hpos')).symm
  | finite s m e h =>
    have hpos : (0 : ℚ) < m * 2 ^ e := value_pos h e
    cases v with
    | notANumber => cases hy
    | infinity => cases hy
    | zero s' =>
      cases s with
      | positive => exact congrArg some (compare_gt_iff_gt.mpr hpos).symm
      | negative => exact congrArg some (compare_lt_iff_lt.mpr (neg_lt_zero.mpr hpos)).symm
    | finite s' m' e' h' =>
      have hpos' : (0 : ℚ) < m' * 2 ^ e' := value_pos h' e'
      have hsame := compare_magnitudes hcx hcy
      cases s with
      | positive =>
        cases s' with
        | positive => exact congrArg some hsame
        | negative =>
          exact congrArg some (compare_gt_iff_gt.mpr ((neg_lt_zero.mpr hpos').trans hpos)).symm
      | negative =>
        cases s' with
        | positive =>
          exact congrArg some (compare_lt_iff_lt.mpr ((neg_lt_zero.mpr hpos).trans hpos')).symm
        | negative =>
          exact congrArg some ((congrArg Ordering.swap hsame).trans (swap_compare _ _))

theorem lt_iff_toRat {x y : Float.Model} (hx : x.isFinite = true) (hy : y.isFinite = true) :
    x.lt y = true ↔ toRat x < toRat y := by
  have hcompare : x.unpack.compare y.unpack = some (compare (toRat x) (toRat y)) :=
    compare_eq_toRat hx hy
  rw [Float.Model.lt, UnpackedFloat.lt, hcompare, ← compare_lt_iff_lt]
  simp

theorem le_iff_toRat {x y : Float.Model} (hx : x.isFinite = true) (hy : y.isFinite = true) :
    x.le y = true ↔ toRat x ≤ toRat y := by
  have hcompare : x.unpack.compare y.unpack = some (compare (toRat x) (toRat y)) :=
    compare_eq_toRat hx hy
  rw [Float.Model.le, UnpackedFloat.le, hcompare, Option.any_some, ← compare_le_iff_le]
  exact Ordering.ne_gt_iff_isLE.symm

end Binary64
