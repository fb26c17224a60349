import Qrtb.Lib.Float

/-!
# Doubles

The instance with rounding: IEEE 754 doubles as their bit patterns. Quotients of
integers, means and variances are exact fractions rounded once. An infinite
value or one that is no number carries over to a mean or a variance. Converting
such a value to an integer raises in the host language and gives zero here.
-/

namespace Binary64

open Float.Model

def ofExact (n : ℤ) : UnpackedFloat :=
  if h : n = 0 then .zero .positive
  else .finite (if n < 0 then .negative else .positive) n.natAbs 0 (Int.natAbs_pos.mpr h)

def ofFraction (a b : ℤ) : Float.Model :=
  pack (UnpackedFloat.div Format.binary64 (ofExact a) (ofExact b))

def ofRat (q : ℚ) : Float.Model := ofFraction q.num q.den

def magnitude : UnpackedFloat → ℚ
  | .finite _ mantissa exponent _ => mantissa * 2 ^ exponent
  | _ => 0

def isNegative : UnpackedFloat → Bool
  | .finite .negative .. | .zero .negative | .infinity .negative => true
  | _ => false

def toRat (x : Float.Model) : ℚ :=
  if isNegative x.unpack then -magnitude x.unpack else magnitude x.unpack

/-- A statistic of finite doubles, computed exactly; the other values are added up and divided. -/
def statistic (exact : List ℚ → ℚ) (divisor : ℕ) (xs : List Float.Model) : Float.Model :=
  match xs.filter fun x => !x.isFinite with
  | [] => ofRat (exact (xs.map toRat))
  | special => (special.foldl Float.Model.add (ofNat 0)).div (ofNat divisor)

def mean (xs : List Float.Model) : Float.Model := statistic ExactFloat.mean xs.length xs

def variance (xs : List Float.Model) : Float.Model :=
  statistic ExactFloat.variance (xs.length - 1) xs

def fixed (digits : ℕ) (x : Float.Model) : String :=
  (if isNegative x.unpack then "-" else "") ++
    match x.unpack with
    | .notANumber => "nan"
    | .infinity _ => "inf"
    | finite => ExactFloat.fixed digits (magnitude finite)

instance : PyFloat Float.Model where
  literal := ofRat
  add := Float.Model.add
  sub := Float.Model.sub
  mul := Float.Model.mul
  div := Float.Model.div
  divInt := ofFraction
  lt := Float.Model.lt
  le := Float.Model.le
  mean := mean
  variance := variance
  stdev xs := (variance xs).sqrt
  truncate x := ExactFloat.truncate (toRat x)
  ieee x := x.toBits.toBitVec
  fixed := fixed
  percent digits x := fixed digits (x.mul (ofNat 100)) ++ "%"

example : (PyFloat.literal (67 / 100) : Float.Model).toBits = 0x3FE570A3D70A3D71 := by
  decide +kernel

theorem ofFraction_self {n : ℤ} (hn : 0 < n) : ofFraction n n = ofRat 1 := by
  have hexact : ofExact n = .finite .positive n.natAbs 0 (Int.natAbs_pos.mpr hn.ne') := by
    rw [ofExact, dif_neg hn.ne', if_neg hn.not_gt]
  have hcore : ∀ m : ℕ, 0 < m → UnpackedFloat.divCore Format.binary64 m 0 m 0 =
      UnpackedFloat.divCore Format.binary64 1 0 1 0 := by
    intro m hm
    simp only [UnpackedFloat.divCore, sub_self, Nat.shiftLeft_eq, Nat.mul_mod_right,
      Nat.mul_div_cancel_left _ hm]
    simp [UnpackedFloat.accuracyOfFraction]
  have hround : ∀ (m : ℕ) (hm : 0 < m), UnpackedFloat.div Format.binary64
      (.finite .positive m 0 hm) (.finite .positive m 0 hm) =
        let quotient := UnpackedFloat.divCore Format.binary64 m 0 m 0
        UnpackedFloat.roundWithAccuracy Format.binary64 (.positive / .positive) quotient.1
          quotient.2.1 quotient.2.2 := fun _ _ => rfl
  have hdiv : UnpackedFloat.div Format.binary64 (ofExact n) (ofExact n) =
      UnpackedFloat.div Format.binary64 (ofExact 1) (ofExact 1) := by
    rw [hexact, hround, hcore _ (Int.natAbs_pos.mpr hn.ne')]
    rfl
  rw [ofFraction, hdiv]
  rfl

def infinity : Float.Model := pack (.infinity .positive)

theorem div_infinity_ne_one (x : Float.Model) : x.div infinity ≠ ofRat 1 := by
  have hunpack : infinity.unpack = .infinity .positive := by rfl
  have hzero : ∀ s, pack (.zero s) ≠ ofRat 1 := by
    intro s
    cases s
    · decide +kernel
    · decide +kernel
  have hnone : pack .notANumber ≠ ofRat 1 := by decide +kernel
  rw [Float.Model.div, hunpack]
  cases x.unpack with
  | notANumber => exact hnone
  | infinity s => exact hnone
  | zero s => exact hzero _
  | finite s m e h => exact hzero _

instance : LawfulPyFloat Float.Model where
  ieee_injective := by
    intro x y h
    cases x
    cases y
    obtain rfl := UInt64.toBitVec_inj.mp h
    rfl
  zero_le_zero := by decide +kernel
  exists_div_ne_one x := ⟨infinity, by decide +kernel, div_infinity_ne_one x⟩

end Binary64
