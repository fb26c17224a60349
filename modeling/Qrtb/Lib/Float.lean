import Qrtb.Lib.Python
import Mathlib.Data.Nat.Sqrt

/-!
# Floating-point numbers of the host language

Code that computes with floats is written over a type with the operations it
uses, rounding being the business of the instance. The results that do not
depend on rounding hold for every instance. Rational numbers are the instance
without rounding, doubles the one with it.
-/

class PyFloat (F : Type) where
  /-- The float a decimal literal or a small integer denotes. -/
  literal : ℚ → F
  add : F → F → F
  sub : F → F → F
  mul : F → F → F
  div : F → F → F
  /-- The quotient of two integers. -/
  divInt : ℤ → ℤ → F
  lt : F → F → Bool
  le : F → F → Bool
  /-- `statistics.mean`, `statistics.variance` and `statistics.stdev`. -/
  mean : List F → F
  variance : List F → F
  stdev : List F → F
  /-- `int(x)`, towards zero. -/
  truncate : F → ℤ
  /-- The bytes of `struct.pack('>d', x)` as one word. -/
  ieee : F → BitVec 64
  /-- `format(x, '.nf')` and `format(x, '.n%')`. -/
  fixed : ℕ → F → String
  percent : ℕ → F → String

/-- What IEEE 754 and `struct.pack` promise of floats, as far as it is needed. -/
class LawfulPyFloat (F : Type) [PyFloat F] : Prop where
  ieee_injective : Function.Injective (PyFloat.ieee : F → BitVec 64)
  zero_le_zero : PyFloat.le (PyFloat.literal 0 : F) (PyFloat.literal 0) = true
  /-- No number keeps the quotient one over all positive divisors. -/
  exists_div_ne_one (x : F) : ∃ y : F,
    PyFloat.le y (PyFloat.literal 0) = false ∧ PyFloat.div x y ≠ PyFloat.literal 1

/-- `int(seconds * 1000)`. -/
def PyFloat.milliseconds {F : Type} [PyFloat F] (seconds : F) : ℤ :=
  truncate (mul seconds (literal 1000))

namespace ExactFloat

def mean (xs : List ℚ) : ℚ := xs.sum / xs.length

def variance (xs : List ℚ) : ℚ :=
  (xs.map fun x => (x - mean xs) ^ 2).sum / (xs.length - 1)

/-- A square root cut off after 53 binary places. -/
def sqrt (q : ℚ) : ℚ := (Nat.sqrt ⌊q * 2 ^ 106⌋.toNat : ℚ) / 2 ^ 53

def truncate (q : ℚ) : ℤ := if 0 ≤ q then ⌊q⌋ else -⌊-q⌋

/-- The bit pattern of the nearest double, for numbers in the normal range. -/
def ieee (q : ℚ) : BitVec 64 :=
  if q = 0 then 0
  else
    let exponent := Int.log 2 |q|
    let mantissa := roundHalfEven (|q| / 2 ^ (exponent - 52))
    let sign : ℤ := if q < 0 then 2 ^ 63 else 0
    -- a mantissa rounded up to the next power of two carries into the exponent
    BitVec.ofInt 64 (sign + (exponent + 1023) * 2 ^ 52 + (mantissa - 2 ^ 52))

def fixed (digits : ℕ) (q : ℚ) : String :=
  let scaled := (roundHalfEven (|q| * 10 ^ digits)).toNat
  let fraction := toString (scaled % 10 ^ digits)
  let padding := String.ofList (List.replicate (digits - fraction.length) '0')
  (if q < 0 then "-" else "") ++ toString (scaled / 10 ^ digits) ++
    (if digits = 0 then "" else "." ++ padding ++ fraction)

instance : PyFloat ℚ where
  literal q := q
  add := (· + ·)
  sub := (· - ·)
  mul := (· * ·)
  div := (· / ·)
  divInt a b := (a : ℚ) / b
  lt a b := decide (a < b)
  le a b := decide (a ≤ b)
  mean := mean
  variance := variance
  stdev xs := sqrt (variance xs)
  truncate := truncate
  ieee := ieee
  fixed := fixed
  percent digits q := fixed digits (q * 100) ++ "%"

end ExactFloat
