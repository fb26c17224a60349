import Mathlib.Algebra.Group.Nat.Defs
import Mathlib.Data.List.OfFn
import Mathlib.Data.Fin.Basic
import Mathlib.Tactic.FinCases

/-!
# SHA-3 on bits

The hash functions of FIPS 202 as the standard defines them: the step mappings of
Keccak-p[1600, 24] on an array of 5 × 5 × 64 bits, the sponge over bit strings with
the padding pad10*1, and the two digests with the suffix 01. Bytes are read with
their least significant bit first.
-/

namespace Fips202

abbrev Bits := List Bool

/-- `A[x, y, z]`. -/
abbrev StateArray := Fin 5 → Fin 5 → Fin 64 → Bool

/-- `A[x, y, z] = S[64 (5 y + x) + z]`. -/
def toStateArray (s : Bits) : StateArray := fun x y z => s.getD (64 * (5 * y + x) + z) false

/-- Planes, lanes and bits one after another. -/
def toBits (a : StateArray) : Bits :=
  (List.ofFn fun y : Fin 5 => (List.ofFn fun x : Fin 5 => List.ofFn fun z => a x y z).flatten).flatten

def parity (a : StateArray) (x : Fin 5) (z : Fin 64) : Bool :=
  a x 0 z ^^ a x 1 z ^^ a x 2 z ^^ a x 3 z ^^ a x 4 z

def theta (a : StateArray) : StateArray := fun x y z =>
  a x y z ^^ (parity a (x - 1) z ^^ parity a (x + 1) (z - 1))

/-- The offset of step `t`, a triangular number. -/
def offset (t : ℕ) : Fin 64 := Fin.ofNat 64 ((t + 1) * (t + 2) / 2)

/-- The lanes are visited from `(1, 0)` on, from `(x, y)` to `(y, 2x + 3y)`. -/
def rhoStep (a : StateArray) (s : StateArray × Fin 5 × Fin 5) (t : ℕ) :
    StateArray × Fin 5 × Fin 5 :=
  let (a', x, y) := s
  (fun x' y' z => if x' = x ∧ y' = y then a x y (z - offset t) else a' x' y' z, y, 2 * x + 3 * y)

def rho (a : StateArray) : StateArray := ((List.range 24).foldl (rhoStep a) (a, 1, 0)).1

def pi (a : StateArray) : StateArray := fun x y z => a (x + 3 * y) x z

def chi (a : StateArray) : StateArray := fun x y z =>
  a x y z ^^ ((a (x + 1) y z ^^ true) && a (x + 2) y z)

/-- One step of the shift register of eight bits. -/
def lfsrStep (r : Bits) : Bits :=
  let r := false :: r
  let r := r.set 0 (r.getD 0 false ^^ r.getD 8 false)
  let r := r.set 4 (r.getD 4 false ^^ r.getD 8 false)
  let r := r.set 5 (r.getD 5 false ^^ r.getD 8 false)
  let r := r.set 6 (r.getD 6 false ^^ r.getD 8 false)
  r.take 8

/-- The bit of the shift register after `t` steps. -/
def rc (t : ℕ) : Bool :=
  if t % 255 = 0 then true
  else ((List.range (t % 255)).foldl (fun r _ => lfsrStep r)
    [true, false, false, false, false, false, false, false]).getD 0 false

/-- The constant of a round: bit `2 ^ j - 1` is the bit `j + 7 ir` of the register. -/
def roundConstant (ir : ℕ) : Bits :=
  (List.range 7).foldl (fun constant j => constant.set (2 ^ j - 1) (rc (j + 7 * ir)))
    (List.replicate 64 false)

def iota (ir : ℕ) (a : StateArray) : StateArray := fun x y z =>
  if x = 0 ∧ y = 0 then a 0 0 z ^^ (roundConstant ir).getD z false else a x y z

def round (a : StateArray) (ir : ℕ) : StateArray := iota ir (chi (pi (rho (theta a))))

def keccakP (s : Bits) : Bits := toBits ((List.range 24).foldl round (toStateArray s))

/-- `1 0^j 1` with the least `j` that fills a string of length `m` to a multiple of `x`. -/
def pad10star1 (x m : ℕ) : Bits :=
  let j := ((-(m : ℤ) - 2) % x).toNat
  true :: (List.replicate j false ++ [true])

/-- Absorb the given number of blocks of `r` bits. -/
def absorb (r : ℕ) : ℕ → Bits → Bits → Bits
  | 0, _, s => s
  | blocks + 1, p, s =>
    absorb r blocks (p.drop r)
      (keccakP (s.zipWith xor (p.take r ++ List.replicate (1600 - r) false)))

/-- Append blocks of `r` bits until there are `d`; with `0 < r` the fuel `d` is enough. -/
def squeeze (r d : ℕ) : ℕ → Bits → Bits → Bits
  | 0, z, _ => z.take d
  | fuel + 1, z, s =>
    let z := z ++ s.take r
    if d ≤ z.length then z.take d else squeeze r d fuel z (keccakP s)

/-- `SPONGE[KECCAK-p[1600, 24], pad10*1, r](N, d)`. -/
def sponge (r : ℕ) (n : Bits) (d : ℕ) : Bits :=
  let p := n ++ pad10star1 r n.length
  squeeze r d d [] (absorb r (p.length / r) p (List.replicate 1600 false))

/-- `KECCAK[c](N, d)`. -/
def keccak (c : ℕ) (n : Bits) (d : ℕ) : Bits := sponge (1600 - c) n d

def sha3_256 (m : Bits) : Bits := keccak 512 (m ++ [false, true]) 256

def sha3_512 (m : Bits) : Bits := keccak 1024 (m ++ [false, true]) 512

def bitsOfByte (b : UInt8) : Bits := (List.range 8).map b.toNat.testBit

def bitsOfBytes (data : List UInt8) : Bits := data.flatMap bitsOfByte

end Fips202
