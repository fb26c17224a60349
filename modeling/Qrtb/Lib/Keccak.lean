import Qrtb.Lib.Bytes

/-!
# SHA-3 over 64-bit lanes

The sponge of FIPS 202 with the permutation Keccak-f[1600], written on the 25
lanes of the state instead of its 1600 bits. A plane collects the five lanes of
one row `y`; lane `x` of plane `y` is `A[x, y]`. Keeping planes as records
rather than lists lets the kernel evaluate digests of short messages.
-/

namespace Keccak

abbrev Lane := BitVec 64

/-- The two coordinates of a lane count modulo five. -/
instance (priority := high) neZero_five : NeZero 5 := ⟨by decide⟩

structure Plane where
  l0 : Lane
  l1 : Lane
  l2 : Lane
  l3 : Lane
  l4 : Lane
  deriving DecidableEq

structure State where
  p0 : Plane
  p1 : Plane
  p2 : Plane
  p3 : Plane
  p4 : Plane
  deriving DecidableEq

def Plane.zero : Plane := ⟨0, 0, 0, 0, 0⟩

def State.zero : State := ⟨.zero, .zero, .zero, .zero, .zero⟩

def Plane.xor (p q : Plane) : Plane :=
  ⟨p.l0 ^^^ q.l0, p.l1 ^^^ q.l1, p.l2 ^^^ q.l2, p.l3 ^^^ q.l3, p.l4 ^^^ q.l4⟩

def State.xor (a b : State) : State :=
  ⟨a.p0.xor b.p0, a.p1.xor b.p1, a.p2.xor b.p2, a.p3.xor b.p3, a.p4.xor b.p4⟩

def Plane.lanes (p : Plane) : List Lane := [p.l0, p.l1, p.l2, p.l3, p.l4]

def State.lanes (a : State) : List Lane :=
  a.p0.lanes ++ (a.p1.lanes ++ (a.p2.lanes ++ (a.p3.lanes ++ a.p4.lanes)))

/-- Each lane takes up the parities of the two neighbouring columns. -/
def theta (a : State) : State :=
  let c := a.p0.xor (a.p1.xor (a.p2.xor (a.p3.xor a.p4)))
  let d : Plane :=
    ⟨c.l4 ^^^ c.l1.rotateLeft 1, c.l0 ^^^ c.l2.rotateLeft 1, c.l1 ^^^ c.l3.rotateLeft 1,
      c.l2 ^^^ c.l4.rotateLeft 1, c.l3 ^^^ c.l0.rotateLeft 1⟩
  ⟨a.p0.xor d, a.p1.xor d, a.p2.xor d, a.p3.xor d, a.p4.xor d⟩

/-- Rho rotates lane `(x, y)` by its triangular offset, pi then moves it to
`(y, 2x + 3y)`; the two are written as one table. -/
def rhoPi (a : State) : State where
  p0 := ⟨a.p0.l0, a.p1.l1.rotateLeft 44, a.p2.l2.rotateLeft 43, a.p3.l3.rotateLeft 21,
    a.p4.l4.rotateLeft 14⟩
  p1 := ⟨a.p0.l3.rotateLeft 28, a.p1.l4.rotateLeft 20, a.p2.l0.rotateLeft 3,
    a.p3.l1.rotateLeft 45, a.p4.l2.rotateLeft 61⟩
  p2 := ⟨a.p0.l1.rotateLeft 1, a.p1.l2.rotateLeft 6, a.p2.l3.rotateLeft 25, a.p3.l4.rotateLeft 8,
    a.p4.l0.rotateLeft 18⟩
  p3 := ⟨a.p0.l4.rotateLeft 27, a.p1.l0.rotateLeft 36, a.p2.l1.rotateLeft 10,
    a.p3.l2.rotateLeft 15, a.p4.l3.rotateLeft 56⟩
  p4 := ⟨a.p0.l2.rotateLeft 62, a.p1.l3.rotateLeft 55, a.p2.l4.rotateLeft 39,
    a.p3.l0.rotateLeft 41, a.p4.l1.rotateLeft 2⟩

def Plane.chi (p : Plane) : Plane :=
  ⟨p.l0 ^^^ (~~~p.l1 &&& p.l2), p.l1 ^^^ (~~~p.l2 &&& p.l3), p.l2 ^^^ (~~~p.l3 &&& p.l4),
    p.l3 ^^^ (~~~p.l4 &&& p.l0), p.l4 ^^^ (~~~p.l0 &&& p.l1)⟩

def chi (a : State) : State := ⟨a.p0.chi, a.p1.chi, a.p2.chi, a.p3.chi, a.p4.chi⟩

def iota (constant : Lane) (a : State) : State :=
  { a with p0 := { a.p0 with l0 := a.p0.l0 ^^^ constant } }

def roundConstants : List Lane := [
  0x0000000000000001, 0x0000000000008082, 0x800000000000808A, 0x8000000080008000,
  0x000000000000808B, 0x0000000080000001, 0x8000000080008081, 0x8000000000008009,
  0x000000000000008A, 0x0000000000000088, 0x0000000080008009, 0x000000008000000A,
  0x000000008000808B, 0x800000000000008B, 0x8000000000008089, 0x8000000000008003,
  0x8000000000008002, 0x8000000000000080, 0x000000000000800A, 0x800000008000000A,
  0x8000000080008081, 0x8000000000008080, 0x0000000080000001, 0x8000000080008008]

def round (a : State) (constant : Lane) : State := iota constant (chi (rhoPi (theta a)))

def keccakF (a : State) : State := roundConstants.foldl round a

def laneOfBytes (data : Bytes) : Lane :=
  data.foldr (fun b acc => acc <<< 8 ||| BitVec.ofNat 64 b.toNat) 0

def bytesOfLane (l : Lane) : Bytes :=
  (List.range 8).map fun i => UInt8.ofNat ((l >>> (8 * i)).toNat % 256)

def planeOfBytes (data : Bytes) : Plane :=
  ⟨laneOfBytes (data.take 8), laneOfBytes ((data.drop 8).take 8),
    laneOfBytes ((data.drop 16).take 8), laneOfBytes ((data.drop 24).take 8),
    laneOfBytes ((data.drop 32).take 8)⟩

/-- A block shorter than the state leaves the capacity lanes zero. -/
def stateOfBytes (data : Bytes) : State :=
  ⟨planeOfBytes data, planeOfBytes (data.drop 40), planeOfBytes (data.drop 80),
    planeOfBytes (data.drop 120), planeOfBytes (data.drop 160)⟩

def bytesOfState (a : State) : Bytes := a.lanes.flatMap bytesOfLane

/-- The suffix bits `01` followed by `pad10*1`, as whole bytes. -/
def pad (rate : ℕ) (message : Bytes) : Bytes :=
  let missing := rate - message.length % rate
  if missing = 1 then message ++ [0x86]
  else message ++ (0x06 :: (List.replicate (missing - 2) 0 ++ [0x80]))

def absorb (rate : ℕ) : ℕ → Bytes → State → State
  | 0, _, a => a
  | blocks + 1, data, a =>
    absorb rate blocks (data.drop rate) (keccakF (a.xor (stateOfBytes (data.take rate))))

/-- One squeeze suffices for the digest lengths below. -/
def sponge (rate outputLength : ℕ) (message : Bytes) : Bytes :=
  let data := pad rate message
  (bytesOfState (absorb rate (data.length / rate) data .zero)).take outputLength

def sha3_256 (message : Bytes) : Bytes := sponge 136 32 message

def sha3_512 (message : Bytes) : Bytes := sponge 72 64 message

theorem length_bytesOfState (a : State) : (bytesOfState a).length = 200 := by
  simp [bytesOfState, State.lanes, Plane.lanes, bytesOfLane]

theorem length_sha3_256 (message : Bytes) : (sha3_256 message).length = 32 := by
  simp [sha3_256, sponge, length_bytesOfState]

theorem length_sha3_512 (message : Bytes) : (sha3_512 message).length = 64 := by
  simp [sha3_512, sponge, length_bytesOfState]

theorem laneOfBytes_append (d : Bytes) (b : UInt8) :
    laneOfBytes (d ++ [b]) = laneOfBytes d ||| BitVec.ofNat 64 b.toNat <<< (8 * d.length) := by
  induction d with
  | nil => simp [laneOfBytes]
  | cons c d ih =>
    have hcons : ∀ d, laneOfBytes (c :: d) = laneOfBytes d <<< 8 ||| BitVec.ofNat 64 c.toNat :=
      fun d => List.foldr_cons
    rw [List.cons_append, hcons, hcons, ih, BitVec.shiftLeft_or_distrib, ← BitVec.shiftLeft_add,
      List.length_cons, Nat.mul_succ]
    ac_rfl

theorem length_pad {rate : ℕ} {rest : Bytes} (h : rest.length < rate) :
    (pad rate rest).length = rate := by
  rw [pad, Nat.mod_eq_of_lt h]
  split_ifs with hone <;> simp only [List.length_append, List.length_cons, List.length_replicate,
    List.length_nil] <;> omega

theorem pad_eq (rate : ℕ) (message : Bytes) :
    pad rate message = message.take (message.length / rate * rate) ++
      pad rate (message.drop (message.length / rate * rate)) := by
  have hmod : (message.drop (message.length / rate * rate)).length % rate =
      message.length % rate := by
    rw [List.length_drop, Nat.mul_comm, ← Nat.mod_eq_sub_mul_div, Nat.mod_mod]
  rw [pad, pad, hmod]
  split_ifs
  · rw [← List.append_assoc, List.take_append_drop]
  · rw [← List.append_assoc, List.take_append_drop]

theorem absorb_succ {rate blocks : ℕ} {data last : Bytes} (hdata : data.length = blocks * rate)
    (hlast : last.length = rate) (a : State) :
    absorb rate (blocks + 1) (data ++ last) a =
      keccakF ((absorb rate blocks data a).xor (stateOfBytes last)) := by
  induction blocks generalizing data a with
  | zero =>
    obtain rfl := List.eq_nil_of_length_eq_zero (hdata.trans (Nat.zero_mul rate))
    simp only [absorb, List.nil_append, List.take_of_length_le hlast.le]
  | succ blocks ih =>
    have hstep : ∀ blocks (data : Bytes), absorb rate (blocks + 1) data a =
        absorb rate blocks (data.drop rate)
          (keccakF (a.xor (stateOfBytes (data.take rate)))) := fun _ _ => rfl
    rw [Nat.succ_mul] at hdata
    have hrest : (data.drop rate).length = blocks * rate := by
      rw [List.length_drop]
      omega
    rw [hstep, hstep, List.take_append_of_le_length (by omega),
      List.drop_append_of_le_length (by omega), ih hrest]

theorem absorb_take (rate blocks : ℕ) (data : Bytes) (a : State) :
    absorb rate blocks (data.take (blocks * rate)) a =
      absorb rate blocks data a := by
  induction blocks generalizing data a with
  | zero => rfl
  | succ blocks ih =>
    rw [absorb, absorb, List.take_take, List.drop_take, Nat.succ_mul,
      min_eq_left (Nat.le_add_left _ _), Nat.add_sub_cancel, ih]

theorem sponge_eq {rate : ℕ} (hrate : 0 < rate) (outputLength : ℕ) (message : Bytes) :
    sponge rate outputLength message =
      (bytesOfState (keccakF ((absorb rate (message.length / rate) message .zero).xor
        (stateOfBytes (pad rate (message.drop (message.length / rate * rate))))))).take
          outputLength := by
  have hfull : (message.take (message.length / rate * rate)).length =
      message.length / rate * rate := by
    rw [List.length_take, min_eq_left (Nat.div_mul_le_self _ _)]
  have hlast : (pad rate (message.drop (message.length / rate * rate))).length = rate := by
    apply length_pad
    rw [List.length_drop, Nat.mul_comm, ← Nat.mod_eq_sub_mul_div]
    exact Nat.mod_lt _ hrate
  have hcount : (pad rate message).length / rate = message.length / rate + 1 := by
    rw [pad_eq, List.length_append, hfull, hlast, ← Nat.succ_mul, Nat.mul_div_cancel _ hrate]
  rw [sponge, hcount, pad_eq, absorb_succ hfull hlast, absorb_take]

example : sha3_256 [] =
    [167, 255, 198, 248, 191, 30, 215, 102, 81, 193, 71, 86, 160, 97, 214, 98, 245, 128, 255, 77,
      228, 59, 73, 250, 130, 216, 10, 75, 128, 248, 67, 74] := by
  decide +kernel

attribute [irreducible] sha3_256 sha3_512

/-- Two different messages with one digest. -/
def Collision (m n : Bytes) : Prop := m ≠ n ∧ sha3_256 m = sha3_256 n

theorem sha3_256_eq_iff {m n : Bytes} : sha3_256 m = sha3_256 n ↔ m = n ∨ Collision m n := by
  by_cases h : m = n
  · simp [h]
  · simp [h, Collision]

/-- A collision among the strings of a list. -/
def CollisionIn (inputs : List Bytes) : Prop := ∃ m ∈ inputs, ∃ n ∈ inputs, Collision m n

theorem CollisionIn.mono {inputs inputs' : List Bytes} (h : CollisionIn inputs)
    (hsub : inputs ⊆ inputs') : CollisionIn inputs' := by
  obtain ⟨m, hm, n, hn, hcollision⟩ := h
  exact ⟨m, hsub hm, n, hsub hn, hcollision⟩

/-- Listed strings with one digest are equal, or there is a collision among the listed ones. -/
theorem eq_or_collisionIn {inputs : List Bytes} {m n : Bytes} (hm : m ∈ inputs) (hn : n ∈ inputs)
    (h : sha3_256 m = sha3_256 n) : m = n ∨ CollisionIn inputs := by
  rcases sha3_256_eq_iff.mp h with rfl | hcollision
  · exact Or.inl rfl
  · exact Or.inr ⟨m, hm, n, hn, hcollision⟩

end Keccak
