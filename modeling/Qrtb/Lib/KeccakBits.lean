import Qrtb.Lib.Buffer
import Qrtb.Lib.Fips202
import Qrtb.Lib.Keccak
import Mathlib.Algebra.Group.Fin.Basic
import Mathlib.Data.Fintype.Basic
import Mathlib.Data.List.GetD
import Mathlib.Tactic.LinearCombination

/-!
# Lanes and bits

SHA-3 over lanes computes SHA-3 over bits. Bit `z` of lane `x` in plane `y` is the
bit `A[x, y, z]` of a state array; under this reading every step mapping on lanes is
the step mapping on bits, and a byte string absorbed by the one sponge is its bits
absorbed by the other.
-/

namespace Keccak

open Fips202 (Bits StateArray bitsOfByte bitsOfBytes)

def Plane.get (p : Plane) : Fin 5 → Lane
  | 0 => p.l0
  | 1 => p.l1
  | 2 => p.l2
  | 3 => p.l3
  | 4 => p.l4

def State.get (a : State) : Fin 5 → Plane
  | 0 => a.p0
  | 1 => a.p1
  | 2 => a.p2
  | 3 => a.p3
  | 4 => a.p4

def State.bits (a : State) : StateArray := fun x y z => ((a.get y).get x).getLsbD z

theorem Plane.get_xor (p q : Plane) (x : Fin 5) : (p.xor q).get x = p.get x ^^^ q.get x := by
  fin_cases x <;> rfl

theorem State.get_xor (a b : State) (y : Fin 5) : (a.xor b).get y = (a.get y).xor (b.get y) := by
  fin_cases y <;> rfl

theorem State.bits_xor (a b : State) (x y : Fin 5) (z : Fin 64) :
    (a.xor b).bits x y z = (a.bits x y z ^^ b.bits x y z) := by
  rw [bits, get_xor, Plane.get_xor, BitVec.getLsbD_xor]
  rfl

theorem getLsbD_rotateLeft (l : Lane) {n : ℕ} (hn : n < 64) (z : Fin 64) :
    (l.rotateLeft n).getLsbD z = l.getLsbD ((z - Fin.ofNat 64 n : Fin 64) : ℕ) := by
  have hz := z.isLt
  rw [BitVec.getLsbD_rotateLeft, Nat.mod_eq_of_lt hn, Fin.sub_def]
  simp only [Fin.val_ofNat, Nat.mod_eq_of_lt hn]
  by_cases h : (z : ℕ) < n
  · have hidx : 64 - n + (z : ℕ) < 64 := by omega
    simp only [h, decide_true, cond_true, Nat.mod_eq_of_lt hidx]
  · have hidx : (64 - n + (z : ℕ)) % 64 = z - n := by omega
    simp [h, hz, hidx]

def columns (a : State) : Plane := a.p0.xor (a.p1.xor (a.p2.xor (a.p3.xor a.p4)))

def spread (c : Plane) : Plane :=
  ⟨c.l4 ^^^ c.l1.rotateLeft 1, c.l0 ^^^ c.l2.rotateLeft 1, c.l1 ^^^ c.l3.rotateLeft 1,
    c.l2 ^^^ c.l4.rotateLeft 1, c.l3 ^^^ c.l0.rotateLeft 1⟩

theorem get_theta (a : State) (y : Fin 5) :
    (theta a).get y = (a.get y).xor (spread (columns a)) := by
  fin_cases y <;> rfl

theorem get_spread (c : Plane) (x : Fin 5) :
    (spread c).get x = c.get (x - 1) ^^^ (c.get (x + 1)).rotateLeft 1 := by
  fin_cases x <;> rfl

theorem getLsbD_columns (a : State) (x : Fin 5) (z : Fin 64) :
    ((columns a).get x).getLsbD z = Fips202.parity a.bits x z := by
  simp only [columns, Plane.get_xor, BitVec.getLsbD_xor, Fips202.parity, State.bits,
    Bool.xor_assoc]
  rfl

theorem rotateLeft_zero (l : Lane) : l.rotateLeft 0 = l := by
  apply BitVec.eq_of_getLsbD_eq
  intro z hz
  have hbit := getLsbD_rotateLeft l (by decide : 0 < 64) ⟨z, hz⟩
  have hsame : (⟨z, hz⟩ - Fin.ofNat 64 0 : Fin 64) = ⟨z, hz⟩ := sub_zero _
  rwa [hsame] at hbit

theorem bits_theta (a : State) : (theta a).bits = Fips202.theta a.bits := by
  funext x y z
  rw [State.bits, get_theta, Plane.get_xor, get_spread, BitVec.getLsbD_xor, BitVec.getLsbD_xor,
    getLsbD_rotateLeft _ (by decide), getLsbD_columns, getLsbD_columns]
  rfl

theorem Plane.get_chi (p : Plane) (x : Fin 5) :
    p.chi.get x = p.get x ^^^ (~~~p.get (x + 1) &&& p.get (x + 2)) := by
  fin_cases x <;> rfl

theorem get_chi (a : State) (y : Fin 5) : (chi a).get y = (a.get y).chi := by
  fin_cases y <;> rfl

theorem bits_chi (a : State) : (chi a).bits = Fips202.chi a.bits := by
  funext x y z
  simp only [State.bits, get_chi, Plane.get_chi, BitVec.getLsbD_xor, BitVec.getLsbD_and,
    BitVec.getLsbD_not, z.isLt, decide_true, Bool.true_and, Fips202.chi, Bool.xor_true]

/-- The rotation of each lane, by column and plane. -/
def rotation (x y : Fin 5) : ℕ :=
  ([[0, 36, 3, 41, 18], [1, 44, 10, 45, 2], [62, 6, 43, 15, 61], [28, 55, 25, 21, 56],
    [27, 20, 39, 8, 14]].getD x []).getD y 0

theorem get_rhoPi (a : State) (x y : Fin 5) :
    ((rhoPi a).get y).get x = ((a.get x).get (x + 3 * y)).rotateLeft (rotation (x + 3 * y) x) := by
  by_cases h : x = 0 ∧ y = 0
  · obtain ⟨rfl, rfl⟩ := h
    exact (rotateLeft_zero _).symm
  · fin_cases x <;> fin_cases y <;> first | rfl | exact absurd ⟨rfl, rfl⟩ h

/-- The walk of the standard, writing down the offsets alone. -/
def offsetStep (s : (Fin 5 → Fin 5 → Fin 64) × Fin 5 × Fin 5) (t : ℕ) :
    (Fin 5 → Fin 5 → Fin 64) × Fin 5 × Fin 5 :=
  let (table, x, y) := s
  (fun x' y' => if x' = x ∧ y' = y then Fips202.offset t else table x' y', y, 2 * x + 3 * y)

theorem foldl_rhoStep (a : StateArray) (ts : List ℕ) (table : Fin 5 → Fin 5 → Fin 64)
    (x y : Fin 5) :
    ts.foldl (Fips202.rhoStep a) (fun x y z => a x y (z - table x y), x, y) =
      (fun x' y' z => a x' y' (z - (ts.foldl offsetStep (table, x, y)).1 x' y'),
        (ts.foldl offsetStep (table, x, y)).2) := by
  induction ts generalizing table x y with
  | nil => rfl
  | cons t ts ih =>
    have hstep : Fips202.rhoStep a (fun x y z => a x y (z - table x y), x, y) t =
        (fun x' y' z => a x' y' (z - (offsetStep (table, x, y) t).1 x' y'),
          y, 2 * x + 3 * y) := by
      simp only [Fips202.rhoStep, offsetStep, Prod.mk.injEq, and_true]
      funext x' y' z
      by_cases h : x' = x ∧ y' = y
      · obtain ⟨rfl, rfl⟩ := h
        simp
      · simp [h]
    rw [List.foldl_cons, List.foldl_cons, hstep]
    exact ih (offsetStep (table, x, y) t).1 y (2 * x + 3 * y)

/-- The walk passes every lane but the first and gives it the rotation of the table. -/
theorem walk_eq (x y : Fin 5) :
    ((List.range 24).foldl offsetStep (fun _ _ => 0, 1, 0)).1 x y =
      Fin.ofNat 64 (rotation x y) := by
  revert x y
  decide +kernel

theorem rho_eq (a : StateArray) (x y : Fin 5) (z : Fin 64) :
    Fips202.rho a x y z = a x y (z - Fin.ofNat 64 (rotation x y)) := by
  have hwalk := foldl_rhoStep a (List.range 24) (fun _ _ => 0) 1 0
  have hstart : (fun (x y : Fin 5) (z : Fin 64) => a x y (z - 0)) = a := by
    funext x y z
    rw [sub_zero]
  rw [hstart] at hwalk
  rw [Fips202.rho, hwalk, ← walk_eq]

theorem bits_rhoPi (a : State) : (rhoPi a).bits = Fips202.pi (Fips202.rho a.bits) := by
  funext x y z
  have hlt : rotation (x + 3 * y) x < 64 := by
    revert x y
    decide
  rw [State.bits, get_rhoPi, getLsbD_rotateLeft _ hlt, Fips202.pi, rho_eq]
  rfl

theorem bits_iota {ir : ℕ} {constant : Lane}
    (hconstant : ∀ z : Fin 64, constant.getLsbD z = (Fips202.roundConstant ir).getD z false)
    (a : State) : (iota constant a).bits = Fips202.iota ir a.bits := by
  funext x y z
  rw [Fips202.iota]
  split_ifs with h
  · obtain ⟨rfl, rfl⟩ := h
    rw [← hconstant]
    exact BitVec.getLsbD_xor
  · revert h
    fin_cases x <;> fin_cases y <;> intro h <;> first | rfl | exact absurd ⟨rfl, rfl⟩ h

theorem roundConstants_eq :
    ∀ ir : Fin 24,
      (List.finRange 64).map (fun z : Fin 64 => (roundConstants.getD ir 0).getLsbD z) =
        Fips202.roundConstant ir := by
  decide +kernel

theorem getLsbD_roundConstants (ir : Fin 24) (z : Fin 64) :
    (roundConstants.getD ir 0).getLsbD z = (Fips202.roundConstant ir).getD z false := by
  rw [← roundConstants_eq]
  simp

theorem bits_round (a : State) (ir : Fin 24) :
    (round a (roundConstants.getD ir 0)).bits = Fips202.round a.bits ir := by
  rw [round, bits_iota (getLsbD_roundConstants ir), bits_chi, bits_rhoPi, bits_theta]
  rfl

theorem bits_keccakF (a : State) :
    (keccakF a).bits = (List.range 24).foldl Fips202.round a.bits := by
  have hrounds : ∀ (irs : List (Fin 24)) (a : State),
      (irs.foldl (fun a (ir : Fin 24) => round a (roundConstants.getD ir 0)) a).bits =
        irs.foldl (fun bits (ir : Fin 24) => Fips202.round bits ir) a.bits := by
    intro irs
    induction irs with
    | nil => exact fun a => rfl
    | cons ir irs ih =>
      intro a
      rw [List.foldl_cons, List.foldl_cons, ih, bits_round]
  have htable : roundConstants =
      (List.finRange 24).map fun ir : Fin 24 => roundConstants.getD ir 0 := by
    decide +kernel
  have hrange : List.range 24 = (List.finRange 24).map fun ir : Fin 24 => (ir : ℕ) := by
    decide +kernel
  rw [keccakF, htable, hrange, List.foldl_map, List.foldl_map]
  exact hrounds _ a

theorem bitsOfBytes_cons (b : UInt8) (data : Bytes) :
    bitsOfBytes (b :: data) = bitsOfByte b ++ bitsOfBytes data :=
  List.flatMap_cons

theorem length_bitsOfBytes (data : Bytes) : (bitsOfBytes data).length = 8 * data.length := by
  induction data with
  | nil => rfl
  | cons b data ih =>
    rw [bitsOfBytes_cons, List.length_append, ih, bitsOfByte, List.length_map, List.length_range,
      List.length_cons]
    ring

theorem bitsOfBytes_append (d e : Bytes) : bitsOfBytes (d ++ e) = bitsOfBytes d ++ bitsOfBytes e :=
  List.flatMap_append

theorem getD_flatten {blocks : List Bits} {n : ℕ} (h : ∀ b ∈ blocks, b.length = n) (i : ℕ) {j : ℕ}
    (hj : j < n) : blocks.flatten.getD (n * i + j) false = (blocks.getD i []).getD j false := by
  rw [List.getD_eq_getElem?_getD, List.getD_eq_getElem?_getD, List.getD_eq_getElem?_getD,
    Buffer.getElem?_flatten_of_size h i hj]
  cases blocks[i]? <;> rfl

/-- A bit of a string of bytes, by the place of its byte and its place in the byte. -/
theorem getD_bitsOfBytes (data : Bytes) (i : ℕ) {j : ℕ} (hj : j < 8) :
    (bitsOfBytes data).getD (8 * i + j) false = (data.getD i 0).toNat.testBit j := by
  have hsize : ∀ b ∈ data.map bitsOfByte, b.length = 8 := by simp [bitsOfByte]
  rw [bitsOfBytes, List.flatMap_def, getD_flatten hsize i hj]
  by_cases hi : i < data.length
  · simp [bitsOfByte, hi, hj]
  · simp [hi]

theorem getD_bitsOfBytes_slice (data : Bytes) (start : ℕ) {len k : ℕ} (hk : k < 8 * len) :
    (bitsOfBytes ((data.drop start).take len)).getD k false =
      (bitsOfBytes data).getD (8 * start + k) false := by
  have hsplit : k = 8 * (k / 8) + k % 8 := by omega
  have hplace : 8 * start + k = 8 * (start + k / 8) + k % 8 := by omega
  have hbyte : ((data.drop start).take len).getD (k / 8) 0 = data.getD (start + k / 8) 0 := by
    rw [List.getD_eq_getElem?_getD, List.getD_eq_getElem?_getD,
      List.getElem?_take_of_lt (by omega), List.getElem?_drop]
  rw [hplace, getD_bitsOfBytes data _ (by omega), ← hbyte,
    ← getD_bitsOfBytes _ _ (by omega), ← hsplit]

theorem getLsbD_laneOfBytes (data : Bytes) {z : ℕ} (hz : z < 64) :
    (laneOfBytes data).getLsbD z = (bitsOfBytes data).getD z false := by
  induction data generalizing z with
  | nil => simp [laneOfBytes, bitsOfBytes]
  | cons b data ih =>
    have hlen : (bitsOfByte b).length = 8 := rfl
    have hb := b.toNat_lt
    rw [bitsOfBytes_cons, laneOfBytes, List.foldr_cons, ← laneOfBytes, BitVec.getLsbD_or,
      BitVec.getLsbD_shiftLeft, BitVec.getLsbD_ofNat]
    by_cases h : z < 8
    · rw [List.getD_append _ _ _ _ (by omega)]
      simp [bitsOfByte, h, hz]
    · rw [List.getD_append_right _ _ _ _ (by omega), hlen, ← ih (by omega)]
      have hzero : b.toNat.testBit z = false :=
        Nat.testBit_lt_two_pow (hb.trans_le (Nat.pow_le_pow_right (by decide) (by omega)))
      simp [h, hz, hzero]

theorem get_stateOfBytes (data : Bytes) (x y : Fin 5) :
    ((stateOfBytes data).get y).get x = laneOfBytes ((data.drop (8 * (5 * y + x))).take 8) := by
  fin_cases x <;> fin_cases y <;>
    simp [stateOfBytes, planeOfBytes, State.get, Plane.get, List.drop_drop]

theorem bits_stateOfBytes (data : Bytes) (zeros : ℕ) :
    (stateOfBytes data).bits =
      Fips202.toStateArray (bitsOfBytes data ++ List.replicate zeros false) := by
  funext x y z
  have hzeros : ∀ k, (bitsOfBytes data ++ List.replicate zeros false).getD k false =
      (bitsOfBytes data).getD k false := by
    intro k
    by_cases hk : k < (bitsOfBytes data).length
    · exact List.getD_append _ _ _ _ hk
    · rw [List.getD_append_right _ _ _ _ (by omega), List.getD_eq_getElem?_getD,
        List.getElem?_getD_replicate_default_eq]
      exact (List.getD_eq_default _ _ (by omega)).symm
  have hz := z.isLt
  rw [State.bits, get_stateOfBytes, getLsbD_laneOfBytes _ hz,
    getD_bitsOfBytes_slice _ _ (by omega), Fips202.toStateArray, hzeros]
  congr 1
  ring

open Fips202 (toBits toStateArray)

theorem length_lane_of_mem (a : StateArray) (y : Fin 5) :
    ∀ lane ∈ List.ofFn fun x => List.ofFn fun z => a x y z, lane.length = 64 := by
  intro lane hlane
  obtain ⟨x, rfl⟩ := (List.mem_ofFn' _ _).mp hlane
  exact List.length_ofFn

theorem length_plane_of_mem (a : StateArray) :
    ∀ plane ∈ List.ofFn fun y => (List.ofFn fun x => List.ofFn fun z => a x y z).flatten,
      plane.length = 320 := by
  intro plane hplane
  obtain ⟨y, rfl⟩ := (List.mem_ofFn' _ _).mp hplane
  rw [Buffer.length_flatten_of_size (length_lane_of_mem a y), List.length_ofFn]

theorem length_toBits (a : StateArray) : (toBits a).length = 1600 := by
  rw [toBits, Buffer.length_flatten_of_size (length_plane_of_mem a), List.length_ofFn]

theorem getD_toBits (a : StateArray) (x y : Fin 5) (z : Fin 64) :
    (toBits a).getD (64 * (5 * y + x) + z) false = a x y z := by
  have hplace : 64 * (5 * (y : ℕ) + x) + z = 320 * y + (64 * x + z) := by ring
  have hx := x.isLt
  have hz := z.isLt
  have hget : ∀ {α : Type} {n : ℕ} (f : Fin n → α) (i : Fin n) (d : α),
      (List.ofFn f).getD i d = f i := by
    intro α n f i d
    rw [List.getD_eq_getElem _ _ (by rw [List.length_ofFn]; exact i.isLt), List.getElem_ofFn]
  rw [hplace, toBits, getD_flatten (length_plane_of_mem a) _ (by omega), hget,
    getD_flatten (length_lane_of_mem a y) _ hz, hget, hget]

theorem toStateArray_toBits (a : StateArray) : toStateArray (toBits a) = a := by
  funext x y z
  exact getD_toBits a x y z

theorem toStateArray_zipWith {s t : Bits} (hs : s.length = 1600) (ht : t.length = 1600)
    (x y : Fin 5) (z : Fin 64) :
    toStateArray (s.zipWith xor t) x y z = (toStateArray s x y z ^^ toStateArray t x y z) := by
  have hx := x.isLt
  have hy := y.isLt
  have hz := z.isLt
  rw [toStateArray, toStateArray, toStateArray, List.getD_eq_getElem _ _ (by simp; omega),
    List.getElem_zipWith, List.getD_eq_getElem _ _ (by omega), List.getD_eq_getElem _ _ (by omega)]

theorem getElem_bytesOfLane (l : Lane) {i : ℕ} (hi : i < 8) :
    (bytesOfLane l).getD i 0 = UInt8.ofNat ((l >>> (8 * i)).toNat % 256) := by
  simp [bytesOfLane, hi]

theorem bitsOfBytes_bytesOfLane (l : Lane) :
    bitsOfBytes (bytesOfLane l) = List.ofFn fun z : Fin 64 => l.getLsbD z := by
  have hlen : (bitsOfBytes (bytesOfLane l)).length = 64 := by
    rw [length_bitsOfBytes]
    simp [bytesOfLane]
  apply List.ext_getElem (by rw [hlen, List.length_ofFn])
  intro k hk _
  have hsplit : k = 8 * (k / 8) + k % 8 := by omega
  have hbit := getD_bitsOfBytes (bytesOfLane l) (k / 8) (Nat.mod_lt k (by decide : 0 < 8))
  rw [← hsplit, List.getD_eq_getElem _ _ hk, getElem_bytesOfLane l (by omega)] at hbit
  have hword : ((l >>> (8 * (k / 8))).toNat % 256).testBit (k % 8) = l.getLsbD k := by
    rw [show 256 = 2 ^ 8 from rfl, Nat.testBit_mod_two_pow, BitVec.testBit_toNat,
      BitVec.getLsbD_ushiftRight, ← hsplit]
    simp [Nat.mod_lt]
  rw [hbit, List.getElem_ofFn, ← hword, UInt8.toNat_ofNat']
  congr 1
  omega

theorem bitsOfBytes_bytesOfState (a : State) : bitsOfBytes (bytesOfState a) = toBits a.bits := by
  have hlane : ∀ l, (bytesOfLane l).flatMap bitsOfByte = List.ofFn fun z : Fin 64 => l.getLsbD z :=
    bitsOfBytes_bytesOfLane
  have hfive : ∀ {α : Type} (f : Fin 5 → α), List.ofFn f = [f 0, f 1, f 2, f 3, f 4] :=
    fun f => rfl
  rw [bitsOfBytes, bytesOfState, List.flatMap_assoc]
  simp only [hlane, toBits, hfive, State.lanes, Plane.lanes, List.flatMap_append, List.flatMap_cons,
    List.flatMap_nil, List.flatten_cons, List.flatten_nil, List.append_nil, List.append_assoc]
  rfl

theorem toBits_zero : toBits State.zero.bits = List.replicate 1600 false := by
  decide +kernel

theorem bitsOfBytes_split {data : Bytes} {n : ℕ} (h : n ≤ data.length) :
    (bitsOfBytes data).take (8 * n) = bitsOfBytes (data.take n) ∧
      (bitsOfBytes data).drop (8 * n) = bitsOfBytes (data.drop n) := by
  have hparts := congrArg bitsOfBytes (List.take_append_drop n data)
  have hlen : (bitsOfBytes (data.take n)).length = 8 * n := by
    rw [length_bitsOfBytes, List.length_take, min_eq_left h]
  rw [bitsOfBytes_append] at hparts
  rw [← hparts]
  exact ⟨List.take_left' hlen, List.drop_left' hlen⟩

theorem keccakP_block {rate : ℕ} (hrate : rate ≤ 200) {data : Bytes} (hdata : rate ≤ data.length)
    (a : State) :
    Fips202.keccakP ((toBits a.bits).zipWith xor
        ((bitsOfBytes data).take (8 * rate) ++ List.replicate (1600 - 8 * rate) false)) =
      toBits (keccakF (a.xor (stateOfBytes (data.take rate)))).bits := by
  rw [(bitsOfBytes_split hdata).1]
  have hlen : (bitsOfBytes (data.take rate) ++
      List.replicate (1600 - 8 * rate) false).length = 1600 := by
    rw [List.length_append, length_bitsOfBytes, List.length_take, min_eq_left hdata,
      List.length_replicate]
    omega
  have harray : toStateArray ((toBits a.bits).zipWith xor (bitsOfBytes (data.take rate) ++
      List.replicate (1600 - 8 * rate) false)) = (a.xor (stateOfBytes (data.take rate))).bits := by
    funext x y z
    rw [toStateArray_zipWith (length_toBits _) hlen, toStateArray_toBits, State.bits_xor,
      bits_stateOfBytes _ (1600 - 8 * rate)]
  rw [Fips202.keccakP, harray, bits_keccakF]

theorem absorb_toBits {rate : ℕ} (hrate : rate ≤ 200) {blocks : ℕ} {data : Bytes}
    (hdata : blocks * rate ≤ data.length) (a : State) :
    Fips202.absorb (8 * rate) blocks (bitsOfBytes data) (toBits a.bits) =
      toBits (absorb rate blocks data a).bits := by
  induction blocks generalizing data a with
  | zero => rfl
  | succ blocks ih =>
    rw [Nat.succ_mul] at hdata
    have hblock : rate ≤ data.length := by omega
    have hrest : blocks * rate ≤ (data.drop rate).length := by
      rw [List.length_drop]
      omega
    rw [Fips202.absorb, absorb, keccakP_block hrate hblock, (bitsOfBytes_split hblock).2,
      ih hrest]

theorem bitsOfBytes_replicate (n : ℕ) :
    bitsOfBytes (List.replicate n 0) = List.replicate (8 * n) false := by
  induction n with
  | zero => rfl
  | succ n ih =>
    rw [List.replicate_succ, bitsOfBytes_cons, ih, Nat.mul_succ, Nat.add_comm, List.replicate_add]
    rfl

theorem pad_zeros {rate : ℕ} (hrate : 0 < rate) (length : ℕ) :
    ((-((8 * length + 2 : ℕ) : ℤ) - 2) % ((8 * rate : ℕ) : ℤ)).toNat =
      8 * (rate - length % rate) - 4 := by
  have hmod := Nat.mod_lt length hrate
  have hdiv : (length : ℤ) = rate * (length / rate : ℕ) + (length % rate : ℕ) := by
    exact_mod_cast (Nat.div_add_mod length rate).symm
  have hsplit : -((8 * length + 2 : ℕ) : ℤ) - 2 =
      (8 * (rate - length % rate) - 4 : ℕ) + ((8 * rate : ℕ) : ℤ) * (-(length / rate : ℕ) - 1) := by
    have hcast : ((8 * (rate - length % rate) - 4 : ℕ) : ℤ) =
        8 * (rate - (length % rate : ℕ)) - 4 := by
      omega
    rw [hcast]
    push_cast at hdiv ⊢
    linear_combination (-8) * hdiv
  rw [hsplit, Int.add_mul_emod_self_left, Int.emod_eq_of_lt (by omega) (by omega)]
  exact Int.toNat_natCast _

theorem bitsOfBytes_pad {rate : ℕ} (hrate : 0 < rate) (message : Bytes) :
    bitsOfBytes (pad rate message) =
      (bitsOfBytes message ++ [false, true]) ++
        Fips202.pad10star1 (8 * rate) (bitsOfBytes message ++ [false, true]).length := by
  have hmod := Nat.mod_lt message.length hrate
  have hlen : (bitsOfBytes message ++ [false, true]).length = 8 * message.length + 2 := by
    rw [List.length_append, length_bitsOfBytes]
    rfl
  rw [Fips202.pad10star1, hlen, pad_zeros hrate, pad]
  split_ifs with hone
  · rw [bitsOfBytes_append, hone, List.append_assoc]
    rfl
  · have hzeros : 8 * (rate - message.length % rate) - 4 =
        5 + (8 * (rate - message.length % rate - 2) + 7) := by
      omega
    have hfirst : bitsOfByte 0x06 = [false, true, true] ++ List.replicate 5 false := by decide
    have hlast : bitsOfBytes [0x80] = List.replicate 7 false ++ [true] := by decide
    rw [bitsOfBytes_append, bitsOfBytes_cons, bitsOfBytes_append, bitsOfBytes_replicate, hfirst,
      hlast, hzeros, List.replicate_add, List.replicate_add]
    simp only [List.append_assoc, List.cons_append, List.nil_append]

theorem squeeze_one {r d : ℕ} (hpos : 0 < d) (hd : d ≤ r) {s : Bits} (hs : r ≤ s.length) :
    Fips202.squeeze r d d [] s = s.take d := by
  obtain ⟨fuel, rfl⟩ := Nat.exists_eq_succ_of_ne_zero hpos.ne'
  have hlen : fuel + 1 ≤ ([] ++ s.take r).length := by
    rw [List.nil_append, List.length_take, min_eq_left hs]
    exact hd
  rw [Fips202.squeeze, if_pos hlen, List.nil_append, List.take_take, min_eq_left hd]

theorem bitsOfBytes_sponge {rate outputLength : ℕ} (hrate : rate ≤ 200) (hpos : 0 < outputLength)
    (hout : outputLength ≤ rate) (message : Bytes) :
    bitsOfBytes (sponge rate outputLength message) =
      Fips202.sponge (8 * rate) (bitsOfBytes message ++ [false, true]) (8 * outputLength) := by
  have habsorb := absorb_toBits hrate (Nat.div_mul_le_self (pad rate message).length rate)
    State.zero
  have hcount : (bitsOfBytes (pad rate message)).length / (8 * rate) =
      (pad rate message).length / rate := by
    rw [length_bitsOfBytes, Nat.mul_div_mul_left _ _ (by decide)]
  rw [Fips202.sponge, ← bitsOfBytes_pad (by omega), hcount, ← toBits_zero, habsorb,
    squeeze_one (by omega) (by omega) (by rw [length_toBits]; omega),
    ← bitsOfBytes_bytesOfState, sponge,
    (bitsOfBytes_split (by rw [length_bytesOfState]; omega)).1]

theorem bitsOfBytes_sha3_256 (message : Bytes) :
    bitsOfBytes (sha3_256 message) = Fips202.sha3_256 (bitsOfBytes message) := by
  unfold sha3_256
  exact bitsOfBytes_sponge (by decide) (by decide) (by decide) message

theorem bitsOfBytes_sha3_512 (message : Bytes) :
    bitsOfBytes (sha3_512 message) = Fips202.sha3_512 (bitsOfBytes message) := by
  unfold sha3_512
  exact bitsOfBytes_sponge (by decide) (by decide) (by decide) message

end Keccak
