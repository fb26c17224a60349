import Qrtb.Lib.Buffer
import Qrtb.Lib.KeccakBits
import Mathlib.Tactic.IntervalCases

/-!
# SHA-3 in C (`src/native/csrc/sha3.c`)

The permutation runs over an array of 25 lanes with loops and tables, the sponge
over the bytes of the input with a padding block on the stack. `none` stands for an
access outside of an array and for a read of an element that was not written. A
rotation by zero is the identity. For every input both functions write the digest
of FIPS 202.
-/

namespace Qrtb

namespace Native.Sha3

open Keccak (Lane State bytesOfLane bytesOfState laneOfBytes length_bytesOfState stateOfBytes)
open Buffer

def RC : List Lane := [
  0x0000000000000001, 0x0000000000008082,
  0x800000000000808A, 0x8000000080008000,
  0x000000000000808B, 0x0000000080000001,
  0x8000000080008081, 0x8000000000008009,
  0x000000000000008A, 0x0000000000000088,
  0x0000000080008009, 0x000000008000000A,
  0x000000008000808B, 0x800000000000008B,
  0x8000000000008089, 0x8000000000008003,
  0x8000000000008002, 0x8000000000000080,
  0x000000000000800A, 0x800000008000000A,
  0x8000000080008081, 0x8000000000008080,
  0x0000000080000001, 0x8000000080008008]

/-- Indexed by `x`, then by `y`. -/
def ROTATIONS : List (List ℕ) := [
  [0, 36, 3, 41, 18],
  [1, 44, 10, 45, 2],
  [62, 6, 43, 15, 61],
  [28, 55, 25, 21, 56],
  [27, 20, 39, 8, 14]]

def rotl64 (x : Lane) (n : ℕ) : Lane := if n = 0 then x else x <<< n ||| x >>> (64 - n)

def columns (state : List Lane) : Option (List (Option Lane)) :=
  forRange 5 (fun x c => do
    poke c x ((← state[x]?) ^^^ (← state[x + 5]?) ^^^ (← state[x + 10]?) ^^^ (← state[x + 15]?) ^^^
      (← state[x + 20]?))) (blank Lane 5)

def spreadColumn (c : List (Option Lane)) (x : ℕ) :
    List (Option Lane) × List Lane → Option (List (Option Lane) × List Lane)
  | (d, state) => do
    let d ← poke d x ((← peek c ((x + 4) % 5)) ^^^ rotl64 (← peek c ((x + 1) % 5)) 1)
    let state ← forRange 5 (fun y state => do
      store state (x + 5 * y) [(← state[x + 5 * y]?) ^^^ (← peek d x)]) state
    return (d, state)

def spread (c : List (Option Lane)) (state : List Lane) : Option (List Lane) := do
  let (_, state) ← forRange 5 (spreadColumn c) (blank Lane 5, state)
  return state

/-- Rho and pi; the element `[i][j]` of the local array is at `5 i + j`. -/
def rhoPi (state : List Lane) : Option (List (Option Lane)) :=
  forRange 5 (fun x b => forRange 5 (fun y b => do
    let n ← (← ROTATIONS[x]?)[y]?
    poke b (5 * y + (2 * x + 3 * y) % 5) (rotl64 (← state[x + 5 * y]?) n)) b) (blank Lane 25)

def chi (b : List (Option Lane)) (state : List Lane) : Option (List Lane) :=
  forRange 5 (fun x state => forRange 5 (fun y state => do
    store state (x + 5 * y) [(← peek b (5 * x + y)) ^^^
      (~~~(← peek b (5 * ((x + 1) % 5) + y)) &&& (← peek b (5 * ((x + 2) % 5) + y)))]) state) state

/-- One round; nothing in a local array outlives it. -/
def keccakRound (round : ℕ) (state : List Lane) : Option (List Lane) := do
  let c ← columns state
  let state ← spread c state
  let b ← rhoPi state
  let state ← chi b state
  store state 0 [(← state[0]?) ^^^ (← RC[round]?)]

def keccakF1600 (state : List Lane) : Option (List Lane) := forRange 24 keccakRound state

def orByte (input : Bytes) (start j : ℕ) (lane : Lane) : Option Lane := do
  return lane ||| BitVec.ofNat 64 (← input[start + j]?).toNat <<< (8 * j)

def loadLane (input : Bytes) (start : ℕ) : Option Lane := forRange 8 (orByte input start) 0

def xorBlock (input : Bytes) (offset lanes : ℕ) (state : List Lane) : Option (List Lane) :=
  forRange lanes (fun i state => do
    let lane ← loadLane input (offset + i * 8)
    store state i [(← state[i]?) ^^^ lane]) state

section Absorb

variable (add : ℕ → ℕ → Option ℕ) (f : List Lane → Option (List Lane)) (rateBytes : ℕ)

/-- The loop over the full blocks, in the arithmetic of the lengths; with the state it
returns the offset behind the last of them. -/
def absorbBlocks (input : Bytes) : ℕ → ℕ → List Lane → Option (ℕ × List Lane)
  | 0, _, _ => none
  | fuel + 1, offset, state => do
    if (← add offset rateBytes) ≤ input.length then
      let state ← f (← xorBlock input offset (rateBytes / 8) state)
      absorbBlocks input fuel (← add offset rateBytes) state
    else return (offset, state)

/-- `memcpy(pad_block, input + offset, remaining)`. -/
def copyRest (padBlock input : Bytes) (offset remaining : ℕ) : Option Bytes :=
  if remaining > 0 then do store padBlock 0 (← load input offset remaining) else some padBlock

/-- The rest of the input and the padding, in a block of the given size on the stack. -/
def padRest (size : ℕ) (domainSep : UInt8) (input : Bytes) (offset : ℕ) : Option Bytes := do
  let remaining := input.length - offset
  let padBlock ← copyRest (List.replicate size 0) input offset remaining
  let padBlock ← store padBlock remaining [domainSep]
  store padBlock (rateBytes - 1) [(← padBlock[rateBytes - 1]?) ||| 0x80]

def absorbRest (size : ℕ) (domainSep : UInt8) (input : Bytes) (offset : ℕ) (state : List Lane) :
    Option (List Lane) := do
  let padBlock ← padRest rateBytes size domainSep input offset
  f (← xorBlock padBlock 0 (rateBytes / 8) state)

end Absorb

/-- `(uint8_t)(l >> (8 * i))`. -/
def byteOfLane (l : Lane) (i : ℕ) : UInt8 := UInt8.ofNat (l >>> (8 * i)).toNat

def squeeze (rateBytes outputLen : ℕ) : ℕ → ℕ → List Lane → Bytes → Option Bytes
  | 0, _, _, _ => none
  | fuel + 1, outOffset, state, output =>
    if outOffset < outputLen then do
      let blockSize := outputLen - outOffset
      let blockSize := if blockSize > rateBytes then rateBytes else blockSize
      let output ← forRange blockSize (fun i output => do
        store output (outOffset + i) [byteOfLane (← state[i / 8]?) (i % 8)]) output
      let outOffset := outOffset + blockSize
      let state ← if outOffset < outputLen then keccakF1600 state else some state
      squeeze rateBytes outputLen fuel outOffset state output
    else some output

/-- A length in memory is far from the end of `size_t`. -/
def sizeAdd (a b : ℕ) : Option ℕ := some (a + b)

def keccak (input output : Bytes) (outputLen rate : ℕ) (domainSep : UInt8) : Option Bytes := do
  let rateBytes := rate / 8
  let (offset, state) ← absorbBlocks sizeAdd keccakF1600 rateBytes input (input.length + 1) 0
    (List.replicate 25 0)
  let state ← absorbRest keccakF1600 rateBytes 200 domainSep input offset state
  squeeze rateBytes outputLen (outputLen + 1) 0 state output

def sha3_256 (input output : Bytes) : Option Bytes := keccak input output 32 1088 0x06

def sha3_512 (input output : Bytes) : Option Bytes := keccak input output 64 576 0x06

theorem rotl64_eq (x : Lane) {n : ℕ} (hn : n < 64) : rotl64 x n = x.rotateLeft n := by
  rw [rotl64]
  split_ifs with hzero
  · rw [hzero, Keccak.rotateLeft_zero]
  · rw [BitVec.rotateLeft, BitVec.rotateLeftAux, Nat.mod_eq_of_lt hn]

/-- Lane `k` of the state in memory. -/
def lane (a : State) (k : ℕ) : Lane := (a.get (Fin.ofNat 5 (k / 5))).get (Fin.ofNat 5 k)

theorem lanes_eq (a : State) : a.lanes = array 25 (lane a) := rfl

theorem getElem?_lanes (a : State) {k : ℕ} (hk : k < 25) : a.lanes[k]? = some (lane a k) := by
  rw [lanes_eq, getElem?_array hk]

def columnSums (a : State) : List (Option Lane) :=
  array 5 fun x => some ((Keccak.columns a).get (Fin.ofNat 5 x))

theorem columns_lanes (a : State) :
    columns a.lanes = some (columnSums a) := by
  rw [columns, blank_eq_array]
  apply forRange_update_all (fun x => x) (fun x _ => some (lane a x ^^^ lane a (x + 5) ^^^
    lane a (x + 10) ^^^ lane a (x + 15) ^^^ lane a (x + 20))) (fun x _ y _ h => h)
    (fun x hx => ⟨x, hx, rfl⟩)
  · intro x hx c
    simp only [getElem?_lanes a (show x < 25 by omega), getElem?_lanes a (show x + 5 < 25 by omega),
      getElem?_lanes a (show x + 10 < 25 by omega), getElem?_lanes a (show x + 15 < 25 by omega),
      getElem?_lanes a (show x + 20 < 25 by omega), Option.bind_eq_bind, Option.bind_some, poke]
    exact store_array hx c _
  · intro x hx
    simp only [BitVec.xor_assoc]
    interval_cases x <;> rfl

/-- What theta adds to the lanes of a column. -/
def spreadLane (a : State) (x : ℕ) : Lane :=
  (Keccak.spread (Keccak.columns a)).get (Fin.ofNat 5 x)

theorem lane_theta (a : State) (k : ℕ) :
    lane (Keccak.theta a) k = lane a k ^^^ spreadLane a (k % 5) := by
  have hcol : Fin.ofNat 5 k = Fin.ofNat 5 (k % 5) := Fin.ext (Nat.mod_mod k 5).symm
  rw [lane, Keccak.get_theta, Keccak.Plane.get_xor, spreadLane, ← hcol]
  rfl

/-- The column values and the state after the columns before `x` went through theta. -/
def thetaBefore (a : State) (x : ℕ) : List (Option Lane) × List Lane :=
  (array 5 fun k => if k < x then some (spreadLane a k) else none,
    array 25 fun k => if k % 5 < x then lane (Keccak.theta a) k else lane a k)

theorem forRange_column (a : State) {x : ℕ} (hx : x < 5) :
    forRange 5 (fun y state => state[x + 5 * y]?.bind fun l =>
      store state (x + 5 * y) [l ^^^ spreadLane a x]) (thetaBefore a x).2 =
        some (thetaBefore a (x + 1)).2 := by
  simp only [thetaBefore]
  apply forRange_update (fun y => x + 5 * y) (fun _ l => l ^^^ spreadLane a x)
    fun i _ j _ h => by omega
  · intro y hy g
    rw [getElem?_array (by omega), Option.bind_some, store_array (by omega)]
  · intro y hy
    have hcol : (x + 5 * y) % 5 = x := by omega
    rw [if_pos (by omega), if_neg (by omega), lane_theta, hcol]
  · intro k hk hne
    have hcol : k % 5 ≠ x := fun h => hne (k / 5) (by omega) (by omega)
    by_cases hlt : k % 5 < x
    · rw [if_pos hlt, if_pos (by omega)]
    · rw [if_neg hlt, if_neg (by omega)]

theorem spreadColumn_thetaBefore (a : State) {x : ℕ} (hx : x < 5) :
    spreadColumn (columnSums a) x (thetaBefore a x) = some (thetaBefore a (x + 1)) := by
  have hvalue : (Keccak.columns a).get (Fin.ofNat 5 ((x + 4) % 5)) ^^^
      rotl64 ((Keccak.columns a).get (Fin.ofNat 5 ((x + 1) % 5))) 1 = spreadLane a x := by
    interval_cases x <;> rfl
  have hd : Function.update (fun k => if k < x then some (spreadLane a k) else none) x
      (some (spreadLane a x)) = fun k => if k < x + 1 then some (spreadLane a k) else none := by
    funext k
    grind
  have hinner := forRange_column a hx
  rw [thetaBefore] at hinner
  rw [spreadColumn, thetaBefore, columnSums]
  simp only [peek_array (Nat.mod_lt _ (by decide : 0 < 5)), Option.bind_eq_bind, Option.bind_some,
    hvalue, poke, store_array hx, hd, peek_array hx, Nat.lt_succ_self, if_true, hinner]
  rfl

theorem spread_lanes (a : State) :
    spread (columnSums a) a.lanes = some (Keccak.theta a).lanes := by
  have hstart : (blank Lane 5, a.lanes) = thetaBefore a 0 := rfl
  have hstop : (thetaBefore a 5).2 = (Keccak.theta a).lanes := by
    rw [thetaBefore, lanes_eq]
    exact array_congr fun k _ => if_pos (Nat.mod_lt k (by decide))
  have hloop := forRange_eq_some fun x hx => spreadColumn_thetaBefore a (x := x) hx
  rw [spread, hstart, hloop, ← hstop]
  rfl

/-- The lanes after rho and pi, in the order of the local array. -/
def movedLanes (a : State) : List (Option Lane) :=
  array 25 fun k => some (((Keccak.rhoPi a).get (Fin.ofNat 5 k)).get (Fin.ofNat 5 (k / 5)))

theorem getElem?_ROTATIONS : ∀ x < 5, ∀ y < 5,
    ROTATIONS[x]? = some (ROTATIONS.getD x []) ∧
      (ROTATIONS.getD x [])[y]? = some ((ROTATIONS.getD x []).getD y 0) ∧
      (ROTATIONS.getD x []).getD y 0 < 64 := by
  decide

theorem rhoPi_lanes (a : State) : rhoPi a.lanes = some (movedLanes a) := by
  rw [rhoPi, forRange_mul 5 (by decide), blank_eq_array]
  apply forRange_update_all (fun k => 5 * (k % 5) + (2 * (k / 5) + 3 * (k % 5)) % 5)
    (fun k _ => some ((lane a (k / 5 + 5 * (k % 5))).rotateLeft
      ((ROTATIONS.getD (k / 5) []).getD (k % 5) 0))) (by decide) (by decide)
  · intro k hk b
    obtain ⟨hrow, hentry, hlt⟩ :=
      getElem?_ROTATIONS (k / 5) (by omega) (k % 5) (Nat.mod_lt k (by decide))
    simp only [hrow, hentry, getElem?_lanes a (show k / 5 + 5 * (k % 5) < 25 by omega),
      Option.bind_eq_bind, Option.bind_some, rotl64_eq _ hlt, poke]
    exact store_array (by omega) b _
  · intro k hk
    interval_cases k <;> first | rfl | exact congrArg some (Keccak.rotateLeft_zero _).symm

theorem chi_movedLanes (a a' : State) :
    chi (movedLanes a) a'.lanes = some (Keccak.chi (Keccak.rhoPi a)).lanes := by
  have hread : ∀ x < 5, ∀ y < 5, peek (movedLanes a) (5 * x + y) =
      some (((Keccak.rhoPi a).get (Fin.ofNat 5 y)).get (Fin.ofNat 5 x)) := by
    intro x hx y hy
    rw [movedLanes, peek_array (by omega)]
    interval_cases x <;> interval_cases y <;> rfl
  rw [chi, forRange_mul 5 (by decide), lanes_eq, lanes_eq]
  apply forRange_update_all (fun k => k / 5 + 5 * (k % 5))
    (fun k _ => lane (Keccak.chi (Keccak.rhoPi a)) (k / 5 + 5 * (k % 5))) (by decide) (by decide)
  · intro k hk state
    have hx : k / 5 < 5 := by omega
    have hy := Nat.mod_lt k (by decide : 0 < 5)
    simp only [hread _ hx _ hy, hread _ (Nat.mod_lt _ (by decide : 0 < 5)) _ hy,
      Option.bind_eq_bind, Option.bind_some]
    rw [store_array (by omega)]
    interval_cases k <;> rfl
  · exact fun k _ => rfl

theorem keccakRound_lanes (a : State) {round : ℕ} (hround : round < 24) :
    keccakRound round a.lanes =
      some (Keccak.round a (Keccak.roundConstants.getD round 0)).lanes := by
  have hconstant : RC[round]? = some (Keccak.roundConstants.getD round 0) := by
    interval_cases round <;> rfl
  simp only [keccakRound, columns_lanes, spread_lanes, rhoPi_lanes, chi_movedLanes, hconstant,
    Option.bind_eq_bind, Option.bind_some]
  rfl

theorem rounds_eq {f : ℕ → List Lane → Option (List Lane)}
    (hf : ∀ (a : State) {round : ℕ}, round < 24 → f round a.lanes =
      some (Keccak.round a (Keccak.roundConstants.getD round 0)).lanes) (a : State) :
    forRange 24 f a.lanes = some (Keccak.keccakF a).lanes := by
  have hrounds : ∀ round < 24,
      f round ((Keccak.roundConstants.take round).foldl Keccak.round a).lanes =
        some ((Keccak.roundConstants.take (round + 1)).foldl Keccak.round a).lanes := by
    intro round hround
    have hlen : round < Keccak.roundConstants.length := hround
    rw [hf _ hround, List.take_succ_eq_append_getElem hlen, List.foldl_append,
      List.getD_eq_getElem _ _ hlen]
    rfl
  have hloop := forRange_eq_some hrounds
  rwa [List.take_zero, List.take_of_length_le (by decide), List.foldl_nil] at hloop

theorem keccakF1600_lanes (a : State) : keccakF1600 a.lanes = some (Keccak.keccakF a).lanes :=
  rounds_eq keccakRound_lanes a

theorem loadLane_eq {input : Bytes} {start : ℕ} (h : start + 8 ≤ input.length) :
    loadLane input start = some (laneOfBytes ((input.drop start).take 8)) := by
  have hrounds : ∀ j < 8, orByte input start j (laneOfBytes ((input.drop start).take j)) =
      some (laneOfBytes ((input.drop start).take (j + 1))) := by
    intro j hj
    have hlen : j < (input.drop start).length := by
      rw [List.length_drop]
      omega
    have htake : ((input.drop start).take j).length = j := by
      rw [List.length_take, min_eq_left hlen.le]
    rw [orByte, List.take_succ_eq_append_getElem hlen, Keccak.laneOfBytes_append, htake,
      List.getElem_drop, List.getElem?_eq_getElem (by omega)]
    rfl
  exact forRange_eq_some hrounds

theorem lane_xor (a b : State) (k : ℕ) : lane (a.xor b) k = lane a k ^^^ lane b k := by
  rw [lane, Keccak.State.get_xor, Keccak.Plane.get_xor]
  rfl

theorem lane_stateOfBytes (data : Bytes) {k : ℕ} (hk : k < 25) :
    lane (stateOfBytes data) k = laneOfBytes ((data.drop (8 * k)).take 8) := by
  have hplace : 5 * (Fin.ofNat 5 (k / 5) : ℕ) + (Fin.ofNat 5 k : ℕ) = k := by
    simp only [Fin.val_ofNat]
    omega
  rw [lane, Keccak.get_stateOfBytes, hplace]

theorem xorBlock_lanes {input : Bytes} {offset lanes : ℕ} (h : offset + lanes * 8 ≤ input.length)
    (hlanes : lanes ≤ 25) (a : State) :
    xorBlock input offset lanes a.lanes =
      some (a.xor (stateOfBytes ((input.drop offset).take (lanes * 8)))).lanes := by
  rw [xorBlock, lanes_eq, lanes_eq]
  apply forRange_update (fun i => i)
    (fun i l => l ^^^ laneOfBytes ((input.drop (offset + i * 8)).take 8)) fun i _ j _ h => h
  · intro i hi g
    simp only [loadLane_eq (show offset + i * 8 + 8 ≤ input.length by omega),
      getElem?_array (show i < 25 by omega), Option.bind_eq_bind, Option.bind_some]
    exact store_array (by omega) g _
  · intro i hi
    rw [lane_xor, lane_stateOfBytes _ (by omega), List.drop_take, List.take_take, List.drop_drop,
      min_eq_left (by omega), Nat.mul_comm 8 i]
  · intro k hk hne
    have hle : lanes ≤ k := not_lt.mp fun hlt => hne k hlt rfl
    rw [lane_xor, lane_stateOfBytes _ hk, List.drop_of_length_le, List.take_nil]
    · exact BitVec.xor_zero
    · rw [List.length_take]
      omega

section Absorb

variable {add : ℕ → ℕ → Option ℕ} {f : List Lane → Option (List Lane)} {rate : ℕ} {input : Bytes}

theorem absorbBlocks_lanes (hf : ∀ a : State, f a.lanes = some (Keccak.keccakF a).lanes)
    (hadd : ∀ offset ≤ input.length, add offset rate = some (offset + rate))
    (hrate : rate / 8 * 8 = rate) (hlanes : rate / 8 ≤ 25) {blocks fuel offset : ℕ}
    (hfull : offset + blocks * rate ≤ input.length)
    (hlast : input.length < offset + blocks * rate + rate) (hfuel : blocks < fuel) (a : State) :
    absorbBlocks add f rate input fuel offset a.lanes =
      some (offset + blocks * rate, (Keccak.absorb rate blocks (input.drop offset) a).lanes) := by
  induction blocks generalizing fuel offset a with
  | zero =>
    obtain ⟨fuel, rfl⟩ := Nat.exists_eq_succ_of_ne_zero hfuel.ne'
    simp only [absorbBlocks, hadd offset (by omega), Option.bind_eq_bind, Option.bind_some,
      if_neg (show ¬offset + rate ≤ input.length by omega), Nat.zero_mul, Nat.add_zero]
    rfl
  | succ blocks ih =>
    obtain ⟨fuel, rfl⟩ := Nat.exists_eq_succ_of_ne_zero (Nat.ne_of_gt (Nat.zero_lt_of_lt hfuel))
    rw [Nat.succ_mul] at hfull hlast
    have hblock : offset + rate / 8 * 8 ≤ input.length := by omega
    have hoffset : offset + rate + blocks * rate = offset + (blocks + 1) * rate := by ring
    have hrest : absorbBlocks add f rate input fuel (offset + rate)
        (Keccak.keccakF (a.xor (stateOfBytes ((input.drop offset).take rate)))).lanes = _ :=
      ih (by omega) (by omega) (by omega) _
    rw [← List.drop_drop, hoffset] at hrest
    simp only [absorbBlocks, hadd offset (by omega), Option.bind_eq_bind, Option.bind_some,
      if_pos (show offset + rate ≤ input.length by omega), xorBlock_lanes hblock hlanes, hrate, hf]
    exact hrest

theorem copyRest_eq {size offset : ℕ} (hoffset : offset ≤ input.length)
    (hrest : input.length - offset ≤ size) :
    copyRest (List.replicate size 0) input offset (input.length - offset) =
      some (input.drop offset ++ List.replicate (size - (input.length - offset)) 0) := by
  have hlen : (input.drop offset).length = input.length - offset := List.length_drop
  have hload : load input offset (input.length - offset) = some (input.drop offset) := by
    rw [load, if_pos (by omega), List.take_of_length_le hlen.le]
  rw [copyRest, hload, ← hlen]
  generalize input.drop offset = rest at hlen ⊢
  split_ifs with hpos
  · have hzeros : List.replicate size (0 : UInt8) =
        [] ++ (List.replicate rest.length 0 ++ List.replicate (size - rest.length) 0) := by
      rw [List.nil_append, ← List.replicate_add]
      congr 1
      omega
    rw [Option.bind_eq_bind, Option.bind_some, hzeros]
    exact store_append [] _ _ (List.length_replicate).symm
  · obtain rfl := List.eq_nil_of_length_eq_zero (Nat.eq_zero_of_not_pos hpos)
    rfl

theorem padRest_eq {size offset : ℕ} (hsize : rate ≤ size) (hoffset : offset ≤ input.length)
    (hlast : input.length < offset + rate) :
    padRest rate size 0x06 input offset =
      some (Keccak.pad rate (input.drop offset) ++ List.replicate (size - rate) 0) := by
  have hlen : (input.drop offset).length = input.length - offset := List.length_drop
  rw [padRest, copyRest_eq hoffset (by omega), ← hlen, Keccak.pad, Nat.mod_eq_of_lt (by omega)]
  generalize input.drop offset = rest at hlen ⊢
  have hsep : store (rest ++ List.replicate (size - rest.length) 0) rest.length [(0x06 : UInt8)] =
      some (rest ++ ([0x06] ++ List.replicate (size - rest.length - 1) 0)) := by
    have hzeros : List.replicate (size - rest.length) (0 : UInt8) =
        [0] ++ List.replicate (size - rest.length - 1) 0 := by
      rw [List.singleton_append, ← List.replicate_succ]
      congr 1
      omega
    rw [hzeros]
    exact store_append rest [0] _ rfl
  simp only [Option.bind_eq_bind, Option.bind_some, hsep]
  split_ifs with hone
  · have hindex : rate - 1 = rest.length := by omega
    have hstore : store (rest ++ ([0x06] ++ List.replicate (size - rest.length - 1) 0)) rest.length
        [(0x86 : UInt8)] = _ := store_append rest [0x06] _ rfl
    have hzeros : size - rest.length - 1 = size - rate := by omega
    rw [hindex, List.getElem?_append_right le_rfl, Nat.sub_self]
    refine hstore.trans (congrArg some ?_)
    rw [List.append_assoc, hzeros]
  · have hzeros : List.replicate (size - rest.length - 1) (0 : UInt8) =
        List.replicate (rate - rest.length - 2) 0 ++ ([0] ++ List.replicate (size - rate) 0) := by
      rw [List.singleton_append, ← List.replicate_succ, ← List.replicate_add]
      congr 1
      omega
    have hblock : rest ++ ([0x06] ++ List.replicate (size - rest.length - 1) (0 : UInt8)) =
        (rest ++ 0x06 :: List.replicate (rate - rest.length - 2) 0) ++
          ([0] ++ List.replicate (size - rate) 0) := by
      rw [hzeros]
      simp
    have hindex : (rest ++ 0x06 :: List.replicate (rate - rest.length - 2) (0 : UInt8)).length =
        rate - 1 := by
      simp only [List.length_append, List.length_cons, List.length_replicate]
      omega
    have hstore : store ((rest ++ 0x06 :: List.replicate (rate - rest.length - 2) 0) ++
        ([0] ++ List.replicate (size - rate) 0)) _ [(0x80 : UInt8)] = _ := store_append _ [0] _ rfl
    rw [hindex] at hstore
    rw [hblock, List.getElem?_append_right hindex.le, hindex, Nat.sub_self]
    refine hstore.trans (congrArg some ?_)
    simp

theorem absorbRest_lanes (hf : ∀ a : State, f a.lanes = some (Keccak.keccakF a).lanes)
    (hrate : rate / 8 * 8 = rate) (hlanes : rate / 8 ≤ 25) {size offset : ℕ} (hsize : rate ≤ size)
    (hoffset : offset ≤ input.length) (hlast : input.length < offset + rate) (a : State) :
    absorbRest f rate size 0x06 input offset a.lanes =
      some (Keccak.keccakF (a.xor (stateOfBytes (Keccak.pad rate (input.drop offset))))).lanes := by
  have hpad : (Keccak.pad rate (input.drop offset)).length = rate := by
    apply Keccak.length_pad
    rw [List.length_drop]
    omega
  rw [absorbRest, padRest_eq hsize hoffset hlast, Option.bind_eq_bind, Option.bind_some,
    xorBlock_lanes (by rw [List.length_append]; omega) hlanes, Option.bind_eq_bind,
    Option.bind_some, hf, List.drop_zero, hrate, List.take_left' hpad]

end Absorb

theorem getElem?_bytesOfState (a : State) {k : ℕ} (hk : k < 200) :
    (bytesOfState a)[k]? = some (byteOfLane (lane a (k / 8)) (k % 8)) := by
  have hsize : ∀ b ∈ a.lanes.map bytesOfLane, b.length = 8 := by
    intro b hb
    obtain ⟨l, -, rfl⟩ := List.mem_map.mp hb
    rfl
  have hplace : k = 8 * (k / 8) + k % 8 := (Nat.div_add_mod k 8).symm
  have hbyte := getElem?_flatten_of_size hsize (k / 8) (Nat.mod_lt k (by decide))
  rw [← hplace, List.getElem?_map, getElem?_lanes a (by omega)] at hbyte
  rw [bytesOfState, List.flatMap_def, hbyte, Option.map_some, Option.bind_some, bytesOfLane,
    List.getElem?_map, List.getElem?_range (Nat.mod_lt k (by decide)), Option.map_some, byteOfLane]
  exact congrArg some UInt8.ofNat_mod_size

theorem forRange_bytes (a : State) (output : Bytes) (hlen : output.length ≤ 200) :
    forRange output.length (fun i output => a.lanes[i / 8]?.bind fun l =>
      store output i [byteOfLane l (i % 8)]) output =
        some ((bytesOfState a).take output.length) := by
  have hbytes : (bytesOfState a).take output.length =
      array output.length fun k => byteOfLane (lane a (k / 8)) (k % 8) := by
    apply array_eq_of_getElem?
    · rw [List.length_take, length_bytesOfState, min_eq_left hlen]
    · intro k hk
      rw [List.getElem?_take_of_lt hk, getElem?_bytesOfState a (by omega)]
  have hbuffer : output = array output.length fun k => output.getD k 0 := by
    apply array_eq_of_getElem? rfl
    intro k hk
    rw [List.getD_eq_getElem _ _ hk, List.getElem?_eq_getElem hk]
  rw [hbytes]
  nth_rewrite 2 [hbuffer]
  apply forRange_update_all (fun i => i) (fun i _ => byteOfLane (lane a (i / 8)) (i % 8))
    (fun i _ j _ h => h) fun k hk => ⟨k, hk, rfl⟩
  · intro i hi bytes
    rw [getElem?_lanes a (by omega), Option.bind_some, store_array hi]
  · exact fun i _ => rfl

theorem squeeze_done (rate outputLen fuel : ℕ) (state : List Lane) (output : Bytes) :
    squeeze rate outputLen (fuel + 1) outputLen state output = some output := by
  rw [squeeze, if_neg (lt_irrefl outputLen)]

theorem squeeze_lanes {rate : ℕ} (a : State) {output : Bytes} (hpos : 0 < output.length)
    (hrate : output.length ≤ rate) (hlen : output.length ≤ 200) :
    squeeze rate output.length (output.length + 1) 0 a.lanes output =
      some ((bytesOfState a).take output.length) := by
  obtain ⟨fuel, hfuel⟩ := Nat.exists_eq_succ_of_ne_zero hpos.ne'
  have hloop := forRange_bytes a output hlen
  have hdone := squeeze_done rate output.length fuel a.lanes
    ((bytesOfState a).take output.length)
  rw [← Nat.succ_eq_add_one, ← hfuel] at hdone
  rw [squeeze]
  simp only [if_pos hpos, Nat.sub_zero, if_neg hrate.not_gt, Nat.zero_add, Option.bind_eq_bind,
    hloop, Option.bind_some, if_neg (lt_irrefl output.length), hdone]

theorem sizeAdd_eq {input : Bytes} {rate : ℕ} :
    ∀ offset ≤ input.length, sizeAdd offset rate = some (offset + rate) := fun _ _ => rfl

theorem exists_absorbed {add : ℕ → ℕ → Option ℕ} {f : List Lane → Option (List Lane)}
    {rate size : ℕ} (input : Bytes) (hf : ∀ a : State, f a.lanes = some (Keccak.keccakF a).lanes)
    (hadd : ∀ offset ≤ input.length, add offset rate = some (offset + rate)) (hpos : 0 < rate)
    (hrate : rate / 8 * 8 = rate) (hlanes : rate / 8 ≤ 25) (hsize : rate ≤ size) :
    ∃ offset state, ∃ a : State,
      absorbBlocks add f rate input (input.length + 1) 0 (List.replicate 25 0) =
        some (offset, state) ∧
      absorbRest f rate size 0x06 input offset state = some a.lanes ∧
      ∀ n, Keccak.sponge rate n input = (bytesOfState a).take n := by
  have hblocks : input.length / rate * rate ≤ input.length := Nat.div_mul_le_self _ _
  have hrest : input.length < input.length / rate * rate + rate := Nat.lt_div_mul_add hpos
  have hfuel : input.length / rate < input.length + 1 := Nat.lt_succ_of_le (Nat.div_le_self _ _)
  have habsorb : absorbBlocks add f rate input (input.length + 1) 0 State.zero.lanes =
      some (0 + input.length / rate * rate,
        (Keccak.absorb rate (input.length / rate) (input.drop 0) .zero).lanes) :=
    absorbBlocks_lanes hf hadd hrate hlanes (by omega) (by omega) hfuel .zero
  rw [Nat.zero_add, List.drop_zero] at habsorb
  exact ⟨_, _, _, habsorb, absorbRest_lanes hf hrate hlanes hsize hblocks hrest _,
    fun n => Keccak.sponge_eq hpos n input⟩

theorem keccak_eq (rate : ℕ) (hrate : rate / 8 / 8 * 8 = rate / 8) (hsize : rate / 8 ≤ 200)
    (input output : Bytes) (hpos : 0 < output.length) (hout : output.length ≤ rate / 8) :
    keccak input output output.length rate 0x06 =
      some (Keccak.sponge (rate / 8) output.length input) := by
  obtain ⟨offset, state, a, hblocks, hrest, hsponge⟩ := exists_absorbed input
    keccakF1600_lanes sizeAdd_eq (by omega) hrate (by omega) hsize
  rw [keccak, hblocks, hsponge]
  simp only [Option.bind_eq_bind, Option.bind_some, hrest]
  exact squeeze_lanes a hpos hout (by omega)

theorem sha3_256_eq (input : Bytes) (output : Vector UInt8 32) :
    sha3_256 input output.toList = some (Keccak.sha3_256 input) := by
  have hlen : output.toList.length = 32 := output.length_toList
  have hkeccak := keccak_eq 1088 (by decide) (by decide) input output.toList (by omega) (by omega)
  rw [hlen] at hkeccak
  rwa [sha3_256, Keccak.sha3_256]

theorem sha3_512_eq (input : Bytes) (output : Vector UInt8 64) :
    sha3_512 input output.toList = some (Keccak.sha3_512 input) := by
  have hlen : output.toList.length = 64 := output.length_toList
  have hkeccak := keccak_eq 576 (by decide) (by decide) input output.toList (by omega) (by omega)
  rw [hlen] at hkeccak
  rwa [sha3_512, Keccak.sha3_512]

end Native.Sha3

/-- The C functions write the digests of the standard, whatever the input. -/
theorem native_sha3_fips202 (input : Bytes) (output : Vector UInt8 32)
    (output' : Vector UInt8 64) :
    (∃ digest, Native.Sha3.sha3_256 input output.toList = some digest ∧
      Fips202.bitsOfBytes digest = Fips202.sha3_256 (Fips202.bitsOfBytes input)) ∧
    ∃ digest, Native.Sha3.sha3_512 input output'.toList = some digest ∧
      Fips202.bitsOfBytes digest = Fips202.sha3_512 (Fips202.bitsOfBytes input) := by
  refine ⟨⟨Keccak.sha3_256 input, ?_, Keccak.bitsOfBytes_sha3_256 input⟩,
    Keccak.sha3_512 input, ?_, Keccak.bitsOfBytes_sha3_512 input⟩
  · exact Native.Sha3.sha3_256_eq input output
  · exact Native.Sha3.sha3_512_eq input output'

end Qrtb
