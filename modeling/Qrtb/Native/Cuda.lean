import Qrtb.Native.Sha3

/-!
# SHA-3 on the GPU (`src/native/cuda/wots_verify.cu`)

The device code and the CPU code beside it hold rho and pi in two flat tables and
count lengths in `int`, where an overflow is no result. Both find the digests that
the C functions find, as long as the length of the input and one more block fit.
-/

namespace Qrtb

namespace Native.Cuda

open Keccak (Lane State bytesOfState)
open Buffer
open Sha3 (absorbBlocks absorbRest byteOfLane columns columnSums lane lanes_eq rotl64)

/-- `keccak_rc`, and for the CPU `cpu_keccak_rc`. -/
def keccakRc : List Lane := [
  0x0000000000000001, 0x0000000000008082, 0x800000000000808a,
  0x8000000080008000, 0x000000000000808b, 0x0000000080000001,
  0x8000000080008081, 0x8000000000008009, 0x000000000000008a,
  0x0000000000000088, 0x0000000080008009, 0x000000008000000a,
  0x000000008000808b, 0x800000000000008b, 0x8000000000008089,
  0x8000000000008003, 0x8000000000008002, 0x8000000000000080,
  0x000000000000800a, 0x800000008000000a, 0x8000000080008081,
  0x8000000000008080, 0x0000000080000001, 0x8000000080008008]

def rhoOffsets : List ℕ := [
  0, 1, 62, 28, 27, 36, 44, 6, 55, 20,
  3, 10, 43, 25, 39, 41, 45, 15, 21, 8,
  18, 2, 61, 56, 14]

def piLanes : List ℕ := [
  0, 10, 20, 5, 15, 16, 1, 11, 21, 6,
  7, 17, 2, 12, 22, 23, 8, 18, 3, 13,
  14, 24, 9, 19, 4]

/-- `for (int y = 0; y < 25; y += 5)`. -/
def forRows {β : Type} (body : ℕ → β → Option β) (b : β) : Option β :=
  forRange 5 (fun i => body (5 * i)) b

def spreadColumn (c : List (Option Lane)) (x : ℕ) :
    List (Option Lane) × List Lane → Option (List (Option Lane) × List Lane)
  | (d, state) => do
    let d ← poke d x ((← peek c ((x + 4) % 5)) ^^^ rotl64 (← peek c ((x + 1) % 5)) 1)
    let state ← forRows (fun y state => do
      store state (y + x) [(← state[y + x]?) ^^^ (← peek d x)]) state
    return (d, state)

def spread (c : List (Option Lane)) (state : List Lane) : Option (List Lane) := do
  let (_, state) ← forRange 5 (spreadColumn c) (blank Lane 5, state)
  return state

/-- Rho and pi, into the array `temp`. -/
def rhoPi (temp : List (Option Lane)) (state : List Lane) : Option (List (Option Lane)) :=
  forRange 25 (fun i temp => do
    poke temp (← piLanes[i]?) (rotl64 (← state[i]?) (← rhoOffsets[i]?))) temp

def chi (temp : List (Option Lane)) (state : List Lane) : Option (List Lane) :=
  forRows (fun y state => forRange 5 (fun x state => do
    store state (y + x) [(← peek temp (y + x)) ^^^
      (~~~(← peek temp (y + (x + 1) % 5)) &&& (← peek temp (y + (x + 2) % 5)))]) state) state

/-- What stands in `temp` before rho and pi. -/
abbrev Temp : Type := List Lane → Option (List (Option Lane))

def keccakRound (temp : Temp) (round : ℕ) (state : List Lane) : Option (List Lane) := do
  let c ← columns state
  let state ← spread c state
  let b ← rhoPi (← temp state) state
  let state ← chi b state
  store state 0 [(← state[0]?) ^^^ (← keccakRc[round]?)]

/-- On the device the array is not touched before. -/
def keccakF1600 (state : List Lane) : Option (List Lane) :=
  forRange 24 (keccakRound fun _ => some (blank Lane 25)) state

def cpuKeccakF1600 (state : List Lane) : Option (List Lane) :=
  forRange 24 (keccakRound fun state => do poke (blank Lane 25) 0 (← state[0]?)) state

def intAdd (a b : ℕ) : Option ℕ := if a + b < 2 ^ 31 then some (a + b) else none

def writeLanes (lanes : ℕ) (state : List Lane) (output : Bytes) : Option Bytes :=
  forRange lanes (fun i output => forRange 8 (fun j output => do
    store output (i * 8 + j) [byteOfLane (← state[i]?) j]) output) output

/-- The three functions. The length of the input is an `int`; an index of a byte of the
input is then one too. -/
def sha3 (f : List Lane → Option (List Lane)) (rate lanes : ℕ) (input output : Bytes) :
    Option Bytes := do
  let inputLen ← intAdd input.length 0
  let (offset, state) ← absorbBlocks intAdd f rate input (inputLen + 1) 0 (List.replicate 25 0)
  let state ← absorbRest f rate rate 0x06 input offset state
  writeLanes lanes state output

def gpuSha3_256 (input output : Bytes) : Option Bytes := sha3 keccakF1600 136 4 input output

def cpuSha3_256 (input output : Bytes) : Option Bytes := sha3 cpuKeccakF1600 136 4 input output

def cpuSha3_512 (input output : Bytes) : Option Bytes := sha3 cpuKeccakF1600 72 8 input output

theorem spreadColumn_eq : spreadColumn = Sha3.spreadColumn := by
  funext c x s
  simp only [spreadColumn, Sha3.spreadColumn, forRows, Nat.add_comm x]

theorem spread_eq : spread = Sha3.spread := by
  funext c state
  rw [spread, Sha3.spread, spreadColumn_eq]

theorem getElem?_tables : ∀ i < 25,
    piLanes[i]? = some (piLanes.getD i 0) ∧ rhoOffsets[i]? = some (rhoOffsets.getD i 0) ∧
      piLanes.getD i 0 < 25 ∧ rhoOffsets.getD i 0 < 64 := by
  decide

/-- The destinations pass every place of the array once, so that nothing is left of it. -/
theorem rhoPi_lanes (a : State) (g : ℕ → Option Lane) :
    rhoPi (array 25 g) a.lanes = some (array 25 fun k => some (lane (Keccak.rhoPi a) k)) := by
  apply forRange_update_all (fun i => piLanes.getD i 0)
    (fun i _ => some ((lane a i).rotateLeft (rhoOffsets.getD i 0))) (by decide) (by decide)
  · intro i hi temp
    obtain ⟨hpi, hrho, hplace, hlt⟩ := getElem?_tables i hi
    simp only [hpi, hrho, Sha3.getElem?_lanes a hi, Option.bind_eq_bind, Option.bind_some,
      Sha3.rotl64_eq _ hlt, poke]
    exact store_array hplace temp _
  · intro i hi
    interval_cases i <;> first | rfl | exact congrArg some (Keccak.rotateLeft_zero _).symm

theorem chi_lanes (a a' : State) :
    chi (array 25 fun k => some (lane a k)) a'.lanes = some (Keccak.chi a).lanes := by
  rw [chi, forRows, forRange_mul 5 (by decide), lanes_eq, lanes_eq]
  apply forRange_update_all (fun k => 5 * (k / 5) + k % 5)
    (fun k _ => lane (Keccak.chi a) (5 * (k / 5) + k % 5)) (by decide) (by decide)
  · intro k hk state
    have hmod : ∀ x, x % 5 < 5 := fun x => Nat.mod_lt x (by decide)
    have hplace : ∀ x < 5, 5 * (k / 5) + x < 25 := by omega
    simp only [peek_array (hplace _ (hmod _)), Option.bind_eq_bind, Option.bind_some]
    rw [store_array (hplace _ (hmod k))]
    interval_cases k <;> rfl
  · exact fun k _ => rfl

section Permutation

variable {temp : Temp}

theorem keccakRound_lanes (htemp : ∀ a : State, ∃ g, temp a.lanes = some (array 25 g)) (a : State)
    {round : ℕ} (hround : round < 24) :
    keccakRound temp round a.lanes =
      some (Keccak.round a (Keccak.roundConstants.getD round 0)).lanes := by
  obtain ⟨g, hg⟩ := htemp (Keccak.theta a)
  have hconstant : keccakRc[round]? = some (Keccak.roundConstants.getD round 0) := by
    interval_cases round <;> rfl
  simp only [keccakRound, Sha3.columns_lanes, spread_eq, Sha3.spread_lanes, hg, rhoPi_lanes,
    chi_lanes, hconstant, Option.bind_eq_bind, Option.bind_some]
  rfl

theorem rounds_lanes (htemp : ∀ a : State, ∃ g, temp a.lanes = some (array 25 g)) (a : State) :
    forRange 24 (keccakRound temp) a.lanes = some (Keccak.keccakF a).lanes :=
  Sha3.rounds_eq (keccakRound_lanes htemp) a

end Permutation

theorem keccakF1600_lanes (a : State) : keccakF1600 a.lanes = some (Keccak.keccakF a).lanes :=
  rounds_lanes (fun _ => ⟨fun _ => none, congrArg some (blank_eq_array 25)⟩) a

theorem cpuKeccakF1600_lanes (a : State) :
    cpuKeccakF1600 a.lanes = some (Keccak.keccakF a).lanes := by
  apply rounds_lanes
  intro a
  rw [Sha3.getElem?_lanes a (by decide), blank_eq_array, Option.bind_eq_bind, Option.bind_some]
  exact ⟨Function.update (fun _ => none) 0 (some (lane a 0)), store_array (by decide) _ _⟩

theorem intAdd_eq {input : Bytes} {rate : ℕ} (h : input.length + rate < 2 ^ 31) :
    ∀ offset ≤ input.length, intAdd offset rate = some (offset + rate) := by
  intro offset hoffset
  rw [intAdd, if_pos (by omega)]

theorem writeLanes_eq (a : State) {lanes : ℕ} (hlanes : lanes ≤ 25) {output : Bytes}
    (hlen : output.length = lanes * 8) :
    writeLanes lanes a.lanes output = some ((bytesOfState a).take output.length) := by
  have hplace : ∀ k, k / 8 * 8 + k % 8 = k := fun k => by omega
  have hbytes := Sha3.forRange_bytes a output (by omega)
  rw [hlen] at hbytes ⊢
  rw [writeLanes, forRange_mul lanes (by decide)]
  simpa only [hplace, Option.bind_eq_bind] using hbytes

section Sponge

variable {f : List Lane → Option (List Lane)} {input : Bytes}

theorem sha3_eq (hf : ∀ a : State, f a.lanes = some (Keccak.keccakF a).lanes) {rate : ℕ}
    (hpos : 0 < rate) (hrate : rate / 8 * 8 = rate) (hsize : rate / 8 ≤ 25)
    (hinput : input.length + rate < 2 ^ 31) {lanes : ℕ} (hlanes : lanes ≤ 25) {output : Bytes}
    (hlen : output.length = lanes * 8) :
    sha3 f rate lanes input output = some (Keccak.sponge rate (lanes * 8) input) := by
  obtain ⟨offset, state, a, hblocks, hrest, hsponge⟩ := Sha3.exists_absorbed input hf
    (intAdd_eq hinput) hpos hrate hsize le_rfl
  have hint : intAdd input.length 0 = some input.length := if_pos (by omega)
  rw [sha3, hint, hsponge, ← hlen]
  simp only [Option.bind_eq_bind, Option.bind_some, hblocks, hrest]
  exact writeLanes_eq a hlanes hlen

theorem gpuSha3_256_eq (h : input.length ≤ 2 ^ 31 - 137) (output : Vector UInt8 32) :
    gpuSha3_256 input output.toList = some (Keccak.sha3_256 input) := by
  rw [gpuSha3_256, Keccak.sha3_256]
  exact sha3_eq keccakF1600_lanes (by decide) (by decide) (by decide) (by omega) (by decide)
    output.length_toList

theorem cpuSha3_256_eq (h : input.length ≤ 2 ^ 31 - 137) (output : Vector UInt8 32) :
    cpuSha3_256 input output.toList = some (Keccak.sha3_256 input) := by
  rw [cpuSha3_256, Keccak.sha3_256]
  exact sha3_eq cpuKeccakF1600_lanes (by decide) (by decide) (by decide) (by omega) (by decide)
    output.length_toList

theorem cpuSha3_512_eq (h : input.length ≤ 2 ^ 31 - 137) (output : Vector UInt8 64) :
    cpuSha3_512 input output.toList = some (Keccak.sha3_512 input) := by
  rw [cpuSha3_512, Keccak.sha3_512]
  exact sha3_eq cpuKeccakF1600_lanes (by decide) (by decide) (by decide) (by omega) (by decide)
    output.length_toList

end Sponge

end Native.Cuda

/-- Device, CPU and C code write one digest. -/
theorem cuda_sha3_agrees (input : Bytes) (h : input.length ≤ 2 ^ 31 - 137)
    (gpu cpu c : Vector UInt8 32) (cpu' c' : Vector UInt8 64) :
    (∃ digest, Native.Sha3.sha3_256 input c.toList = some digest ∧
      Native.Cuda.gpuSha3_256 input gpu.toList = some digest ∧
      Native.Cuda.cpuSha3_256 input cpu.toList = some digest) ∧
    ∃ digest, Native.Sha3.sha3_512 input c'.toList = some digest ∧
      Native.Cuda.cpuSha3_512 input cpu'.toList = some digest :=
  ⟨⟨_, Native.Sha3.sha3_256_eq input c, Native.Cuda.gpuSha3_256_eq h gpu,
    Native.Cuda.cpuSha3_256_eq h cpu⟩,
    _, Native.Sha3.sha3_512_eq input c', Native.Cuda.cpuSha3_512_eq h cpu'⟩

/-- A string of more than one block of either rate. -/
def twoBlockInput : Bytes := List.replicate 200 0xA3

theorem cuda_sha3_agrees_twoBlocks :
    twoBlockInput.length ≤ 2 ^ 31 - 137 ∧
      (∃ digest, Native.Sha3.sha3_256 twoBlockInput (Vector.replicate 32 0).toList = some digest ∧
        Native.Cuda.gpuSha3_256 twoBlockInput (Vector.replicate 32 1).toList = some digest ∧
        Native.Cuda.cpuSha3_256 twoBlockInput (Vector.replicate 32 2).toList = some digest) ∧
      ∃ digest, Native.Sha3.sha3_512 twoBlockInput (Vector.replicate 64 0).toList = some digest ∧
        Native.Cuda.cpuSha3_512 twoBlockInput (Vector.replicate 64 1).toList = some digest := by
  have hlength : twoBlockInput.length ≤ 2 ^ 31 - 137 := by
    rw [twoBlockInput, List.length_replicate]
    norm_num
  exact ⟨hlength, cuda_sha3_agrees twoBlockInput hlength (.replicate 32 1) (.replicate 32 2)
    (.replicate 32 0) (.replicate 64 1) (.replicate 64 0)⟩

end Qrtb
