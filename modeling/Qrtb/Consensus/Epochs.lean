import Qrtb.Consensus.ValidatorNode

/-!
# Epochs and their entropy (`src/epoch.py`)

The manager keeps a record for each epoch it has heard of. Advancing counts the
manager's own calls, draws the entropy of the next epoch from the entropy well and
installs a record with it; the queries by the clock install a blank record. What
finalizing an epoch means to a node is the part of this state with which the voting
is modelled.
-/

namespace Qrtb.Epochs

open Keccak PyFloat Transition

def EPOCH_DURATION_SEC : ℤ := 15 * 60
def GRACE_PERIOD_SEC : ℤ := 5 * 60

inductive EntropySourceType where
  | networkMeasurements
  | blockchainState
  | externalBeacons
  | historicalChain
  deriving DecidableEq

structure EntropyContribution where
  sourceType : EntropySourceType
  data : Bytes
  timestamp : ℤ
  available : Bool := true
  deriving DecidableEq

structure EpochEntropy where
  epoch : ℤ
  contributions : OrderedDict EntropySourceType EntropyContribution
  combinedEntropy : Bytes
  generationTimestamp : ℤ
  sourcesUsed : ℕ
  deriving DecidableEq

structure EntropyWell where
  networkMeasurements : Bytes := []
  blockchainState : Bytes := []
  externalBeacons : Bytes := []
  historicalChain : Bytes
  history : OrderedDict ℤ EpochEntropy := ∅

variable {F : Type} [PyFloat F]

namespace EntropyWell

/-- Only the first hundred measurements are hashed. -/
def updateNetworkMeasurements (rttData : List F) (time : F) (w : EntropyWell) :
    Except PyError EntropyWell :=
  if rttData.isEmpty then .ok w
  else do
    let rttBytes := ((rttData.take 100).map fun r => Bytes.bigEndian 8 (ieee r).toNat).flatten
    let data ← concat [.bytes (ascii ['n', 'e', 't', 'w', 'o', 'r', 'k']), .bytes rttBytes,
      .int (milliseconds time)]
    return { w with networkMeasurements := sha3_512 data }

def updateBlockchainState (blockHash : Bytes) (w : EntropyWell) : EntropyWell :=
  { w with
    blockchainState := sha3_512 (ascii ['b', 'l', 'o', 'c', 'k', 'c', 'h', 'a', 'i', 'n'] ++
      (w.blockchainState ++ blockHash)) }

def updateExternalBeacons (beaconData : Bytes) (w : EntropyWell) : EntropyWell :=
  { w with
    externalBeacons := sha3_512 (ascii ['e', 'x', 't', 'e', 'r', 'n', 'a', 'l'] ++
      (w.externalBeacons ++ beaconData)) }

/-- The sources that have data; the historical chain always counts. -/
def sources (w : EntropyWell) : List (EntropySourceType × Bytes) :=
  ([(.networkMeasurements, w.networkMeasurements), (.blockchainState, w.blockchainState),
    (.externalBeacons, w.externalBeacons)].filter fun s => !s.2.isEmpty) ++
    [(.historicalChain, w.historicalChain)]

def contributions (timestamp : ℤ) (w : EntropyWell) :
    OrderedDict EntropySourceType EntropyContribution :=
  w.sources.foldl (fun d s =>
    d.set s.1 { sourceType := s.1, data := s.2, timestamp := timestamp }) ∅

def combinedData (epoch : ℤ) (w : EntropyWell) : Except PyError Bytes :=
  concat [.bytes (ascii ['e', 'p', 'o', 'c', 'h', '_', 'e', 'n', 't', 'r', 'o', 'p', 'y']),
    .int epoch, .bytes w.networkMeasurements, .bytes w.blockchainState, .bytes w.externalBeacons,
    .bytes w.historicalChain]

theorem combinedData_returns {epoch : ℤ} {w : EntropyWell} :
    (w.combinedData epoch).Returns ↔ 0 ≤ epoch ∧ epoch < 256 ^ 8 := by
  simp [combinedData, concat_returns]

def generateEpochEntropy (epoch : ℤ) (time : F) (w : EntropyWell) :
    Except PyError EpochEntropy × EntropyWell :=
  match w.combinedData epoch with
  | .error e => (.error e, w)
  | .ok data =>
    let combined := sha3_512 data
    let result :=
      { epoch := epoch
        contributions := w.contributions (milliseconds time)
        combinedEntropy := combined
        generationTimestamp := milliseconds time
        sourcesUsed := w.sources.length }
    (.ok result, { w with
      historicalChain := sha3_512 (w.historicalChain ++ combined)
      history := w.history.set epoch result })

theorem generateEpochEntropy_cases (epoch : ℤ) (time : F) (w : EntropyWell) :
    (∃ entropy w', 0 ≤ epoch ∧ epoch < 256 ^ 8 ∧ entropy.epoch = epoch ∧
      w.generateEpochEntropy epoch time = (.ok entropy, w')) ∨
    (¬ (0 ≤ epoch ∧ epoch < 256 ^ 8) ∧
      ∃ e, w.generateEpochEntropy epoch time = (.error e, w)) := by
  unfold generateEpochEntropy
  cases h : w.combinedData epoch with
  | error e =>
    refine Or.inr ⟨?_, e, rfl⟩
    intro hepoch
    obtain ⟨data, hdata⟩ := combinedData_returns.mpr hepoch
    rw [h] at hdata
    cases hdata
  | ok data =>
    obtain ⟨hlow, hhigh⟩ := combinedData_returns.mp ⟨data, h⟩
    exact Or.inl ⟨_, _, hlow, hhigh, rfl, rfl⟩

end EntropyWell

inductive EpochPhase where
  | active
  | measurement
  | consensus
  | transition
  deriving DecidableEq

structure EpochState (F : Type) where
  epochNumber : ℤ
  startTime : F
  endTime : F
  phase : EpochPhase
  entropy : Option EpochEntropy := none
  validatorCommitments : OrderedDict Bytes Bytes := ∅
  finalized : Bool := false
  blockRoot : Option Bytes := none
  deriving DecidableEq

structure EpochManager (F : Type) where
  genesisTime : F
  currentEpoch : ℤ := 0
  epochs : OrderedDict ℤ (EpochState F) := ∅
  entropyWell : EntropyWell

/-- The integers that do not round beyond the largest double. -/
def FitsFloat (n : ℤ) : Prop := |n| < 2 ^ 1024 - 2 ^ 970

instance (n : ℤ) : Decidable (FitsFloat n) := inferInstanceAs (Decidable (_ < _))

/-- An integer as an operand of a float. -/
def floatOfInt (n : ℤ) : Except PyError F :=
  if FitsFloat n then .ok (literal n) else .error .overflowError

namespace EpochManager

/-- The record a new epoch starts with, at its offset from the genesis time. -/
def blankState (epochNumber : ℤ) (offset : F) (m : EpochManager F) : EpochState F :=
  let startTime := add m.genesisTime offset
  { epochNumber := epochNumber, startTime := startTime,
    endTime := add startTime (literal EPOCH_DURATION_SEC), phase := .active }

def initializeEpoch (epochNumber : ℤ) (m : EpochManager F) :
    Except PyError (EpochState F × EpochManager F) := do
  let offset ← floatOfInt (epochNumber * EPOCH_DURATION_SEC)
  let state := m.blankState epochNumber offset
  return (state, { m with epochs := m.epochs.set epochNumber state })

/-- A new manager has the genesis epoch; its entropy chain starts with random bytes. -/
def init (genesisTime : F) (historicalChain : Bytes) : EpochManager F :=
  let m : EpochManager F :=
    { genesisTime := genesisTime, entropyWell := { historicalChain := historicalChain } }
  { m with epochs := m.epochs.set 0 (m.blankState 0 (literal 0)) }

def getCurrentEpoch (time : F) (m : EpochManager F) : ℤ :=
  max 0 (truncate (div (sub time m.genesisTime) (literal EPOCH_DURATION_SEC)))

def phaseAt (elapsedInEpoch : F) : EpochPhase :=
  if lt elapsedInEpoch (mul (literal EPOCH_DURATION_SEC) (literal 0.8)) then .active
  else if lt elapsedInEpoch (mul (literal EPOCH_DURATION_SEC) (literal 0.867)) then .measurement
  else if lt elapsedInEpoch (mul (literal EPOCH_DURATION_SEC) (literal 0.933)) then .consensus
  else .transition

/-- The clock is read once for the epoch and once for the time in it. -/
def getEpochPhase (epoch : Option ℤ) (time time' : F) (m : EpochManager F) :
    Except PyError EpochPhase × EpochManager F :=
  let epoch := epoch.getD (m.getCurrentEpoch time)
  match m.epochs.get? epoch with
  | some state => (.ok (phaseAt (sub time' state.startTime)), m)
  | none =>
    match m.initializeEpoch epoch with
    | .error e => (.error e, m)
    | .ok (state, m) => (.ok (phaseAt (sub time' state.startTime)), m)

def isInGracePeriod (txEpoch : ℤ) (time time' : F) (m : EpochManager F) :
    Except PyError Bool × EpochManager F :=
  let current := m.getCurrentEpoch time
  if txEpoch = current then (.ok true, m)
  else if txEpoch = current - 1 then
    -- the default of the lookup is built before the lookup, and stored over what is there
    match m.initializeEpoch current with
    | .error e => (.error e, m)
    | .ok (fresh, m) =>
      let state := (m.epochs.get? current).getD fresh
      (.ok (lt (sub time' state.startTime) (literal GRACE_PERIOD_SEC)), m)
  else (.ok false, m)

/-- `state = self.epochs.get(epoch); if state: …`. -/
def updateEpoch (epoch : ℤ) (change : EpochState F → EpochState F) (m : EpochManager F) :
    EpochManager F :=
  match m.epochs.get? epoch with
  | none => m
  | some state => { m with epochs := m.epochs.set epoch (change state) }

/-- The counter is raised first and stays raised when a later statement raises. -/
def advanceEpoch (time : F) (m : EpochManager F) :
    Except PyError (ℤ × EpochEntropy) × EpochManager F :=
  let m := { m with currentEpoch := m.currentEpoch + 1 }
  match m.entropyWell.generateEpochEntropy m.currentEpoch time with
  | (.error e, well) => (.error e, { m with entropyWell := well })
  | (.ok entropy, well) =>
    match { m with entropyWell := well }.initializeEpoch m.currentEpoch with
    | .error e => (.error e, { m with entropyWell := well })
    | .ok (_, m) =>
      let m := m.updateEpoch m.currentEpoch fun state => { state with entropy := some entropy }
      let m := m.updateEpoch (m.currentEpoch - 1) fun state =>
        { state with finalized := true, phase := .transition }
      (.ok (m.currentEpoch, entropy), m)

def finalizeEpoch (epoch : ℤ) (blockRoot : Bytes) (m : EpochManager F) : EpochManager F :=
  if (m.epochs.get? epoch).isSome then
    let m := m.updateEpoch epoch fun state =>
      { state with finalized := true, blockRoot := some blockRoot }
    { m with entropyWell := m.entropyWell.updateBlockchainState blockRoot }
  else m

def addValidatorCommitment (epoch : ℤ) (validatorId commitment : Bytes) (m : EpochManager F) :
    EpochManager F :=
  m.updateEpoch epoch fun state =>
    { state with validatorCommitments := state.validatorCommitments.set validatorId commitment }

section

variable {m : EpochManager F} {key epoch : ℤ}

theorem fitsFloat_of_lt (h : 0 ≤ epoch ∧ epoch < 256 ^ 8) :
    FitsFloat (epoch * EPOCH_DURATION_SEC) := by
  unfold FitsFloat EPOCH_DURATION_SEC
  rw [abs_of_nonneg (by omega)]
  calc epoch * (15 * 60) < 256 ^ 8 * (15 * 60) := by omega
    _ < 2 ^ 1024 - 2 ^ 970 := by decide +kernel

theorem initializeEpoch_eq (epoch : ℤ) (m : EpochManager F) :
    m.initializeEpoch epoch =
      if FitsFloat (epoch * EPOCH_DURATION_SEC) then
        let state := m.blankState epoch (literal (epoch * EPOCH_DURATION_SEC : ℤ))
        .ok (state, { m with epochs := m.epochs.set epoch state })
      else .error .overflowError := by
  unfold initializeEpoch floatOfInt
  by_cases h : FitsFloat (epoch * EPOCH_DURATION_SEC)
  · rw [if_pos h, if_pos h]
    rfl
  · rw [if_neg h, if_neg h]
    rfl

omit [PyFloat F] in
theorem get?_updateEpoch (change : EpochState F → EpochState F) :
    (m.updateEpoch epoch change).epochs.get? key =
      if key = epoch then (m.epochs.get? key).map change else m.epochs.get? key := by
  apply OrderedDict.get?_of_update
  · intro h
    rw [updateEpoch, h]
  · intro state h
    rw [updateEpoch, h]

omit [PyFloat F] in
@[simp] theorem currentEpoch_updateEpoch (change : EpochState F → EpochState F) :
    (m.updateEpoch epoch change).currentEpoch = m.currentEpoch := by
  unfold updateEpoch
  split <;> rfl

/-- An advance draws entropy for the next epoch, records it and closes the epoch before, or only
counts. -/
theorem advanceEpoch_cases (time : F) (m : EpochManager F) :
    (∃ entropy m', (0 ≤ m.currentEpoch + 1 ∧ m.currentEpoch + 1 < 256 ^ 8) ∧
      entropy.epoch = m.currentEpoch + 1 ∧
      m.advanceEpoch time = (.ok (m.currentEpoch + 1, entropy), m') ∧
      m'.currentEpoch = m.currentEpoch + 1 ∧
      ∀ key, m'.epochs.get? key =
        if key = m.currentEpoch + 1 then
          let offset := literal ((m.currentEpoch + 1) * EPOCH_DURATION_SEC : ℤ)
          some { m.blankState (m.currentEpoch + 1) offset with entropy := some entropy }
        else if key = m.currentEpoch then
          (m.epochs.get? key).map fun state =>
            { state with finalized := true, phase := .transition }
        else m.epochs.get? key) ∨
    (¬ (0 ≤ m.currentEpoch + 1 ∧ m.currentEpoch + 1 < 256 ^ 8) ∧
      ∃ e, m.advanceEpoch time = (.error e, { m with currentEpoch := m.currentEpoch + 1 })) := by
  unfold advanceEpoch
  dsimp only
  rcases m.entropyWell.generateEpochEntropy_cases (m.currentEpoch + 1) time with
    ⟨entropy, well, hlow, hhigh, hentropy, heq⟩ | ⟨hout, e, heq⟩
  · refine Or.inl ⟨entropy, ?_⟩
    simp only [heq, initializeEpoch_eq, if_pos (fitsFloat_of_lt ⟨hlow, hhigh⟩),
      currentEpoch_updateEpoch]
    refine ⟨_, ⟨hlow, hhigh⟩, hentropy, rfl, by simp only [currentEpoch_updateEpoch], ?_⟩
    intro key
    rw [get?_updateEpoch, get?_updateEpoch, OrderedDict.get?_set, add_sub_cancel_right]
    by_cases hnew : key = m.currentEpoch + 1
    · have hold : key ≠ m.currentEpoch := by omega
      rw [if_neg hold, if_pos hnew, if_pos hnew, if_pos hnew]
      rfl
    · rw [if_neg hnew, if_neg hnew, if_neg hnew]
  · exact Or.inr ⟨hout, e, by rw [heq]⟩

end

/-- The part of the manager that finalizing a block reads and writes. -/
def view (m : EpochManager F) : Qrtb.EpochManager where
  epochs := m.epochs.map fun state => { finalized := state.finalized, blockRoot := state.blockRoot }
  blockchainState := m.entropyWell.blockchainState

omit [PyFloat F] in
theorem view_finalizeEpoch (epoch : ℤ) (blockRoot : Bytes) (m : EpochManager F) :
    (m.finalizeEpoch epoch blockRoot).view = m.view.finalizeEpoch epoch blockRoot := by
  unfold finalizeEpoch Qrtb.EpochManager.finalizeEpoch
  simp only [view, OrderedDict.get?_map]
  cases h : m.epochs.get? epoch with
  | none => rfl
  | some state =>
    simp only [Option.isSome_some, if_true, Option.map_some, updateEpoch, h,
      Qrtb.EpochManager.updateBlockchainState, EntropyWell.updateBlockchainState]
    congr 1
    exact (OrderedDict.set_map (fun state : EpochState F =>
      ({ finalized := state.finalized, blockRoot := state.blockRoot } : Qrtb.EpochState)) ..).symm

end EpochManager

end Qrtb.Epochs
