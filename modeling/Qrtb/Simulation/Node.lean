import Qrtb.Consensus.EpochStart
import Qrtb.Consensus.Membership
import Qrtb.Lib.Objects

/-!
# Nodes of the simulated network (`src/validator.py`, `src/measurement.py`)

The network drives a node through an epoch: it starts the epoch, measures, commits
and reveals, and calls the engine for the rest. What the clock and the random
generators return is an input of the epoch, and so is the distance between two
places.
-/

namespace Qrtb.Testnet

open Keccak PyFloat Stateful

/-- What an epoch reads, by the node that reads it. -/
structure Readings (F : Type) where
  beginTime : F
  advanceTime : Bytes → F
  /-- `random.Random(seed).shuffle`. -/
  shuffle : ℕ → List Bytes → List Bytes
  measureTime : Bytes → F
  haversineDistanceKm : F × F → F × F → F
  /-- `random.gauss` of a mean and a deviation, for a source and a target. -/
  gauss : Bytes → Bytes → F → F → F
  nonce : Bytes → Bytes → Bytes
  commitTime : Bytes → F
  proposeTime : F
  preVoteTime : Bytes → F
  preCommitTime : Bytes → F
  finalizeTime : Bytes → F
  endTime : F

/-- A node with its place in the network. -/
structure ValidatorNode (F : Type) extends Epochs.ValidatorNode F where
  validatorId : Bytes
  config : ValidatorConfig F
  isAdversary : Bool
  peers : OrderedDict Bytes (ValidatorConfig F) := ∅
  measurementPeers : OrderedDict Bytes (PeerInfo F) := ∅
  votesCast : ℕ := 0
  measurementsMade : ℕ := 0

section

variable {F : Type} [PyFloat F]

def MIN_PEERS : ℕ := 5
def SPEED_OF_LIGHT_FIBER_KM_MS : F := literal 198
def ADVERSARY_RTT_RATIO_MEAN : F := literal 0.82
def ADVERSARY_RTT_RATIO_STD : F := literal 0.04

def theoreticalRttMs (distanceKm : F) : F :=
  div (mul (literal 2) distanceKm) SPEED_OF_LIGHT_FIBER_KM_MS

/-- The drawn ratio is kept between 0.5 and 2. -/
def simulateRtt (gauss : F → F → F) (theoreticalMs : F) (isAdversary : Bool) : F :=
  let ratio :=
    if isAdversary then gauss ADVERSARY_RTT_RATIO_MEAN ADVERSARY_RTT_RATIO_STD
    else gauss HONEST_RTT_RATIO_MEAN HONEST_RTT_RATIO_STD
  let capped := if lt ratio (literal 2) then ratio else literal 2
  mul theoreticalMs (if lt (literal 0.5) capped then capped else literal 0.5)

end

namespace ValidatorNode

variable {F : Type} {α : Type}

def onMeasurement (x : Stateful (MeasurementProtocol F) α) : Stateful (ValidatorNode F) α :=
  on (fun n => n.measurementProtocol) (fun p n => { n with measurementProtocol := p }) x

def onConsensus (x : Stateful (BFTConsensus F) α) : Stateful (ValidatorNode F) α :=
  on (fun n => n.consensus) (fun c n => { n with consensus := c }) x

def peered (n : ValidatorNode F) : PeeredNode F where
  validatorId := n.validatorId
  config := n.config
  peers := n.peers
  measurementPeers := n.measurementPeers
  consensus := n.consensus

def addPeer (peerId : Bytes) (peer : ValidatorConfig F) (time : F) (n : ValidatorNode F) :
    ValidatorNode F :=
  let p := n.peered.addPeer peerId peer time
  { n with
    peers := p.peers
    measurementPeers := p.measurementPeers
    consensus := p.consensus }

variable [PyFloat F]

def init (validatorId keySeed historicalChain : Bytes) (config : ValidatorConfig F)
    (isAdversary : Bool) (genesisTime : F) : ValidatorNode F :=
  { Epochs.ValidatorNode.init validatorId keySeed historicalChain config.stake genesisTime with
    validatorId := validatorId
    config := config
    isAdversary := isAdversary }

def startEpoch (epoch : ℤ) (time : F) : Stateful (ValidatorNode F) Unit :=
  on (fun n => n.toValidatorNode) (fun v n => { n with toValidatorNode := v })
    (Epochs.ValidatorNode.startEpoch epoch time)

/-- `MeasurementProtocol.select_targets`: some of the peers, by a shuffle seeded with the epoch. -/
def selectTargets (r : Readings F) : Stateful (ValidatorNode F) Unit := do
  let n ← reads id
  let available := n.measurementPeers.keys
  let numTargets := if available.length < MIN_PEERS then available.length else MIN_PEERS
  let data ← ofExcept (concat [.bytes n.measurementProtocol.validatorId,
    .int n.measurementProtocol.currentEpoch])
  let shuffled := r.shuffle (Bytes.toNat ((sha3_256 data).slice 0 8)) available
  onMeasurement (modify fun p => { p with selectedTargets := shuffled.take numTargets })

/-- The measurement of one target, if it is a peer. -/
def measure (r : Readings F) (n : ValidatorNode F) (targetId : Bytes) :
    Option (RTTMeasurement F) :=
  (n.measurementPeers.get? targetId).map fun peer =>
    let distance := r.haversineDistanceKm n.config.location peer.location
    let theoretical := theoreticalRttMs distance
    { sourceId := n.measurementProtocol.validatorId
      targetId := targetId
      rttMs := simulateRtt (r.gauss n.validatorId targetId) theoretical n.isAdversary
      timestamp := milliseconds (r.measureTime n.validatorId)
      theoreticalRttMs := theoretical
      nonce := r.nonce n.validatorId targetId }

/-- `MeasurementProtocol.execute_measurements`. -/
def executeMeasurements (r : Readings F) : Stateful (ValidatorNode F) (List (RTTMeasurement F)) := do
  let n ← reads id
  let measurements := n.measurementProtocol.selectedTargets.filterMap (n.measure r)
  onMeasurement (modify fun p => { p with measurements := measurements })
  return measurements

def runMeasurementPhase (r : Readings F) : Stateful (ValidatorNode F) Unit := do
  modify fun n => { n with state := .measuring }
  selectTargets r
  let measurements ← executeMeasurements r
  modify fun n =>
    { n with
      currentMeasurements := measurements
      measurementsMade := n.measurementsMade + measurements.length }

def createMeasurementCommitment (time : F) : Stateful (ValidatorNode F) Unit := do
  let commitment ← onMeasurement (MeasurementProtocol.createCommitment time)
  modify fun n => { n with currentCommitment := some commitment }

def receiveCommitment (commitment : MeasurementCommitment) : Stateful (ValidatorNode F) Bool :=
  onMeasurement (total (MeasurementProtocol.receiveCommitment commitment))

def createReveal : Stateful (ValidatorNode F) (MeasurementReveal F) :=
  onMeasurement (total MeasurementProtocol.createReveal)

def receiveReveal (reveal : MeasurementReveal F) : Stateful (ValidatorNode F) Bool :=
  onMeasurement (checking (MeasurementProtocol.receiveReveal reveal))

end ValidatorNode

end Qrtb.Testnet
