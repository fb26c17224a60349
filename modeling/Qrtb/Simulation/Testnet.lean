import Qrtb.Simulation.Node

/-!
# The simulated network (`src/network.py`)

Every validator is a peer of every other. An epoch takes all of them through the
measurement, the exchange of commitments and reveals, one proposal and two rounds
of votes, each message being handed to every other node. The first block ends it.
A node is filed under its id.
-/

namespace Qrtb.Testnet

open PyFloat Stateful OrderedDict

structure NetworkConfig where
  numZones : ℕ := 6
  validatorsPerZone : ℕ := 5
  baseStake : ℤ := 1000

abbrev Validators (F : Type) := OrderedDict Bytes (ValidatorNode F)

structure EpochStats (F : Type) where
  epoch : ℤ
  finalized : Bool
  durationMs : F
  validators : ℕ
  adversaries : ℕ
  honest : ℕ
  adversariesDetected : ℕ
  falsePositives : ℕ
  detectionRate : F
  falsePositiveRate : F
  totalStake : ℤ
  supportingStake : ℤ
  consensusRatio : F
  messagesProcessed : ℕ

structure QRTBTestnet (F : Type) where
  genesisTime : F
  validators : Validators F := ∅
  finalizedBlocks : OrderedDict ℤ (ConsensusBlock F) := ∅
  epochStats : OrderedDict ℤ (EpochStats F) := ∅

variable {F : Type}

/-- What is drawn for one validator of the network. -/
structure Draw (F : Type) where
  validatorId : Bytes
  keySeed : Bytes
  historicalChain : Bytes
  stakeOffset : ℤ
  location : F × F

def connectValidators (time : Bytes → Bytes → F) (validators : Validators F) : Validators F :=
  validators.map fun n =>
    (validators.values.filter fun peer => peer.validatorId ≠ n.validatorId).foldl
      (fun n peer => n.addPeer peer.validatorId peer.config (time n.validatorId peer.validatorId)) n

section

variable [PyFloat F]

/-- The validator with a number, in a zone. -/
def createValidator (config : NetworkConfig) (genesisTime : F) (adversaryIndices : List ℕ)
    (draw : ℕ → Draw F) (zoneId validatorIndex : ℕ) : ValidatorNode F :=
  let d := draw validatorIndex
  .init d.validatorId d.keySeed d.historicalChain
    { zoneId := zoneId, stake := config.baseStake + d.stakeOffset, location := d.location }
    (adversaryIndices.contains validatorIndex) genesisTime

def initializeNetwork (config : NetworkConfig) (genesisTime : F) (adversaryIndices : List ℕ)
    (draw : ℕ → Draw F) (connectTime : Bytes → Bytes → F) : QRTBTestnet F :=
  let zones := (List.range config.numZones).flatMap fun zoneId =>
    List.replicate config.validatorsPerZone zoneId
  let validators : Validators F := zones.zipIdx.foldl (fun d p =>
    let node := createValidator config genesisTime adversaryIndices draw p.1 p.2
    d.set node.validatorId node) ∅
  { genesisTime := genesisTime, validators := connectValidators connectTime validators }

/-- What a node sends is received by every other node. -/
def deliver {α : Type} (sender : Bytes) (receive : Stateful (ValidatorNode F) α) :
    Stateful (Validators F) Unit := do
  let _ ← forValues fun vid => if vid = sender then pure none else some <$> receive

def forSenders (send : Bytes → Stateful (Validators F) Unit) : Stateful (Validators F) Unit := do
  let senders ← reads OrderedDict.keys
  let _ ← forEach send senders

def broadcastCommitment (sender : Bytes) : Stateful (Validators F) Unit := do
  let commitment ← reads fun d => (d.get? sender).bind fun n => n.currentCommitment
  match commitment with
  | none => pure ()
  | some c => deliver sender (ValidatorNode.receiveCommitment c)

def broadcastReveal (sender : Bytes) : Stateful (Validators F) Unit := do
  let reveal ← call sender ValidatorNode.createReveal
  match reveal with
  | none => pure ()
  | some reveal => deliver sender (ValidatorNode.receiveReveal reveal)

def allMeasurements (validators : Validators F) : MeasurementGraph F :=
  validators.map fun n => n.currentMeasurements

def createProposal (r : Readings F) (measurements : MeasurementGraph F) :
    Stateful (ValidatorNode F) (Option (ConsensusProposal F)) :=
  ValidatorNode.onConsensus (some <$> BFTConsensus.createProposal measurements [] [] r.proposeTime)

def proposeIfMine (r : Readings F) (measurements : MeasurementGraph F) :
    Stateful (ValidatorNode F) (Option (ConsensusProposal F)) := do
  let n ← reads id
  let mine ← ofExcept n.consensus.amIProposer
  if mine then createProposal r measurements else pure none

/-- The proposal of the first node that takes itself for the proposer, else of the first node. -/
def propose (r : Readings F) : Stateful (Validators F) (Bytes × ConsensusProposal F) := do
  let measurements ← reads allMeasurements
  let made ← firstValue fun _ => proposeIfMine r measurements
  match made with
  | some proposal => pure proposal
  | none =>
    let made ← firstValue fun _ => createProposal r measurements
    match made with
    | some proposal => pure proposal
    | none => raise .indexError

/-- Every vote is received by everybody but its voter. -/
def distribute (receive : ConsensusVote → BFTConsensus F → Check Unit × BFTConsensus F)
    (votes : List ConsensusVote) : Stateful (Validators F) Unit := do
  let _ ← forEach (fun vote =>
    deliver vote.voterId (ValidatorNode.onConsensus (checking (receive vote)))) votes

def runConsensus (r : Readings F) : Stateful (Validators F) (Option (ConsensusBlock F)) := do
  let (proposer, proposal) ← propose r
  deliver proposer (ValidatorNode.onConsensus (checking (BFTConsensus.receiveProposal proposal)))
  let hash ← ofExcept proposal.proposalHash
  let votes ← forValues fun vid =>
    ValidatorNode.onConsensus (total (BFTConsensus.createPreVote hash (r.preVoteTime vid)))
  distribute BFTConsensus.receivePreVote votes
  let preCommits ← forValues fun vid =>
    ValidatorNode.onConsensus (total (BFTConsensus.createPreCommit hash (r.preCommitTime vid)))
  distribute BFTConsensus.receivePreCommit preCommits.reduceOption
  let block ← firstValue fun vid =>
    ValidatorNode.onConsensus (BFTConsensus.tryFinalize hash (r.finalizeTime vid))
  return block.map Prod.snd

/-- How many validators of a kind the block marks as suspicious. -/
def detected (isAdversary : Bool) (block : Option (ConsensusBlock F)) (validators : Validators F) :
    ℕ :=
  block.elim 0 fun b => (b.proposal.detectionResults.items.filter fun p =>
    p.2.isSuspicious && (validators.get? p.1).any fun n => n.isAdversary == isAdversary).length

def collectEpochStats (epoch : ℤ) (block : Option (ConsensusBlock F)) (duration : F)
    (validators : Validators F) : EpochStats F :=
  let nodes := validators.values
  let totalAdversaries := (nodes.filter fun n => n.isAdversary).length
  let totalHonest := nodes.length - totalAdversaries
  let adversariesDetected := detected true block validators
  let falsePositives := detected false block validators
  let totalStake := (nodes.map fun n => n.config.stake).sum
  let supportingStake := block.elim 0 fun b => b.supportingStake
  { epoch := epoch
    finalized := block.isSome
    durationMs := mul duration (literal 1000)
    validators := nodes.length
    adversaries := totalAdversaries
    honest := totalHonest
    adversariesDetected := adversariesDetected
    falsePositives := falsePositives
    detectionRate := divInt adversariesDetected (max totalAdversaries 1 : ℕ)
    falsePositiveRate := divInt falsePositives (max totalHonest 1 : ℕ)
    totalStake := totalStake
    supportingStake := supportingStake
    consensusRatio :=
      if totalStake = 0 then literal 0 else divInt supportingStake totalStake
    messagesProcessed := (nodes.map fun n => n.votesCast + n.measurementsMade).sum }

/-- The phases of an epoch, with the block that ends it. -/
def runPhases (epoch : ℤ) (r : Readings F) : Stateful (Validators F) (Option (ConsensusBlock F)) := do
  let _ ← forValues fun vid => ValidatorNode.startEpoch epoch (r.advanceTime vid)
  let _ ← forValues fun vid => do
    ValidatorNode.runMeasurementPhase r
    ValidatorNode.createMeasurementCommitment (r.commitTime vid)
  forSenders broadcastCommitment
  forSenders broadcastReveal
  runConsensus r

namespace QRTBTestnet

def onValidators {α : Type} (x : Stateful (Validators F) α) : Stateful (QRTBTestnet F) α :=
  on validators (fun v t => { t with validators := v }) x

def runEpoch (epoch : ℤ) (r : Readings F) : Stateful (QRTBTestnet F) (EpochStats F) := do
  let block ← onValidators (runPhases epoch r)
  modify fun t =>
    { t with finalizedBlocks := block.elim t.finalizedBlocks (t.finalizedBlocks.set epoch) }
  let stats ← reads fun t =>
    collectEpochStats epoch block (sub r.endTime r.beginTime) t.validators
  modify fun t => { t with epochStats := t.epochStats.set epoch stats }
  return stats

end QRTBTestnet

end

end Qrtb.Testnet
