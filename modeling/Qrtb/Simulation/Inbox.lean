import Qrtb.Lib.Mailbox
import Qrtb.Simulation.Testnet

/-!
# The message queues of a node (`src/validator.py`)

A node that runs on messages puts what it sends into its outbox, once for each
peer, and takes what it has received out of its inbox, one message after the other.
A message that makes a method raise is out of the inbox, and those behind it stay.
The cast votes and the finalized blocks are kept beside their counters.
-/

namespace Qrtb.Routed

open PyFloat Stateful Mailbox

inductive Message (F : Type) where
  | commitment (commitment : MeasurementCommitment)
  | reveal (reveal : MeasurementReveal F)
  | proposal (proposal : ConsensusProposal F)
  | vote (vote : ConsensusVote)

/-- Everything of a node but its two queues. -/
structure NodeState (F : Type) where
  node : Testnet.ValidatorNode F
  blocksProposed : ℕ := 0
  detectionFlags : ℕ := 0
  votes : List ConsensusVote := []
  blocks : List (ConsensusBlock F) := []

abbrev ValidatorNode (F : Type) := Mailbox.Node Bytes (Message F) (NodeState F)

variable {F α : Type}

def onNode (x : Stateful (Testnet.ValidatorNode F) α) : Stateful (ValidatorNode F) α :=
  onState (on NodeState.node (fun v n => { n with node := v }) x)

def onConsensus (x : Stateful (BFTConsensus F) α) : Stateful (ValidatorNode F) α :=
  onNode (Testnet.ValidatorNode.onConsensus x)

def change (f : NodeState F → NodeState F) : Stateful (ValidatorNode F) Unit := onState (modify f)

def look (f : NodeState F → α) : Stateful (ValidatorNode F) α := onState (reads f)

def broadcast (message : Message F) : Stateful (ValidatorNode F) Unit :=
  send fun n => n.node.peers.keys.map fun peer => (peer, message)

def castVote (vote : ConsensusVote) : Stateful (ValidatorNode F) Unit := do
  broadcast (.vote vote)
  change fun n =>
    { n with node := { n.node with votesCast := n.node.votesCast + 1 }, votes := n.votes ++ [vote] }

section

variable [PyFloat F]

def broadcastCommitment : Stateful (ValidatorNode F) Unit := do
  let commitment ← look fun n => n.node.currentCommitment
  match commitment with
  | none => pure ()
  | some c => broadcast (.commitment c)

def broadcastReveal : Stateful (ValidatorNode F) Unit := do
  let reveal ← onNode Testnet.ValidatorNode.createReveal
  broadcast (.reveal reveal)

def proposeBlock (measurements : MeasurementGraph F) (time : F) :
    Stateful (ValidatorNode F) Unit := do
  let proposal ← onConsensus (BFTConsensus.createProposal measurements [] [] time)
  change fun n => { n with blocksProposed := n.blocksProposed + 1 }
  broadcast (.proposal proposal)

/-- The proposer of the round proposes over the measurements it has. -/
def runConsensusPhase (time : F) : Stateful (ValidatorNode F) Unit := do
  change fun n => { n with node := { n.node with state := .voting } }
  let measurements ← look fun n => n.node.measurementProtocol.getAllMeasurements
  let consensus ← look fun n => n.node.consensus
  let mine ← ofExcept consensus.amIProposer
  if mine then proposeBlock measurements time else pure ()

inductive Action (F : Type) where
  | startEpoch (epoch : ℤ) (time : F)
  | runMeasurementPhase (readings : Testnet.Readings F)
  | createMeasurementCommitment (time : F)
  | broadcastCommitment
  | broadcastReveal
  | runConsensusPhase (time : F)

def perform : Action F → Stateful (ValidatorNode F) Unit
  | .startEpoch epoch time => onNode (Testnet.ValidatorNode.startEpoch epoch time)
  | .runMeasurementPhase readings => onNode (Testnet.ValidatorNode.runMeasurementPhase readings)
  | .createMeasurementCommitment time =>
    onNode (Testnet.ValidatorNode.createMeasurementCommitment time)
  | .broadcastCommitment => Routed.broadcastCommitment
  | .broadcastReveal => Routed.broadcastReveal
  | .runConsensusPhase time => Routed.runConsensusPhase time

/-- A valid proposal is pre-voted at once. -/
def receiveProposal (proposal : ConsensusProposal F) (time : F) :
    Stateful (ValidatorNode F) Unit := do
  let valid ← onConsensus (checking (BFTConsensus.receiveProposal proposal))
  if valid then do
    let proposalHash ← ofExcept proposal.proposalHash
    let vote ← onConsensus (total (BFTConsensus.createPreVote proposalHash time))
    castVote vote
  else pure ()

def onBlockFinalized (block : ConsensusBlock F) : Stateful (ValidatorNode F) Unit :=
  change fun n =>
    { n with
      node :=
        { n.node with
          state := .active
          epochManager := n.node.epochManager.finalizeEpoch block.epoch block.blockHash }
      detectionFlags := n.detectionFlags +
        block.proposal.detectionResults.values.countP DetectionResult.isSuspicious
      blocks := n.blocks ++ [block] }

def afterPreVote (proposalHash : Bytes) (time : F) : Stateful (ValidatorNode F) Unit := do
  let consensus ← look fun n => n.node.consensus
  if (consensus.checkPreVoteThreshold proposalHash).1 then do
    let commitVote ← onConsensus (total (BFTConsensus.createPreCommit proposalHash time))
    match commitVote with
    | none => pure ()
    | some vote => castVote vote
  else pure ()

def afterPreCommit (proposalHash : Bytes) (time : F) : Stateful (ValidatorNode F) Unit := do
  let consensus ← look fun n => n.node.consensus
  if (consensus.checkPreCommitThreshold proposalHash).1 then do
    let block ← onConsensus (BFTConsensus.tryFinalize proposalHash time)
    match block with
    | none => pure ()
    | some block => onBlockFinalized block
  else pure ()

def receiveVote (vote : ConsensusVote) (time : F) : Stateful (ValidatorNode F) Unit :=
  match vote.voteType with
  | .preVote => do
    let valid ← onConsensus (checking (BFTConsensus.receivePreVote vote))
    if valid then afterPreVote vote.proposalHash time else pure ()
  | .preCommit => do
    let valid ← onConsensus (checking (BFTConsensus.receivePreCommit vote))
    if valid then afterPreCommit vote.proposalHash time else pure ()

def receive : Message F → F → Stateful (ValidatorNode F) Unit
  | .commitment commitment, _ => do
    let _ ← onNode (Testnet.ValidatorNode.receiveCommitment commitment)
  | .reveal reveal, _ => do
    let _ ← onNode (Testnet.ValidatorNode.receiveReveal reveal)
  | .proposal proposal, time => receiveProposal proposal time
  | .vote vote, time => receiveVote vote time

/-- The clock is read anew for every message. -/
def processInbox (clock : ℕ → F) : Stateful (ValidatorNode F) Unit :=
  drain fun message i => receive message (clock i)

omit [PyFloat F] in
theorem local_onNode (x : Stateful (Testnet.ValidatorNode F) α) : Local (onNode x) :=
  local_onState _

omit [PyFloat F] in
theorem local_castVote (vote : ConsensusVote) : Local (castVote vote : Stateful (ValidatorNode F) _) :=
  (local_send _).bind fun _ => local_onState _

theorem local_proposeBlock (measurements : MeasurementGraph F) (time : F) :
    Local (proposeBlock measurements time) :=
  (local_onNode _).bind fun _ => (local_onState _).bind fun _ => local_send _

theorem local_perform (a : Action F) : Local (perform a) := by
  cases a with
  | startEpoch | runMeasurementPhase | createMeasurementCommitment => exact local_onNode _
  | broadcastCommitment =>
    refine (local_onState _).bind fun commitment => ?_
    cases commitment with
    | none => exact local_pure ()
    | some c => exact local_send _
  | broadcastReveal => exact (local_onNode _).bind fun _ => local_send _
  | runConsensusPhase time =>
    refine (local_onState _).bind fun _ => (local_onState _).bind fun _ =>
      (local_onState _).bind fun _ => (local_ofExcept _).bind fun _ => ?_
    exact (local_proposeBlock _ time).ite (local_pure ())

theorem local_receiveProposal (proposal : ConsensusProposal F) (time : F) :
    Local (receiveProposal proposal time) := by
  refine (local_onNode _).bind fun _ => Local.ite ?_ (local_pure ())
  exact (local_ofExcept _).bind fun _ => (local_onNode _).bind fun _ => local_castVote _

theorem local_afterPreVote (proposalHash : Bytes) (time : F) :
    Local (afterPreVote proposalHash time) := by
  refine (local_onState _).bind fun _ => Local.ite ?_ (local_pure ())
  refine (local_onNode _).bind fun commitVote => ?_
  cases commitVote with
  | none => exact local_pure ()
  | some vote => exact local_castVote vote

theorem local_afterPreCommit (proposalHash : Bytes) (time : F) :
    Local (afterPreCommit proposalHash time) := by
  refine (local_onState _).bind fun _ => Local.ite ?_ (local_pure ())
  refine (local_onNode _).bind fun block => ?_
  cases block with
  | none => exact local_pure ()
  | some block => exact local_onState _

theorem local_receiveVote (vote : ConsensusVote) (time : F) : Local (receiveVote vote time) := by
  rw [receiveVote]
  split
  next => exact (local_onNode _).bind fun _ => (local_afterPreVote _ _).ite (local_pure ())
  next => exact (local_onNode _).bind fun _ => (local_afterPreCommit _ _).ite (local_pure ())

theorem local_receive (message : Message F) (time : F) : Local (receive message time) := by
  cases message with
  | commitment | reveal => exact (local_onNode _).bind fun _ => local_pure ()
  | proposal proposal => exact local_receiveProposal proposal time
  | vote vote => exact local_receiveVote vote time

end

end Qrtb.Routed
