import Qrtb.Consensus.Voting

/-!
# Validator nodes (`src/validator.py`)

A node wraps an engine: it pre-votes for every valid proposal, pre-commits when a
received pre-vote completes the threshold and finalizes when a received
pre-commit does. Seen from outside it is a party to the voting, an engine with
the votes it has cast and the blocks it has finalized. Everything a node does to
its party is a sequence of engine calls.
-/

namespace Qrtb

open Keccak PyFloat Transition

structure EpochState where
  finalized : Bool := false
  blockRoot : Option Bytes := none

structure EpochManager where
  epochs : OrderedDict ℤ EpochState := ∅
  /-- The blockchain source of the entropy well. -/
  blockchainState : Bytes := []

namespace EpochManager

def updateBlockchainState (blockHash : Bytes) (m : EpochManager) : EpochManager :=
  { m with
    blockchainState := sha3_512 (ascii ['b', 'l', 'o', 'c', 'k', 'c', 'h', 'a', 'i', 'n'] ++
      (m.blockchainState ++ blockHash)) }

/-- An epoch the manager does not know is passed over. -/
def finalizeEpoch (epoch : ℤ) (blockRoot : Bytes) (m : EpochManager) : EpochManager :=
  match m.epochs.get? epoch with
  | none => m
  | some state =>
    let state := { state with finalized := true, blockRoot := some blockRoot }
    { m with epochs := m.epochs.set epoch state }.updateBlockchainState blockRoot

end EpochManager

inductive ValidatorState where
  | initializing
  | syncing
  | active
  | measuring
  | voting
  | slashed
  | offline
  deriving DecidableEq, Repr

inductive Message (F : Type) where
  | proposal (proposal : ConsensusProposal F)
  | vote (vote : ConsensusVote)

/-- The counter of cast votes is kept as the list of them, with the finalized blocks beside it. -/
structure ValidatorNode (F : Type) where
  consensus : BFTConsensus F
  peers : List Bytes := []
  state : ValidatorState := .initializing
  outbox : List (Bytes × Message F) := []
  epochManager : EpochManager := {}
  blocksProposed : ℕ := 0
  detectionFlags : ℕ := 0
  votesCast : List ConsensusVote := []
  blocksFinalized : List (ConsensusBlock F) := []

namespace ValidatorNode

variable {F : Type}

def broadcast (message : Message F) (n : ValidatorNode F) : ValidatorNode F :=
  { n with outbox := n.outbox ++ n.peers.map fun peer => (peer, message) }

def castVote (vote : ConsensusVote) (n : ValidatorNode F) : ValidatorNode F :=
  { n.broadcast (.vote vote) with votesCast := n.votesCast ++ [vote] }

def onBlockFinalized (block : ConsensusBlock F) (n : ValidatorNode F) : ValidatorNode F :=
  { n with
    state := .active
    epochManager := n.epochManager.finalizeEpoch block.epoch block.blockHash
    detectionFlags := n.detectionFlags +
      block.proposal.detectionResults.values.countP DetectionResult.isSuspicious
    blocksFinalized := n.blocksFinalized ++ [block] }

variable [PyFloat F]

/-- A valid proposal is pre-voted at once. -/
def receiveProposal (proposal : ConsensusProposal F) (time : F) (n : ValidatorNode F) :
    Check Unit × ValidatorNode F :=
  match n.consensus.receiveProposal proposal, proposal.proposalHash with
  | (.error e, c), _ => (.error e, { n with consensus := c })
  | (.ok (), c), .error e => (.error (.raised e), { n with consensus := c })
  | (.ok (), c), .ok proposalHash =>
    let (vote, c) := c.createPreVote proposalHash time
    (.ok (), { n with consensus := c }.castVote vote)

def afterPreVote (proposalHash : Bytes) (time : F) (n : ValidatorNode F) : ValidatorNode F :=
  if (n.consensus.checkPreVoteThreshold proposalHash).1 then
    match n.consensus.createPreCommit proposalHash time with
    | (some commitVote, c) => { n with consensus := c }.castVote commitVote
    | (none, c) => { n with consensus := c }
  else n

def afterPreCommit (proposalHash : Bytes) (time : F) (n : ValidatorNode F) :
    Check Unit × ValidatorNode F :=
  if (n.consensus.checkPreCommitThreshold proposalHash).1 then
    match n.consensus.tryFinalize proposalHash time with
    | (.ok (some block), c) => (.ok (), { n with consensus := c }.onBlockFinalized block)
    | (.ok none, c) => (.ok (), { n with consensus := c })
    | (.error e, c) => (.error (.raised e), { n with consensus := c })
  else (.ok (), n)

def receiveVote (vote : ConsensusVote) (time : F) (n : ValidatorNode F) :
    Check Unit × ValidatorNode F :=
  match vote.voteType with
  | .preVote =>
    match n.consensus.receivePreVote vote with
    | (.error e, c) => (.error e, { n with consensus := c })
    | (.ok (), c) => (.ok (), { n with consensus := c }.afterPreVote vote.proposalHash time)
  | .preCommit =>
    match n.consensus.receivePreCommit vote with
    | (.error e, c) => (.error e, { n with consensus := c })
    | (.ok (), c) => { n with consensus := c }.afterPreCommit vote.proposalHash time

/-- The proposer of the round proposes over the measurements it has. -/
def runConsensusPhase (measurements : MeasurementGraph F) (time : F) (n : ValidatorNode F) :
    Except PyError Unit × ValidatorNode F :=
  let n := { n with state := .voting }
  match n.consensus.amIProposer with
  | .error e => (.error e, n)
  | .ok false => (.ok (), n)
  | .ok true =>
    match n.consensus.createProposal measurements [] [] time with
    | (.error e, c) => (.error e, { n with consensus := c })
    | (.ok proposal, c) =>
      (.ok (), { n with consensus := c, blocksProposed := n.blocksProposed + 1 }.broadcast
        (.proposal proposal))

end ValidatorNode

/-- An engine with the votes it made and the blocks it finalized. -/
structure Party (F : Type) where
  engine : BFTConsensus F
  votes : List ConsensusVote := []
  blocks : List (ConsensusBlock F) := []

def Party.next {F : Type} [PyFloat F] (p : Party F) (op : BFTConsensus.Operation F) : Party F where
  engine := p.engine.next op
  votes := p.votes ++ p.engine.created op
  blocks := p.blocks ++ p.engine.finalized op

namespace ValidatorNode

variable {F : Type} [PyFloat F]

def party (n : ValidatorNode F) : Party F := ⟨n.consensus, n.votesCast, n.blocksFinalized⟩

/-- What a node reacts to. A round is started by the lifecycle of the node, not by a message. -/
inductive Event (F : Type) where
  | start (epoch roundNum : ℤ)
  | propose (measurements : MeasurementGraph F) (time : F)
  | proposal (proposal : ConsensusProposal F) (time : F)
  | vote (vote : ConsensusVote) (time : F)

def handle (n : ValidatorNode F) : Event F → ValidatorNode F
  | .start epoch roundNum => { n with consensus := n.consensus.startRound epoch roundNum }
  | .propose measurements time => (n.runConsensusPhase measurements time).2
  | .proposal proposal time => (n.receiveProposal proposal time).2
  | .vote vote time => (n.receiveVote vote time).2

/-- The engine calls an event can lead to: it registers nobody, and hands on the received vote. -/
def Event.Allows (event : Event F) : BFTConsensus.Operation F → Prop
  | .registerValidator _ _ => False
  | .startRound epoch roundNum => event = .start epoch roundNum
  | .receivePreVote received => ∃ time, event = .vote received time
  | .receivePreCommit received => ∃ time, event = .vote received time
  | _ => True

theorem party_call (n : ValidatorNode F) (op : BFTConsensus.Operation F)
    (hvotes : n.consensus.created op = []) (hblocks : n.consensus.finalized op = []) :
    { n with consensus := n.consensus.next op }.party = n.party.next op := by
  simp [party, Party.next, hvotes, hblocks]

/-- Below the threshold the call makes no vote, so it does not matter that the node skips it. -/
theorem party_afterPreVote (proposalHash : Bytes) (time : F) (n : ValidatorNode F) :
    (n.afterPreVote proposalHash time).party =
      n.party.next (.createPreCommit proposalHash time) := by
  unfold afterPreVote
  split_ifs with hthreshold
  · simp [BFTConsensus.createPreCommit, hthreshold, castVote, broadcast, party, Party.next,
      BFTConsensus.next, BFTConsensus.created, BFTConsensus.finalized]
  · simp [BFTConsensus.createPreCommit, hthreshold, party, Party.next, BFTConsensus.next,
      BFTConsensus.created, BFTConsensus.finalized]

theorem party_afterPreCommit (proposalHash : Bytes) (time : F) (n : ValidatorNode F) :
    (n.afterPreCommit proposalHash time).2.party =
      n.party.next (.tryFinalize proposalHash time) := by
  unfold afterPreCommit
  split_ifs with hthreshold
  · split
    next block c h =>
      simp [h, onBlockFinalized, party, Party.next, BFTConsensus.next, BFTConsensus.created,
        BFTConsensus.finalized]
    next c h =>
      simp [h, party, Party.next, BFTConsensus.next, BFTConsensus.created, BFTConsensus.finalized]
    next e c h =>
      simp [h, party, Party.next, BFTConsensus.next, BFTConsensus.created, BFTConsensus.finalized]
  · simp [BFTConsensus.tryFinalize, hthreshold, party, Party.next, BFTConsensus.next,
      BFTConsensus.created, BFTConsensus.finalized]

/-- A call on the engine of a party that the event allows. -/
def Event.Step (event : Event F) (p : Party F) (op : BFTConsensus.Operation F) (p' : Party F) :
    Prop :=
  event.Allows op ∧ p' = p.next op

theorem party_runConsensusPhase (measurements : MeasurementGraph F) (time : F)
    (n : ValidatorNode F) :
    (n.runConsensusPhase measurements time).2.party = n.party ∨
      (n.runConsensusPhase measurements time).2.party =
        n.party.next (.createProposal measurements [] [] time) := by
  unfold runConsensusPhase
  dsimp only
  split
  next => exact Or.inl rfl
  next => exact Or.inl rfl
  next =>
    right
    rw [← n.party_call _ rfl rfl]
    split
    next e c h => simp [h, party, BFTConsensus.next]
    next proposal c h => simp [h, party, broadcast, BFTConsensus.next]

/-- A rejected proposal leaves the party; an accepted one is filed and pre-voted. -/
theorem party_receiveProposal (proposal : ConsensusProposal F) (time : F) (n : ValidatorNode F) :
    (∃ e, n.consensus.checkProposal proposal = .error e ∧
      (n.receiveProposal proposal time).2.party = n.party) ∨
    ∃ proposalHash, n.consensus.checkProposal proposal = .ok proposalHash ∧
      (n.receiveProposal proposal time).2.party =
        (n.party.next (.receiveProposal proposal)).next (.createPreVote proposalHash time) := by
  cases hcheck : n.consensus.checkProposal proposal with
  | error e =>
    refine Or.inl ⟨e, rfl, ?_⟩
    simp [receiveProposal, BFTConsensus.receiveProposal, hcheck]
  | ok hash =>
    refine Or.inr ⟨hash, rfl, ?_⟩
    have hhash := BFTConsensus.proposalHash_of_checkProposal hcheck
    simp [receiveProposal, BFTConsensus.receiveProposal, hcheck, hhash, party, castVote, broadcast,
      Party.next, BFTConsensus.next, BFTConsensus.created, BFTConsensus.finalized,
      BFTConsensus.createPreVote]

/-- A rejected vote leaves the party; after an admitted one the next phase is tried. -/
theorem party_receiveVote (vote : ConsensusVote) (time : F) (n : ValidatorNode F) :
    (n.receiveVote vote time).2.party = n.party ∨
    (n.consensus.Admits .preVote n.consensus.preVoteChoices vote ∧
      (n.receiveVote vote time).2.party = (n.party.next (.receivePreVote vote)).next
        (.createPreCommit vote.proposalHash time)) ∨
    (n.consensus.Admits .preCommit n.consensus.preCommitChoices vote ∧
      (n.receiveVote vote time).2.party = (n.party.next (.receivePreCommit vote)).next
        (.tryFinalize vote.proposalHash time)) := by
  cases htype : vote.voteType with
  | preVote =>
    rcases n.consensus.receivePreVote_cases vote with ⟨e, h⟩ | ⟨hadmits, h⟩
    · exact Or.inl (by simp [receiveVote, htype, h])
    · refine Or.inr (Or.inl ⟨hadmits, ?_⟩)
      simp only [receiveVote, htype, h]
      rw [party_afterPreVote, ← n.party_call _ rfl rfl, BFTConsensus.next, h]
  | preCommit =>
    rcases n.consensus.receivePreCommit_cases vote with ⟨e, h⟩ | ⟨hadmits, h⟩
    · exact Or.inl (by simp [receiveVote, htype, h])
    · refine Or.inr (Or.inr ⟨hadmits, ?_⟩)
      simp only [receiveVote, htype, h]
      rw [party_afterPreCommit, ← n.party_call _ rfl rfl, BFTConsensus.next, h]

/-- An event takes the party of a node through engine calls that it allows. -/
theorem party_handle (n : ValidatorNode F) (event : Event F) :
    ∃ ops, Run event.Step n.party ops (n.handle event).party := by
  cases event with
  | start epoch roundNum =>
    exact ⟨[.startRound epoch roundNum],
      .single ⟨rfl, n.party_call (.startRound epoch roundNum) rfl rfl⟩⟩
  | propose measurements time =>
    rcases n.party_runConsensusPhase measurements time with h | h
    · exact ⟨[], by rw [handle, h]; exact .nil _⟩
    · exact ⟨[.createProposal measurements [] [] time], .single ⟨trivial, h⟩⟩
  | proposal proposal time =>
    rcases n.party_receiveProposal proposal time with ⟨e, -, h⟩ | ⟨hash, -, h⟩
    · exact ⟨[], by rw [handle, h]; exact .nil _⟩
    · exact ⟨[.receiveProposal proposal, .createPreVote hash time],
        .cons ⟨trivial, rfl⟩ (.single ⟨trivial, h⟩)⟩
  | vote vote time =>
    rcases n.party_receiveVote vote time with h | ⟨-, h⟩ | ⟨-, h⟩
    · exact ⟨[], by rw [handle, h]; exact .nil _⟩
    · exact ⟨[.receivePreVote vote, .createPreCommit vote.proposalHash time],
        .cons ⟨⟨time, rfl⟩, rfl⟩ (.single ⟨trivial, h⟩)⟩
    · exact ⟨[.receivePreCommit vote, .tryFinalize vote.proposalHash time],
        .cons ⟨⟨time, rfl⟩, rfl⟩ (.single ⟨trivial, h⟩)⟩

end ValidatorNode

end Qrtb
