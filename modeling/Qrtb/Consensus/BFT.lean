import Qrtb.Consensus.Proposal
import Qrtb.Lib.Transition
import Mathlib.Data.List.Sort

/-!
# The consensus engine (`src/consensus.py`)

One validator's view of the voting: the registry of stakes, the proposals and
votes of the running round and the blocks it has finalized. Votes are counted
with the registered stake of their voter, each voter once. The clock is an
argument wherever the source reads it. A vote is a value here, so recording one
with the registered stake leaves the copy of its sender alone; no count reads the
stake written in a vote.
-/

namespace Qrtb

open Keccak PyFloat Transition

def BFT_THRESHOLD {F : Type} [PyFloat F] : F := literal (67 / 100)

inductive ConsensusPhase where
  | idle
  | propose
  | preVote
  | preCommit
  | commit
  | finalized
  deriving DecidableEq, Repr

/-- Votes by the proposal hash they name. -/
abbrev VoteTable := OrderedDict Bytes (List ConsensusVote)

def VoteTable.add (votes : VoteTable) (v : ConsensusVote) : VoteTable :=
  votes.set v.proposalHash (votes.getD v.proposalHash [] ++ [v])

structure BFTConsensus (F : Type) where
  validatorId : Bytes
  stake : ℤ
  currentEpoch : ℤ := 0
  currentRound : ℤ := 0
  phase : ConsensusPhase := .idle
  currentProposal : Option (ConsensusProposal F) := none
  receivedProposals : OrderedDict Bytes (ConsensusProposal F) := ∅
  preVotes : VoteTable := ∅
  preCommits : VoteTable := ∅
  preVoteChoices : OrderedDict Bytes Bytes := ∅
  preCommitChoices : OrderedDict Bytes Bytes := ∅
  validators : OrderedDict Bytes ℤ := ∅
  totalStake : ℤ := 0
  finalizedBlocks : OrderedDict ℤ (ConsensusBlock F) := ∅

namespace BFTConsensus

variable {F : Type}

def registerValidator (validatorId : Bytes) (stake : ℤ) (c : BFTConsensus F) : BFTConsensus F :=
  let validators := c.validators.set validatorId stake
  { c with validators := validators, totalStake := validators.values.sum }

def init (validatorId : Bytes) (stake : ℤ) : BFTConsensus F :=
  registerValidator validatorId stake { validatorId := validatorId, stake := stake }

def startRound (epoch roundNum : ℤ) (c : BFTConsensus F) : BFTConsensus F :=
  { c with
    currentEpoch := epoch
    currentRound := roundNum
    phase := .propose
    currentProposal := none
    receivedProposals := ∅
    preVotes := ∅
    preCommits := ∅
    preVoteChoices := ∅
    preCommitChoices := ∅ }

/-- The first validator at which the running total passes the target. -/
def scanStake (target : ℤ) : ℤ → List (Bytes × ℤ) → Option Bytes
  | _, [] => none
  | cumulative, (vid, stake) :: rest =>
    if cumulative + stake > target then some vid else scanStake target (cumulative + stake) rest

/-- The stake-weighted choice from epoch and round over the sorted registry. -/
def selectedProposer (c : BFTConsensus F) : Except PyError (Option Bytes) := do
  let seed := sha3_256 (← concat [.bytes (ascii ['p', 'r', 'o', 'p', 'o', 's', 'e', 'r']),
    .int c.currentEpoch, .int c.currentRound])
  let selectionValue : ℤ := Bytes.toNat (seed.slice 0 8)
  if c.totalStake = 0 then .error .zeroDivisionError
  else
    let target := selectionValue.fmod c.totalStake
    return scanStake target 0 (c.validators.items.insertionSort fun a b => a.1 ≤ b.1)

def amIProposer (c : BFTConsensus F) : Except PyError Bool :=
  if c.validators.items.isEmpty then .ok true
  else do return (← c.selectedProposer) == some c.validatorId

def expectedProposer (c : BFTConsensus F) : Except PyError (Option Bytes) :=
  if c.validators.items.isEmpty then .ok none else c.selectedProposer

section

variable [PyFloat F]

/-- The hash over the sorted commitments of all measurements. -/
def measurementRoot (measurements : MeasurementGraph F) : Except PyError Bytes := do
  let hashes ← measurements.values.flatten.mapM RTTMeasurement.commitment
  return if hashes.isEmpty then sha3_256 (ascii ['e', 'm', 'p', 't', 'y'])
    else sha3_256 (hashes.insertionSort (· ≤ ·)).flatten

theorem length_measurementRoot {measurements : MeasurementGraph F} {root : Bytes}
    (h : measurementRoot measurements = .ok root) : root.length = 32 := by
  obtain ⟨hashes, -, hroot⟩ := Except.bind_eq_ok.mp h
  obtain rfl := Except.ok.inj hroot
  split_ifs
  · exact length_sha3_256 _
  · exact length_sha3_256 _

/-- The proposal of the running round over a given measurement root. -/
def proposalOver (measurements : MeasurementGraph F) (measurementRoot transactionRoot
    stateRoot : Bytes) (time : F) (c : BFTConsensus F) : ConsensusProposal F :=
  { proposerId := c.validatorId
    epoch := c.currentEpoch
    round := c.currentRound
    measurementRoot := measurementRoot
    detectionResults := DetectionEngine.analyzeAll measurements
    transactionRoot := transactionRoot
    stateRoot := stateRoot
    timestamp := .int (milliseconds time) }

/-- The proposal is made current before its hash is taken, so a hash that raises leaves it. -/
def createProposal (measurements : MeasurementGraph F) (transactionRoot stateRoot : Bytes)
    (time : F) (c : BFTConsensus F) : Except PyError (ConsensusProposal F) × BFTConsensus F :=
  match measurementRoot measurements with
  | .error e => (.error e, c)
  | .ok root =>
    let proposal := c.proposalOver measurements root transactionRoot stateRoot time
    match proposal.proposalHash with
    | .error e => (.error e, { c with currentProposal := some proposal })
    | .ok hash =>
      (.ok proposal,
        { c with
          currentProposal := some proposal
          receivedProposals := c.receivedProposals.set hash proposal
          phase := .preVote })

/-- A proposal enters under its own hash; its maker is the engine, in the running round. -/
theorem createProposal_cases (measurements : MeasurementGraph F) (transactionRoot stateRoot : Bytes)
    (time : F) (c : BFTConsensus F) :
    (∃ e current, c.createProposal measurements transactionRoot stateRoot time =
      (.error e, { c with currentProposal := current })) ∨
    ∃ root hash proposal, measurementRoot measurements = .ok root ∧
      proposal = c.proposalOver measurements root transactionRoot stateRoot time ∧
      proposal.proposalHash = .ok hash ∧
      c.createProposal measurements transactionRoot stateRoot time =
        (.ok proposal,
          { c with
            currentProposal := some proposal
            receivedProposals := c.receivedProposals.set hash proposal
            phase := .preVote }) := by
  unfold createProposal
  cases hroot : measurementRoot measurements with
  | error e => exact Or.inl ⟨e, c.currentProposal, rfl⟩
  | ok root =>
    cases hhash : (c.proposalOver measurements root transactionRoot stateRoot time).proposalHash with
    | error e =>
      refine Or.inl ⟨e, some (c.proposalOver measurements root transactionRoot stateRoot time), ?_⟩
      simp [hhash]
    | ok hash => exact Or.inr ⟨root, hash, _, rfl, rfl, hhash, by simp [hhash]⟩

theorem createProposal_eq_ok {measurements : MeasurementGraph F} {transactionRoot stateRoot : Bytes}
    {time : F} {c : BFTConsensus F} {proposal : ConsensusProposal F} :
    (c.createProposal measurements transactionRoot stateRoot time).1 = .ok proposal ↔
      ∃ root hash, measurementRoot measurements = .ok root ∧
        proposal = c.proposalOver measurements root transactionRoot stateRoot time ∧
        proposal.proposalHash = .ok hash := by
  constructor
  · intro h
    rcases c.createProposal_cases measurements transactionRoot stateRoot time with
      ⟨e, current, heq⟩ | ⟨root, hash, proposal', hroot, hover, hhash, heq⟩
    · rw [heq] at h
      cases h
    · rw [heq] at h
      obtain rfl := Except.ok.inj h
      exact ⟨root, hash, hroot, hover, hhash⟩
  · intro h
    obtain ⟨root, hash, hroot, rfl, hhash⟩ := h
    simp [createProposal, hroot, hhash]

/-- A new engine can propose over any measurements whose root can be computed. -/
theorem createProposal_init (validatorId : Bytes) (stake : ℤ) (measurements : MeasurementGraph F)
    (transactionRoot stateRoot : Bytes) {root : Bytes}
    (hroot : measurementRoot measurements = .ok root) (time : F) :
    ∃ p data, ((init validatorId stake).createProposal measurements transactionRoot stateRoot
        time).1 = .ok p ∧
      p = (init validatorId stake).proposalOver measurements root transactionRoot stateRoot time ∧
      p.hashedBytes = .ok data ∧
      data = validatorId ++ (Bytes.bigEndian 8 0 ++
        (Bytes.bigEndian 8 0 ++ (root ++ (transactionRoot ++ stateRoot)))) := by
  have hdata := (ConsensusProposal.hashedBytes_eq_ok
    ((init validatorId stake).proposalOver measurements root transactionRoot stateRoot time)).mpr
    ⟨by simp [proposalOver, init, registerValidator], rfl⟩
  have hhash := (ConsensusProposal.proposalHash_eq_ok _).mpr ⟨_, hdata, rfl⟩
  exact ⟨_, _, createProposal_eq_ok.mpr ⟨root, _, hroot, rfl, hhash⟩, rfl, hdata, rfl⟩

end

/-- The checks on a received proposal, and its hash. -/
def checkProposal (proposal : ConsensusProposal F) (c : BFTConsensus F) : Check Bytes := do
  Check.rejectIf (proposal.epoch ≠ c.currentEpoch) "wrong epoch"
  Check.rejectIf (proposal.round ≠ c.currentRound) "wrong round"
  Check.rejectIf (c.validators.contains proposal.proposerId = false) "unknown proposer"
  let expected ← Check.lift c.expectedProposer
  Check.rejectIf (expected ≠ none ∧ some proposal.proposerId ≠ expected)
    "proposer not selected for this epoch+round"
  Check.lift proposal.proposalHash

def receiveProposal (proposal : ConsensusProposal F) (c : BFTConsensus F) :
    Check Unit × BFTConsensus F :=
  match c.checkProposal proposal with
  | .error e => (.error e, c)
  | .ok hash =>
    (.ok (), { c with receivedProposals := c.receivedProposals.set hash proposal })

theorem proposalHash_of_checkProposal {proposal : ConsensusProposal F} {c : BFTConsensus F}
    {hash : Bytes} (h : c.checkProposal proposal = .ok hash) : proposal.proposalHash = .ok hash := by
  simp only [checkProposal, Except.bind_eq_ok, Check.lift_eq_ok] at h
  obtain ⟨_, _, _, _, _, _, _, _, _, _, hhash⟩ := h
  exact hhash

theorem receiveProposal_cases (proposal : ConsensusProposal F) (c : BFTConsensus F) :
    (∃ e, c.receiveProposal proposal = (.error e, c)) ∨
    ∃ hash, c.checkProposal proposal = .ok hash ∧ proposal.proposalHash = .ok hash ∧
      c.receiveProposal proposal =
        (.ok (), { c with receivedProposals := c.receivedProposals.set hash proposal }) := by
  unfold receiveProposal
  cases hcheck : c.checkProposal proposal with
  | error e => exact Or.inl ⟨e, rfl⟩
  | ok hash => exact Or.inr ⟨hash, rfl, proposalHash_of_checkProposal hcheck, rfl⟩

theorem receiveProposal_of_checkProposal {proposal : ConsensusProposal F} {c : BFTConsensus F}
    {hash : Bytes} (h : c.checkProposal proposal = .ok hash) :
    c.receiveProposal proposal =
      (.ok (), { c with receivedProposals := c.receivedProposals.set hash proposal }) := by
  rw [receiveProposal, h]

/-- The checks on a received vote, against the choices recorded for its kind. -/
def checkVote (voteType : VoteType) (choices : OrderedDict Bytes Bytes) (equivocation : String)
    (vote : ConsensusVote) (c : BFTConsensus F) : Check Unit := do
  Check.rejectIf (vote.epoch ≠ c.currentEpoch) "wrong epoch"
  Check.rejectIf (vote.voteType ≠ voteType) "wrong vote type"
  Check.rejectIf (c.validators.contains vote.voterId = false) "unknown voter"
  Check.rejectIf ((choices.get? vote.voterId).any (· ≠ vote.proposalHash)) equivocation

/-- A vote as it is recorded, with the registered stake. -/
def withRegisteredStake (vote : ConsensusVote) (c : BFTConsensus F) : ConsensusVote :=
  { vote with stake := c.validators.getD vote.voterId 0 }

def receivePreVote (vote : ConsensusVote) (c : BFTConsensus F) : Check Unit × BFTConsensus F :=
  match c.checkVote .preVote c.preVoteChoices
    "equivocation: voter already pre-voted for different proposal" vote with
  | .error e => (.error e, c)
  | .ok () =>
    (.ok (),
      { c with
        preVoteChoices := c.preVoteChoices.set vote.voterId vote.proposalHash
        preVotes := c.preVotes.add (c.withRegisteredStake vote) })

def receivePreCommit (vote : ConsensusVote) (c : BFTConsensus F) : Check Unit × BFTConsensus F :=
  match c.checkVote .preCommit c.preCommitChoices
    "equivocation: voter already pre-committed for different proposal" vote with
  | .error e => (.error e, c)
  | .ok () =>
    (.ok (),
      { c with
        preCommitChoices := c.preCommitChoices.set vote.voterId vote.proposalHash
        preCommits := c.preCommits.add (c.withRegisteredStake vote) })

/-- What the checks let through: a vote of the epoch by a known voter whose recorded choice, if
there is one, is the same. -/
structure Admits (voteType : VoteType) (choices : OrderedDict Bytes Bytes) (vote : ConsensusVote)
    (c : BFTConsensus F) : Prop where
  epoch : vote.epoch = c.currentEpoch
  type : vote.voteType = voteType
  known : c.validators.contains vote.voterId = true
  choice : ∀ hash, choices.get? vote.voterId = some hash → hash = vote.proposalHash

theorem checkVote_eq_ok {voteType : VoteType} {choices : OrderedDict Bytes Bytes}
    {equivocation : String} {vote : ConsensusVote} {c : BFTConsensus F} :
    c.checkVote voteType choices equivocation vote = .ok () ↔ c.Admits voteType choices vote := by
  simp only [checkVote, Except.bind_eq_ok, Check.rejectIf_eq_ok, exists_const, not_not,
    Bool.not_eq_false]
  constructor
  · intro h
    obtain ⟨hepoch, htype, hknown, hchoice⟩ := h
    refine ⟨hepoch, htype, hknown, ?_⟩
    intro hash hget
    simpa [hget] using hchoice
  · intro h
    refine ⟨h.epoch, h.type, h.known, ?_⟩
    cases hget : choices.get? vote.voterId with
    | none => simp
    | some hash => simp [h.choice hash hget]

theorem receivePreVote_cases (vote : ConsensusVote) (c : BFTConsensus F) :
    (∃ e, c.receivePreVote vote = (.error e, c)) ∨
    c.Admits .preVote c.preVoteChoices vote ∧ c.receivePreVote vote =
      (.ok (),
        { c with
          preVoteChoices := c.preVoteChoices.set vote.voterId vote.proposalHash
          preVotes := c.preVotes.add (c.withRegisteredStake vote) }) := by
  unfold receivePreVote
  split
  next => exact Or.inl ⟨_, rfl⟩
  next hcheck => exact Or.inr ⟨checkVote_eq_ok.mp hcheck, rfl⟩

theorem receivePreCommit_cases (vote : ConsensusVote) (c : BFTConsensus F) :
    (∃ e, c.receivePreCommit vote = (.error e, c)) ∨
    c.Admits .preCommit c.preCommitChoices vote ∧ c.receivePreCommit vote =
      (.ok (),
        { c with
          preCommitChoices := c.preCommitChoices.set vote.voterId vote.proposalHash
          preCommits := c.preCommits.add (c.withRegisteredStake vote) }) := by
  unfold receivePreCommit
  split
  next => exact Or.inl ⟨_, rfl⟩
  next hcheck => exact Or.inr ⟨checkVote_eq_ok.mp hcheck, rfl⟩

theorem receivePreVote_of_admits {vote : ConsensusVote} {c : BFTConsensus F}
    (h : c.Admits .preVote c.preVoteChoices vote) :
    c.receivePreVote vote =
      (.ok (),
        { c with
          preVoteChoices := c.preVoteChoices.set vote.voterId vote.proposalHash
          preVotes := c.preVotes.add (c.withRegisteredStake vote) }) := by
  rw [receivePreVote, checkVote_eq_ok.mpr h]

theorem receivePreCommit_of_admits {vote : ConsensusVote} {c : BFTConsensus F}
    (h : c.Admits .preCommit c.preCommitChoices vote) :
    c.receivePreCommit vote =
      (.ok (),
        { c with
          preCommitChoices := c.preCommitChoices.set vote.voterId vote.proposalHash
          preCommits := c.preCommits.add (c.withRegisteredStake vote) }) := by
  rw [receivePreCommit, checkVote_eq_ok.mpr h]

theorem receivePreVote_of_not_admits {vote : ConsensusVote} {c : BFTConsensus F}
    (h : ¬ c.Admits .preVote c.preVoteChoices vote) : (c.receivePreVote vote).2 = c := by
  rcases c.receivePreVote_cases vote with ⟨e, he⟩ | ⟨hadmits, -⟩
  · rw [he]
  · exact absurd hadmits h

theorem receivePreCommit_of_not_admits {vote : ConsensusVote} {c : BFTConsensus F}
    (h : ¬ c.Admits .preCommit c.preCommitChoices vote) : (c.receivePreCommit vote).2 = c := by
  rcases c.receivePreCommit_cases vote with ⟨e, he⟩ | ⟨hadmits, -⟩
  · rw [he]
  · exact absurd hadmits h

/-- The registered stake of the voters, each counted once. -/
def votedStake (votes : List ConsensusVote) (c : BFTConsensus F) : ℤ :=
  (OrderedDict.ofKeys (fun v => c.validators.getD v 0) (votes.map ConsensusVote.voterId)).values.sum

/-- The registered stake of a set of validators. -/
def registeredStake (voters : Finset Bytes) (c : BFTConsensus F) : ℤ :=
  ∑ v ∈ voters, c.validators.getD v 0

theorem votedStake_eq_registeredStake (votes : List ConsensusVote) (c : BFTConsensus F) :
    c.votedStake votes = c.registeredStake (votes.map ConsensusVote.voterId).toFinset := by
  have h := OrderedDict.sumBy_ofKeys id (fun v => c.validators.getD v 0)
    (votes.map ConsensusVote.voterId)
  simpa [OrderedDict.sumBy, votedStake, registeredStake] using h

section

variable [PyFloat F]

def checkThreshold (votes : List ConsensusVote) (c : BFTConsensus F) : Bool × F :=
  let ratio := if c.totalStake > 0 then divInt (c.votedStake votes) c.totalStake else literal 0
  (le BFT_THRESHOLD ratio, ratio)

def checkPreVoteThreshold (proposalHash : Bytes) (c : BFTConsensus F) : Bool × F :=
  c.checkThreshold (c.preVotes.getD proposalHash [])

def checkPreCommitThreshold (proposalHash : Bytes) (c : BFTConsensus F) : Bool × F :=
  c.checkThreshold (c.preCommits.getD proposalHash [])

def ownVote (voteType : VoteType) (proposalHash : Bytes) (time : F) (c : BFTConsensus F) :
    ConsensusVote :=
  { voterId := c.validatorId
    epoch := c.currentEpoch
    round := c.currentRound
    proposalHash := proposalHash
    voteType := voteType
    stake := c.stake
    timestamp := milliseconds time }

/-- The own vote is recorded without a check and without a choice. -/
def createPreVote (proposalHash : Bytes) (time : F) (c : BFTConsensus F) :
    ConsensusVote × BFTConsensus F :=
  let vote := c.ownVote .preVote proposalHash time
  (vote, { c with preVotes := c.preVotes.add vote })

def createPreCommit (proposalHash : Bytes) (time : F) (c : BFTConsensus F) :
    Option ConsensusVote × BFTConsensus F :=
  if (c.checkPreVoteThreshold proposalHash).1 then
    let vote := c.ownVote .preCommit proposalHash time
    (some vote, { c with preCommits := c.preCommits.add vote, phase := .preCommit })
  else (none, c)

theorem createPreCommit_cases (proposalHash : Bytes) (time : F) (c : BFTConsensus F) :
    ((c.checkPreVoteThreshold proposalHash).1 = false ∧
      c.createPreCommit proposalHash time = (none, c)) ∨
    (c.checkPreVoteThreshold proposalHash).1 = true ∧
      c.createPreCommit proposalHash time =
        (some (c.ownVote .preCommit proposalHash time),
          { c with
            preCommits := c.preCommits.add (c.ownVote .preCommit proposalHash time)
            phase := .preCommit }) := by
  unfold createPreCommit
  split_ifs with hthreshold
  · exact Or.inr ⟨hthreshold, rfl⟩
  · exact Or.inl ⟨by simpa using hthreshold, rfl⟩

end

/-- The block over a proposal, before its hash is filled in. -/
def blockOver (proposalHash : Bytes) (proposal : ConsensusProposal F) (time : F)
    (c : BFTConsensus F) : ConsensusBlock F :=
  { epoch := c.currentEpoch
    round := c.currentRound
    proposal := proposal
    votes := c.preVotes.getD proposalHash [] ++ c.preCommits.getD proposalHash []
    totalStake := c.totalStake
    supportingStake := c.votedStake (c.preCommits.getD proposalHash [])
    finalizationTime := time }

/-- Who has a recorded pre-commit for a proposal. -/
def supporters (proposalHash : Bytes) (c : BFTConsensus F) : Finset Bytes :=
  ((c.preCommits.getD proposalHash []).map ConsensusVote.voterId).toFinset

theorem supportingStake_blockOver (proposalHash : Bytes) (proposal : ConsensusProposal F) (time : F)
    (c : BFTConsensus F) :
    (c.blockOver proposalHash proposal time).supportingStake =
      c.registeredStake (c.supporters proposalHash) :=
  c.votedStake_eq_registeredStake _

section

variable [PyFloat F]

def tryFinalize (proposalHash : Bytes) (time : F) (c : BFTConsensus F) :
    Except PyError (Option (ConsensusBlock F)) × BFTConsensus F :=
  if (c.checkPreCommitThreshold proposalHash).1 = false then (.ok none, c)
  else
    match c.receivedProposals.get? proposalHash with
    | none => (.ok none, c)
    | some proposal =>
      match (c.blockOver proposalHash proposal time).postInit with
      | .error e => (.error e, c)
      | .ok block =>
        (.ok (some block),
          { c with
            finalizedBlocks := c.finalizedBlocks.set c.currentEpoch block
            phase := .finalized })

theorem tryFinalize_cases (proposalHash : Bytes) (time : F) (c : BFTConsensus F) :
    (∃ r, c.tryFinalize proposalHash time = (r, c) ∧ ∀ block, r ≠ .ok (some block)) ∨
    ∃ proposal block, (c.checkPreCommitThreshold proposalHash).1 = true ∧
      c.receivedProposals.get? proposalHash = some proposal ∧
      (c.blockOver proposalHash proposal time).postInit = .ok block ∧
      c.tryFinalize proposalHash time =
        (.ok (some block),
          { c with
            finalizedBlocks := c.finalizedBlocks.set c.currentEpoch block
            phase := .finalized }) := by
  unfold tryFinalize
  split_ifs with hthreshold
  · exact Or.inl ⟨.ok none, rfl, by simp⟩
  · split
    next => exact Or.inl ⟨.ok none, rfl, by simp⟩
    next proposal hproposal =>
      split
      next e _ => exact Or.inl ⟨.error e, rfl, by simp⟩
      next block hblock =>
        exact Or.inr ⟨proposal, block, by simpa using hthreshold, hproposal, hblock, rfl⟩

theorem tryFinalize_eq_ok_some {proposalHash : Bytes} {time : F} {c : BFTConsensus F}
    {block : ConsensusBlock F}
    (h : (c.tryFinalize proposalHash time).1 = .ok (some block)) :
    ∃ proposal, (c.checkPreCommitThreshold proposalHash).1 = true ∧
      c.receivedProposals.get? proposalHash = some proposal ∧
      (c.blockOver proposalHash proposal time).postInit = .ok block := by
  rcases c.tryFinalize_cases proposalHash time with
    ⟨r, heq, hr⟩ | ⟨proposal, block', hthreshold, hproposal, hblock, heq⟩
  · rw [heq] at h
    exact absurd h (hr block)
  · rw [heq] at h
    obtain rfl := Option.some.inj (Except.ok.inj h)
    exact ⟨proposal, hthreshold, hproposal, hblock⟩

/-- The calls that change an engine. -/
inductive Operation (F : Type) where
  | registerValidator (validatorId : Bytes) (stake : ℤ)
  | startRound (epoch roundNum : ℤ)
  | createProposal (measurements : MeasurementGraph F) (transactionRoot stateRoot : Bytes) (time : F)
  | receiveProposal (proposal : ConsensusProposal F)
  | createPreVote (proposalHash : Bytes) (time : F)
  | receivePreVote (vote : ConsensusVote)
  | createPreCommit (proposalHash : Bytes) (time : F)
  | receivePreCommit (vote : ConsensusVote)
  | tryFinalize (proposalHash : Bytes) (time : F)

/-- The engine after a call, whether it returned or raised. -/
def next (c : BFTConsensus F) : Operation F → BFTConsensus F
  | .registerValidator validatorId stake => c.registerValidator validatorId stake
  | .startRound epoch roundNum => c.startRound epoch roundNum
  | .createProposal measurements transactionRoot stateRoot time =>
    (c.createProposal measurements transactionRoot stateRoot time).2
  | .receiveProposal proposal => (c.receiveProposal proposal).2
  | .createPreVote proposalHash time => (c.createPreVote proposalHash time).2
  | .receivePreVote vote => (c.receivePreVote vote).2
  | .createPreCommit proposalHash time => (c.createPreCommit proposalHash time).2
  | .receivePreCommit vote => (c.receivePreCommit vote).2
  | .tryFinalize proposalHash time => (c.tryFinalize proposalHash time).2

def Step (c : BFTConsensus F) (op : Operation F) (c' : BFTConsensus F) : Prop := c' = c.next op

/-- The state some run of a new engine ends in. -/
def Reachable (c : BFTConsensus F) : Prop :=
  ∃ validatorId stake ops, Run Step (init validatorId stake) ops c

theorem reachable_init (validatorId : Bytes) (stake : ℤ) :
    (init validatorId stake : BFTConsensus F).Reachable :=
  ⟨validatorId, stake, [], .nil _⟩

theorem Reachable.next {c : BFTConsensus F} (h : c.Reachable) (op : Operation F) :
    (c.next op).Reachable := by
  obtain ⟨validatorId, stake, ops, hrun⟩ := h
  exact ⟨validatorId, stake, _, hrun.append (Run.single rfl)⟩

end

/-- The recorded total is the registered stake, and a proposal is filed under its hash. -/
structure Inv (c : BFTConsensus F) : Prop where
  totalStake_eq : c.totalStake = c.validators.sumBy id
  filed : ∀ hash proposal, c.receivedProposals.get? hash = some proposal →
    proposal.proposalHash = .ok hash

theorem Inv.file {c : BFTConsensus F} (hc : c.Inv) {hash : Bytes} {proposal : ConsensusProposal F}
    (h : proposal.proposalHash = .ok hash) :
    ∀ hash' proposal', (c.receivedProposals.set hash proposal).get? hash' = some proposal' →
      proposal'.proposalHash = .ok hash' := by
  exact OrderedDict.forall_get?_set h hc.filed

theorem Inv.registerValidator {c : BFTConsensus F} (hc : c.Inv) (validatorId : Bytes) (stake : ℤ) :
    (c.registerValidator validatorId stake).Inv :=
  ⟨by simp [BFTConsensus.registerValidator, OrderedDict.sumBy], hc.filed⟩

theorem Inv.next [PyFloat F] {c : BFTConsensus F} (hc : c.Inv) (op : Operation F) :
    (c.next op).Inv := by
  cases op with
  | registerValidator validatorId stake => exact hc.registerValidator validatorId stake
  | startRound epoch roundNum => exact ⟨hc.totalStake_eq, fun _ _ h => by cases h⟩
  | createProposal measurements transactionRoot stateRoot time =>
    rcases c.createProposal_cases measurements transactionRoot stateRoot time with
      ⟨e, current, h⟩ | ⟨root, hash, proposal, -, -, hhash, h⟩
    · rw [BFTConsensus.next, h]
      exact ⟨hc.totalStake_eq, hc.filed⟩
    · rw [BFTConsensus.next, h]
      exact ⟨hc.totalStake_eq, hc.file hhash⟩
  | receiveProposal proposal =>
    rcases c.receiveProposal_cases proposal with ⟨e, h⟩ | ⟨hash, -, hhash, h⟩
    · rwa [BFTConsensus.next, h]
    · rw [BFTConsensus.next, h]
      exact ⟨hc.totalStake_eq, hc.file hhash⟩
  | createPreVote proposalHash time => exact ⟨hc.totalStake_eq, hc.filed⟩
  | receivePreVote vote =>
    rcases c.receivePreVote_cases vote with ⟨e, h⟩ | ⟨-, h⟩
    · rwa [BFTConsensus.next, h]
    · rw [BFTConsensus.next, h]
      exact ⟨hc.totalStake_eq, hc.filed⟩
  | createPreCommit proposalHash time =>
    rcases c.createPreCommit_cases proposalHash time with ⟨-, h⟩ | ⟨-, h⟩
    · rwa [BFTConsensus.next, h]
    · rw [BFTConsensus.next, h]
      exact ⟨hc.totalStake_eq, hc.filed⟩
  | receivePreCommit vote =>
    rcases c.receivePreCommit_cases vote with ⟨e, h⟩ | ⟨-, h⟩
    · rwa [BFTConsensus.next, h]
    · rw [BFTConsensus.next, h]
      exact ⟨hc.totalStake_eq, hc.filed⟩
  | tryFinalize proposalHash time =>
    rcases c.tryFinalize_cases proposalHash time with ⟨r, h, -⟩ | ⟨proposal, block, -, -, -, h⟩
    · rwa [BFTConsensus.next, h]
    · rw [BFTConsensus.next, h]
      exact ⟨hc.totalStake_eq, hc.filed⟩

theorem inv_init (validatorId : Bytes) (stake : ℤ) :
    (init validatorId stake : BFTConsensus F).Inv := by
  apply Inv.registerValidator
  exact ⟨rfl, fun _ _ h => by cases h⟩

theorem Reachable.inv [PyFloat F] {c : BFTConsensus F} (h : c.Reachable) : c.Inv := by
  obtain ⟨validatorId, stake, ops, hrun⟩ := h
  apply hrun.invariant (I := Inv) _ (inv_init validatorId stake)
  intro c op c' hc hstep
  rw [hstep]
  exact hc.next op

end BFTConsensus

end Qrtb
