import Qrtb.Consensus.ValidatorNode
import Qrtb.Consensus.Wire
import Qrtb.Network.Connections

/-!
# The votes of a networked node (`src/node.py`)

A node makes votes in its epoch loop, when a proposal arrives and when a pre-vote
completes the threshold. The loop and the handler of the node pass theirs to the
P2P layer. The validator inside puts its own into an outbox that nothing reads:
it has no peers here, they are known to the measurements and the engine only.
Every vote is recorded when it is made, and a received one under the id it names.
-/

namespace Qrtb

open PyFloat Transition

def VoteType.message : VoteType → MessageType
  | .preVote => .preVote
  | .preCommit => .preCommit

/-- Where the epoch loop waits: before the consensus phase, for a broadcast and the pause after it,
or, not being the proposer, for the votes of the others. -/
inductive EpochTask (F : Type) where
  | idle
  | measuring
  | proposed (proposal : ConsensusProposal F)
  | preVoted (proposal : ConsensusProposal F)
  | preCommitted (proposal : ConsensusProposal F)
  | waiting

/-- What a node has passed to the broadcast of its P2P layer is kept beside the validator. -/
structure Node (F : Type) where
  validator : ValidatorNode F
  broadcasts : List (MessageType × Bytes) := []
  epochTask : EpochTask F := .idle

namespace Node

variable {F : Type}

def serializeVote (v : ConsensusVote) : Except PyError Bytes := do
  let header ← packQI v.epoch v.round
  let stake ← structPack 8 v.stake
  let timestamp ← structPack 8 v.timestamp
  return [v.voterId, header, v.proposalHash, stake, timestamp].flatten

/-- Every exception makes the reader return nothing. -/
def deserializeVote (data : Bytes) (voteType : VoteType) : Option ConsensusVote := do
  let (epoch, rnd) ← (unpackQI (data.slice 32 44)).toOption
  let stake ← (structUnpack 8 (data.slice 76 84)).toOption
  let timestamp ← (structUnpack 8 (data.slice 84 92)).toOption
  return {
    voterId := data.slice 0 32
    epoch := epoch
    round := rnd
    proposalHash := data.slice 44 76
    voteType := voteType
    stake := stake
    timestamp := timestamp }

def new (validatorId : Bytes) (stake : ℤ) : Node F :=
  { validator := { consensus := .init validatorId stake } }

def engine (n : Node F) : BFTConsensus F := n.validator.consensus

def withEngine (c : BFTConsensus F) (n : Node F) : Node F :=
  { n with validator := { n.validator with consensus := c } }

def broadcast (type : MessageType) (payload : Bytes) (n : Node F) : Node F :=
  { n with broadcasts := n.broadcasts ++ [(type, payload)] }

/-- A vote that cannot be packed is not passed on. -/
def broadcastVote (vote : ConsensusVote) (n : Node F) : Except PyError Unit × Node F :=
  match serializeVote vote with
  | .error e => (.error e, n)
  | .ok payload => (.ok (), n.broadcast vote.voteType.message payload)

/-- Connected peers that the validator does not know are registered. -/
def syncPeersFromP2p (peers : List (Bytes × ℤ)) (n : Node F) : Node F :=
  n.withEngine ((peers.filter fun p => p.1 ∉ n.validator.peers).foldl
    (fun c p => c.registerValidator p.1 p.2) n.engine)

/-- The start of an epoch; the loop runs one at a time. -/
def startEpoch (epoch : ℤ) (peers : List (Bytes × ℤ)) (n : Node F) : Node F :=
  match n.epochTask with
  | .idle =>
    { n with
      validator := { n.validator with
        state := .active
        consensus := n.engine.startRound epoch 0 }
      epochTask := .measuring }.syncPeersFromP2p peers
  | _ => n

variable [PyFloat F]

/-- The first part of the consensus phase, up to the broadcast of an own proposal. -/
def proposeOrWait (measurements : MeasurementGraph F) (time : F) (n : Node F) : Node F :=
  match n.engine.amIProposer with
  | .error _ => { n with epochTask := .idle }
  | .ok false => { n with epochTask := .waiting }
  | .ok true =>
    match n.engine.createProposal measurements [] [] time with
    | (.error _, c) => { n.withEngine c with epochTask := .idle }
    | (.ok proposal, c) =>
      let n := { n with validator := { n.validator with
        consensus := c
        blocksProposed := n.validator.blocksProposed + 1 } }
      match serializeProposal proposal with
      | .error _ => { n with epochTask := .idle }
      | .ok payload => { n.broadcast .proposal payload with epochTask := .proposed proposal }

def selfPreVote (proposal : ConsensusProposal F) (time : F) (n : Node F) : Node F :=
  match proposal.proposalHash with
  | .error _ => { n with epochTask := .idle }
  | .ok hash =>
    let (vote, c) := n.engine.createPreVote hash time
    match (n.withEngine c).broadcastVote vote with
    | (.error _, n) => { n with epochTask := .idle }
    | (.ok (), n) => { n with epochTask := .preVoted proposal }

def tryPreCommit (proposal : ConsensusProposal F) (time : F) (n : Node F) : Node F :=
  match proposal.proposalHash with
  | .error _ => { n with epochTask := .idle }
  | .ok hash =>
    match n.engine.createPreCommit hash time with
    | (none, c) => { n.withEngine c with epochTask := .preCommitted proposal }
    | (some vote, c) =>
      match (n.withEngine c).broadcastVote vote with
      | (.error _, n) => { n with epochTask := .idle }
      | (.ok (), n) => { n with epochTask := .preCommitted proposal }

/-- Finalize the first proposal that can be; an exception ends the epoch. -/
def finalizeFirst (time : F) : List Bytes → Node F → Node F
  | [], n => { n with epochTask := .idle }
  | hash :: hashes, n =>
    match n.engine.tryFinalize hash time with
    | (.error _, c) => { n.withEngine c with epochTask := .idle }
    | (.ok none, c) => finalizeFirst time hashes (n.withEngine c)
    | (.ok (some block), c) =>
      { { n with validator := { n.validator with consensus := c }.onBlockFinalized block }.broadcast
        .block block.blockHash with epochTask := .idle }

/-- The epoch loop goes on to its next wait. -/
def resumeEpoch (measurements : MeasurementGraph F) (time : F) (n : Node F) : Node F :=
  match n.epochTask with
  | .idle => n
  | .measuring => n.proposeOrWait measurements time
  | .proposed proposal => n.selfPreVote proposal time
  | .preVoted proposal => n.tryPreCommit proposal time
  | .preCommitted proposal =>
    match proposal.proposalHash with
    | .error _ => { n with epochTask := .idle }
    | .ok hash => n.finalizeFirst time [hash]
  | .waiting => n.finalizeFirst time n.engine.receivedProposals.keys

/-- The validator and the handler both pre-vote for a valid proposal, each reading the clock. -/
def handleProposal (payload : Bytes) (validatorTime time : F) (n : Node F) : Node F :=
  match deserializeProposal payload with
  | none => n
  | some proposal =>
    match n.validator.receiveProposal proposal validatorTime, proposal.proposalHash with
    | (.ok (), validator), .ok hash =>
      let (vote, c) := validator.consensus.createPreVote hash time
      ({ n with validator := { validator with consensus := c } }.broadcastVote vote).2
    | (_, validator), _ => { n with validator := validator }

def handleVote (voteType : VoteType) (payload : Bytes) (time : F) (n : Node F) : Node F :=
  match deserializeVote payload voteType with
  | none => n
  | some vote => { n with validator := (n.validator.receiveVote vote time).2 }

/-- The messages that reach the voting; the others leave it alone. -/
def handleMessage (type : MessageType) (payload : Bytes) (validatorTime time : F) (n : Node F) :
    Node F :=
  match type with
  | .proposal => n.handleProposal payload validatorTime time
  | .preVote => n.handleVote .preVote payload validatorTime
  | .preCommit => n.handleVote .preCommit payload validatorTime
  | _ => n

/-- `start` is the end of the start of the node, when the seeds are connected. -/
inductive Event (F : Type) where
  | start (peers : List (Bytes × ℤ))
  | startEpoch (epoch : ℤ) (peers : List (Bytes × ℤ))
  | resumeEpoch (measurements : MeasurementGraph F) (time : F)
  | message (type : MessageType) (payload : Bytes) (validatorTime time : F)

def step : Event F → Node F → Node F
  | .start peers, n => n.syncPeersFromP2p peers
  | .startEpoch epoch peers, n => n.startEpoch epoch peers
  | .resumeEpoch measurements time, n => n.resumeEpoch measurements time
  | .message type payload validatorTime time, n => n.handleMessage type payload validatorTime time

end Node

namespace BFTConsensus

variable {F : Type}

/-- A vote stands in one of the two tables. -/
def Records (c : BFTConsensus F) (v : ConsensusVote) : Prop :=
  (∃ hash, v ∈ c.preVotes.getD hash []) ∨ ∃ hash, v ∈ c.preCommits.getD hash []

theorem exists_mem_add (votes : VoteTable) (v w : ConsensusVote) :
    (∃ hash, w ∈ (votes.add v).getD hash []) ↔ (∃ hash, w ∈ votes.getD hash []) ∨ w = v := by
  have hget : ∀ hash, (votes.add v).getD hash [] =
      if hash = v.proposalHash then votes.getD v.proposalHash [] ++ [v]
      else votes.getD hash [] := by
    intro hash
    rw [VoteTable.add, OrderedDict.getD, OrderedDict.get?_set]
    split_ifs <;> rfl
  simp only [hget]
  constructor
  · rintro ⟨hash, hw⟩
    split_ifs at hw with hhash
    · rcases List.mem_append.mp hw with hw | hw
      · exact Or.inl ⟨_, hw⟩
      · exact Or.inr (List.mem_singleton.mp hw)
    · exact Or.inl ⟨hash, hw⟩
  · rintro (⟨hash, hw⟩ | rfl)
    · refine ⟨hash, ?_⟩
      split_ifs with hhash
      · exact List.mem_append_left _ (hhash ▸ hw)
      · exact hw
    · exact ⟨w.proposalHash, by simp⟩

theorem records_createPreVote [PyFloat F] (c : BFTConsensus F) (hash : Bytes) (time : F)
    (v : ConsensusVote) :
    (c.createPreVote hash time).2.Records v ↔ c.Records v ∨ v = c.ownVote .preVote hash time := by
  rw [Records, createPreVote, exists_mem_add, or_right_comm]
  rfl

theorem records_createPreCommit [PyFloat F] (c : BFTConsensus F) (hash : Bytes) (time : F)
    (v : ConsensusVote) :
    (c.createPreCommit hash time).2.Records v ↔ c.Records v ∨
      ((c.checkPreVoteThreshold hash).1 = true ∧ v = c.ownVote .preCommit hash time) := by
  rcases c.createPreCommit_cases hash time with ⟨hbelow, h⟩ | ⟨habove, h⟩
  · simp [h, hbelow]
  · rw [h, Records, exists_mem_add, ← or_assoc, habove]
    simp [Records]

theorem records_receivePreVote {c : BFTConsensus F} {vote : ConsensusVote}
    (h : c.Admits .preVote c.preVoteChoices vote) (v : ConsensusVote) :
    (c.receivePreVote vote).2.Records v ↔ c.Records v ∨ v = c.withRegisteredStake vote := by
  rw [receivePreVote_of_admits h, Records, exists_mem_add, or_right_comm]
  rfl

theorem records_receivePreCommit {c : BFTConsensus F} {vote : ConsensusVote}
    (h : c.Admits .preCommit c.preCommitChoices vote) (v : ConsensusVote) :
    (c.receivePreCommit vote).2.Records v ↔ c.Records v ∨ v = c.withRegisteredStake vote := by
  rw [receivePreCommit_of_admits h, Records, exists_mem_add, ← or_assoc]
  rfl

theorem SameVoting.records [PyFloat F] {c c' : BFTConsensus F} (h : SameVoting c c')
    (v : ConsensusVote) : c'.Records v ↔ c.Records v := by
  rw [Records, Records, h.preVotes, h.preCommits]

theorem validatorId_createPreCommit [PyFloat F] (c : BFTConsensus F) (hash : Bytes) (time : F) :
    (c.createPreCommit hash time).2.validatorId = c.validatorId := by
  rcases c.createPreCommit_cases hash time with ⟨-, h⟩ | ⟨-, h⟩
  · rw [h]
  · rw [h]

end BFTConsensus

namespace Node

variable {F : Type}

/-- A vote has been passed to the broadcast, in its packed form. -/
def Sent (n : Node F) (v : ConsensusVote) : Prop :=
  ∃ payload, serializeVote v = .ok payload ∧ (v.voteType.message, payload) ∈ n.broadcasts

/-- Every vote recorded under the id of the node has been passed to the broadcast. -/
def AllSent (n : Node F) : Prop :=
  ∀ v, n.engine.Records v → v.voterId = n.engine.validatorId → n.Sent v

theorem serializeVote_eq_ok {v : ConsensusVote} {data : Bytes} :
    serializeVote v = .ok data ↔ ∃ header stake timestamp, packQI v.epoch v.round = .ok header ∧
      structPack 8 v.stake = .ok stake ∧ structPack 8 v.timestamp = .ok timestamp ∧
        data = v.voterId ++ (header ++ (v.proposalHash ++ (stake ++ timestamp))) := by
  simp only [serializeVote, Except.bind_eq_ok]
  constructor
  · rintro ⟨header, hheader, stake, hstake, timestamp, htimestamp, h⟩
    exact ⟨header, stake, timestamp, hheader, hstake, htimestamp, by
      simpa using (Except.ok.inj h).symm⟩
  · rintro ⟨header, stake, timestamp, hheader, hstake, htimestamp, rfl⟩
    exact ⟨header, hheader, stake, hstake, timestamp, htimestamp, by simp [pure, Except.pure]⟩

variable {n n' : Node F} {v vote : ConsensusVote}

theorem sent_congr (h : n'.broadcasts = n.broadcasts) (v : ConsensusVote) :
    n'.Sent v ↔ n.Sent v := by
  rw [Sent, Sent, h]

theorem Sent.mono (h : n.Sent v) (hsub : n.broadcasts ⊆ n'.broadcasts) : n'.Sent v := by
  obtain ⟨payload, hpayload, hmem⟩ := h
  exact ⟨payload, hpayload, hsub hmem⟩

theorem broadcastVote_cases (vote : ConsensusVote) (n : Node F) :
    ((∃ e, serializeVote vote = .error e) ∧ (n.broadcastVote vote).2.broadcasts = n.broadcasts) ∨
    ∃ payload, serializeVote vote = .ok payload ∧ (n.broadcastVote vote).2.broadcasts =
      n.broadcasts ++ [(vote.voteType.message, payload)] := by
  rw [broadcastVote]
  cases h : serializeVote vote with
  | error e => exact Or.inl ⟨⟨e, rfl⟩, rfl⟩
  | ok payload => exact Or.inr ⟨payload, rfl, rfl⟩

theorem broadcasts_broadcastVote_congr (h : n'.broadcasts = n.broadcasts)
    (vote : ConsensusVote) :
    (n'.broadcastVote vote).2.broadcasts = (n.broadcastVote vote).2.broadcasts := by
  unfold broadcastVote
  cases serializeVote vote with
  | error e => exact h
  | ok payload => simp only [broadcast, h]

theorem engine_broadcastVote (vote : ConsensusVote) (n : Node F) :
    (n.broadcastVote vote).2.engine = n.engine := by
  unfold broadcastVote
  cases serializeVote vote with
  | error e => rfl
  | ok payload => rfl

theorem broadcastVote_withEngine (c : BFTConsensus F) (vote : ConsensusVote) (n : Node F) :
    ((n.withEngine c).broadcastVote vote).2.engine = c ∧
      ((n.withEngine c).broadcastVote vote).2.broadcasts = (n.broadcastVote vote).2.broadcasts :=
  ⟨engine_broadcastVote vote (n.withEngine c),
    @broadcasts_broadcastVote_congr F n (n.withEngine c) rfl vote⟩

theorem subset_broadcastVote (vote : ConsensusVote) (n : Node F) :
    n.broadcasts ⊆ (n.broadcastVote vote).2.broadcasts := by
  rcases n.broadcastVote_cases vote with ⟨-, h⟩ | ⟨payload, -, h⟩
  · rw [h]
    exact List.Subset.refl _
  · rw [h]
    exact List.subset_append_left _ _

/-- A vote is sent after a broadcast if it was before, or if it is packed like the broadcast one. -/
theorem sent_broadcastVote_iff (hsent : n'.broadcasts = (n.broadcastVote vote).2.broadcasts)
    (htype : v.voteType = vote.voteType) :
    n'.Sent v ↔ n.Sent v ∨ ∃ payload, serializeVote v = .ok payload ∧
      serializeVote vote = .ok payload := by
  rcases n.broadcastVote_cases vote with ⟨⟨e, he⟩, h⟩ | ⟨payload, hpayload, h⟩
  · simp [Sent, hsent, h, he]
  · simp only [Sent, hsent, h, hpayload, List.mem_append, List.mem_singleton, Prod.mk.injEq, htype,
      true_and, Except.ok.injEq]
    constructor
    · rintro ⟨data, hdata, hmem | rfl⟩
      · exact Or.inl ⟨data, hdata, hmem⟩
      · exact Or.inr ⟨data, hdata, rfl⟩
    · rintro (⟨data, hdata, hmem⟩ | ⟨data, hdata, rfl⟩)
      · exact ⟨data, hdata, Or.inl hmem⟩
      · exact ⟨payload, hdata, Or.inr rfl⟩

theorem sent_self_iff (hsent : n'.broadcasts = (n.broadcastVote vote).2.broadcasts) :
    n'.Sent vote ↔ (serializeVote vote).Returns := by
  rw [sent_broadcastVote_iff hsent rfl]
  constructor
  · rintro (⟨payload, hpayload, -⟩ | ⟨payload, hpayload, -⟩)
    · exact ⟨payload, hpayload⟩
    · exact ⟨payload, hpayload⟩
  · rintro ⟨payload, hpayload⟩
    exact Or.inr ⟨payload, hpayload, hpayload⟩

theorem allSent_iff (h : n.AllSent) {P : ConsensusVote → Prop}
    (hid : n'.engine.validatorId = n.engine.validatorId)
    (hrecords : ∀ v, n'.engine.Records v ↔ n.engine.Records v ∨ P v)
    (hsub : n.broadcasts ⊆ n'.broadcasts) :
    n'.AllSent ↔ ∀ v, P v → v.voterId = n.engine.validatorId → n'.Sent v := by
  constructor
  · intro hall v hv hown
    exact hall v ((hrecords v).mpr (Or.inr hv)) (hown.trans hid.symm)
  · intro hnew v hv hown
    rw [hid] at hown
    rcases (hrecords v).mp hv with hv | hv
    · exact (h v hv hown).mono hsub
    · exact hnew v hv hown

/-- A step that records no vote and takes back no broadcast. -/
structure Quiet (n n' : Node F) : Prop where
  id : n'.engine.validatorId = n.engine.validatorId
  records : ∀ v, n'.engine.Records v ↔ n.engine.Records v
  broadcasts : n.broadcasts ⊆ n'.broadcasts

theorem Quiet.refl (n : Node F) : Quiet n n := ⟨rfl, fun _ => Iff.rfl, List.Subset.refl _⟩

theorem Quiet.trans {n'' : Node F} (h : Quiet n n') (h' : Quiet n' n'') : Quiet n n'' :=
  ⟨h'.id.trans h.id, fun v => (h'.records v).trans (h.records v),
    List.Subset.trans h.broadcasts h'.broadcasts⟩

theorem Quiet.allSent (h : Quiet n n') (hall : n.AllSent) : n'.AllSent :=
  (allSent_iff hall (P := fun _ => False) h.id (fun v => by rw [h.records v, or_false])
    h.broadcasts).mpr fun _ hv => hv.elim

theorem allSent_new (validatorId : Bytes) (stake : ℤ) :
    (new validatorId stake : Node F).AllSent := by
  rintro v (⟨hash, hv⟩ | ⟨hash, hv⟩)
  · cases hv
  · cases hv

theorem syncPeersFromP2p_quiet (peers : List (Bytes × ℤ)) (n : Node F) :
    Quiet n (n.syncPeersFromP2p peers) := by
  have hfold : ∀ (ps : List (Bytes × ℤ)) (c : BFTConsensus F),
      (ps.foldl (fun c p => c.registerValidator p.1 p.2) c).validatorId = c.validatorId ∧
        ∀ v, (ps.foldl (fun c p => c.registerValidator p.1 p.2) c).Records v ↔ c.Records v := by
    intro ps
    induction ps with
    | nil => exact fun c => ⟨rfl, fun _ => Iff.rfl⟩
    | cons p ps ih => exact fun c => ih (c.registerValidator p.1 p.2)
  obtain ⟨hid, hrecords⟩ := hfold (peers.filter fun p => p.1 ∉ n.validator.peers) n.engine
  exact ⟨hid, hrecords, List.Subset.refl _⟩

theorem allSent_startEpoch (h : n.AllSent) (epoch : ℤ) (peers : List (Bytes × ℤ)) :
    (n.startEpoch epoch peers).AllSent := by
  rw [startEpoch]
  split
  next =>
    apply (syncPeersFromP2p_quiet peers _).allSent
    rintro v (⟨hash, hv⟩ | ⟨hash, hv⟩)
    · cases hv
    · cases hv
  next => exact h

variable [PyFloat F]

/-- Two own votes for one proposal are packed alike only within one millisecond. -/
theorem milliseconds_of_serializeVote {c : BFTConsensus F} {type : VoteType} {hash payload : Bytes}
    {time time' : F} (h : serializeVote (c.ownVote type hash time) = .ok payload)
    (h' : serializeVote (c.ownVote type hash time') = .ok payload) :
    milliseconds time = milliseconds time' := by
  obtain ⟨header, stake, timestamp, hheader, hstake, htime, rfl⟩ := serializeVote_eq_ok.mp h
  obtain ⟨header', stake', timestamp', hheader', hstake', htime', heq⟩ :=
    serializeVote_eq_ok.mp h'
  obtain rfl := Except.ok.inj (hheader.symm.trans hheader')
  obtain rfl := Except.ok.inj (hstake.symm.trans hstake')
  have htail : timestamp = timestamp' := by
    simpa [BFTConsensus.ownVote] using heq
  obtain ⟨⟨hlow, hhigh⟩, rfl⟩ := structPack_eq_ok.mp htime
  obtain ⟨⟨hlow', hhigh'⟩, rfl⟩ := structPack_eq_ok.mp htime'
  have hms := Bytes.bigEndian_inj (by omega) (by omega) htail
  simp only [BFTConsensus.ownVote] at hms hlow hlow'
  omega

theorem serializeVote_congr {c : BFTConsensus F} {type : VoteType} {hash : Bytes} {time time' : F}
    (h : milliseconds time = milliseconds time') :
    serializeVote (c.ownVote type hash time) = serializeVote (c.ownVote type hash time') := by
  rw [BFTConsensus.ownVote, BFTConsensus.ownVote, h]

/-- The steps that leave no vote unsent: the votes of the loop and of the handler can be packed,
and the ones nobody passes on were sent before. These are the pre-vote of the validator for a
proposal, unless it equals the one of the handler, its pre-commit when a pre-vote completes the
threshold, and received votes in the name of the node. -/
def KeepsSent : Event F → Node F → Prop
  | .resumeEpoch _ time, n =>
    match n.epochTask with
    | .proposed proposal => ∀ hash, proposal.proposalHash = .ok hash →
        (serializeVote (n.engine.ownVote .preVote hash time)).Returns
    | .preVoted proposal => ∀ hash, proposal.proposalHash = .ok hash →
        (n.engine.checkPreVoteThreshold hash).1 = true →
          (serializeVote (n.engine.ownVote .preCommit hash time)).Returns
    | _ => True
  | .message .proposal payload validatorTime time, n => ∀ proposal hash,
      deserializeProposal payload = some proposal → n.engine.checkProposal proposal = .ok hash →
        (serializeVote (n.engine.ownVote .preVote hash time)).Returns ∧
          (milliseconds validatorTime = milliseconds time ∨
            n.Sent (n.engine.ownVote .preVote hash validatorTime))
  | .message .preVote payload time _, n => ∀ vote, deserializeVote payload .preVote = some vote →
      n.engine.Admits .preVote n.engine.preVoteChoices vote →
        (vote.voterId = n.engine.validatorId → n.Sent (n.engine.withRegisteredStake vote)) ∧
          (((n.engine.receivePreVote vote).2.checkPreVoteThreshold vote.proposalHash).1 = true →
            n.Sent (n.engine.ownVote .preCommit vote.proposalHash time))
  | .message .preCommit payload _ _, n => ∀ vote, deserializeVote payload .preCommit = some vote →
      n.engine.Admits .preCommit n.engine.preCommitChoices vote →
        vote.voterId = n.engine.validatorId → n.Sent (n.engine.withRegisteredStake vote)
  | _, _ => True

variable {n : Node F}

/-- The own vote is recorded and broadcast, whatever becomes of the epoch. -/
theorem selfPreVote_spec {proposal : ConsensusProposal F} {hash : Bytes} (time : F)
    (hhash : proposal.proposalHash = .ok hash) :
    (n.selfPreVote proposal time).engine = (n.engine.createPreVote hash time).2 ∧
      (n.selfPreVote proposal time).broadcasts =
        (n.broadcastVote (n.engine.ownVote .preVote hash time)).2.broadcasts := by
  have hvoted := n.broadcastVote_withEngine (n.engine.createPreVote hash time).2
    (n.engine.ownVote .preVote hash time)
  rw [selfPreVote, hhash]
  dsimp only [BFTConsensus.createPreVote] at hvoted ⊢
  split
  next m h => rwa [h] at hvoted
  next m h => rwa [h] at hvoted

theorem tryPreCommit_spec {proposal : ConsensusProposal F} {hash : Bytes} (time : F)
    (hhash : proposal.proposalHash = .ok hash) :
    (n.tryPreCommit proposal time).engine = (n.engine.createPreCommit hash time).2 ∧
      (n.tryPreCommit proposal time).broadcasts =
        if (n.engine.checkPreVoteThreshold hash).1 = true then
          (n.broadcastVote (n.engine.ownVote .preCommit hash time)).2.broadcasts
        else n.broadcasts := by
  rw [tryPreCommit, hhash]
  rcases n.engine.createPreCommit_cases hash time with ⟨hbelow, h⟩ | ⟨habove, h⟩
  · simp only [h, hbelow]
    exact ⟨rfl, rfl⟩
  · have hvoted := n.broadcastVote_withEngine (n.engine.createPreCommit hash time).2
      (n.engine.ownVote .preCommit hash time)
    rw [h] at hvoted
    simp only [h, habove, if_true]
    split
    next m hm => rwa [hm] at hvoted
    next m hm => rwa [hm] at hvoted

/-- A valid proposal is pre-voted twice, and the second vote is broadcast. -/
theorem handleProposal_spec {payload hash : Bytes} {proposal : ConsensusProposal F}
    (validatorTime time : F) (hproposal : deserializeProposal payload = some proposal)
    (hcheck : n.engine.checkProposal proposal = .ok hash) :
    (n.handleProposal payload validatorTime time).engine =
        (((n.engine.receiveProposal proposal).2.createPreVote hash validatorTime).2.createPreVote
          hash time).2 ∧
      (n.handleProposal payload validatorTime time).broadcasts =
        (n.broadcastVote (n.engine.ownVote .preVote hash time)).2.broadcasts := by
  have hhash := BFTConsensus.proposalHash_of_checkProposal hcheck
  have hreceive := BFTConsensus.receiveProposal_of_checkProposal hcheck
  have hvalidator : n.validator.receiveProposal proposal validatorTime = (.ok (),
      { n.validator with consensus := ({ n.engine with
          receivedProposals := n.engine.receivedProposals.set hash proposal }.createPreVote hash
            validatorTime).2 }.castVote (n.engine.ownVote .preVote hash validatorTime)) := by
    rw [ValidatorNode.receiveProposal]
    rw [engine] at hreceive
    rw [hreceive, hhash]
    rfl
  rw [handleProposal, hproposal]
  dsimp only
  rw [hvalidator, hhash, hreceive]
  dsimp only
  refine ⟨engine_broadcastVote _ _, ?_⟩
  apply broadcasts_broadcastVote_congr
  rfl

theorem handleProposal_of_rejected {payload : Bytes} (validatorTime time : F)
    (h : ∀ proposal hash, deserializeProposal payload = some proposal →
      n.engine.checkProposal proposal ≠ .ok hash) :
    n.handleProposal payload validatorTime time = n := by
  rw [handleProposal]
  cases hproposal : deserializeProposal (F := F) payload with
  | none => rfl
  | some proposal =>
    rcases n.engine.receiveProposal_cases proposal with ⟨e, hreceive⟩ | ⟨hash, hcheck, -⟩
    · have hvalidator : n.validator.receiveProposal proposal validatorTime =
          (.error e, n.validator) := by
        rw [ValidatorNode.receiveProposal]
        rw [engine] at hreceive
        rw [hreceive]
      dsimp only
      rw [hvalidator]
    · exact absurd hcheck (h proposal hash hproposal)

/-- An admitted pre-vote is recorded, and the pre-commit it may complete goes to the outbox. -/
theorem handleVote_preVote_spec {payload : Bytes} {vote : ConsensusVote} (time : F)
    (hvote : deserializeVote payload .preVote = some vote)
    (hadmits : n.engine.Admits .preVote n.engine.preVoteChoices vote) :
    (n.handleVote .preVote payload time).engine =
        ((n.engine.receivePreVote vote).2.createPreCommit vote.proposalHash time).2 ∧
      (n.handleVote .preVote payload time).broadcasts = n.broadcasts := by
  have hreceive : n.validator.consensus.receivePreVote vote =
      (.ok (), (n.engine.receivePreVote vote).2) := by
    change n.engine.receivePreVote vote = _
    rw [BFTConsensus.receivePreVote_of_admits hadmits]
  rw [handleVote, hvote]
  refine ⟨?_, rfl⟩
  have hparty := congrArg Party.engine (ValidatorNode.party_afterPreVote vote.proposalHash time
    { n.validator with consensus := (n.engine.receivePreVote vote).2 })
  have hresult : n.validator.receiveVote vote time = (.ok (),
      { n.validator with consensus := (n.engine.receivePreVote vote).2 }.afterPreVote
        vote.proposalHash time) := by
    simp only [ValidatorNode.receiveVote, hadmits.type, hreceive]
  dsimp only [engine]
  rw [hresult]
  exact hparty

theorem handleVote_preCommit_spec {payload : Bytes} {vote : ConsensusVote} (time : F)
    (hvote : deserializeVote payload .preCommit = some vote)
    (hadmits : n.engine.Admits .preCommit n.engine.preCommitChoices vote) :
    (n.handleVote .preCommit payload time).engine =
        ((n.engine.receivePreCommit vote).2.tryFinalize vote.proposalHash time).2 ∧
      (n.handleVote .preCommit payload time).broadcasts = n.broadcasts := by
  have hreceive : n.validator.consensus.receivePreCommit vote =
      (.ok (), (n.engine.receivePreCommit vote).2) := by
    change n.engine.receivePreCommit vote = _
    rw [BFTConsensus.receivePreCommit_of_admits hadmits]
  rw [handleVote, hvote]
  refine ⟨?_, rfl⟩
  have hparty := congrArg Party.engine (ValidatorNode.party_afterPreCommit vote.proposalHash time
    { n.validator with consensus := (n.engine.receivePreCommit vote).2 })
  have hresult : n.validator.receiveVote vote time =
      { n.validator with consensus := (n.engine.receivePreCommit vote).2 }.afterPreCommit
        vote.proposalHash time := by
    simp only [ValidatorNode.receiveVote, hadmits.type, hreceive]
  dsimp only [engine]
  rw [hresult]
  exact hparty

theorem handleVote_of_refused {voteType : VoteType} {payload : Bytes} (time : F)
    (h : ∀ vote, deserializeVote payload voteType = some vote →
      (n.validator.receiveVote vote time).2 = n.validator) :
    n.handleVote voteType payload time = n := by
  rw [handleVote]
  cases hvote : deserializeVote payload voteType with
  | none => rfl
  | some vote =>
    dsimp only
    rw [h vote hvote]

theorem deserializeVote_type {voteType : VoteType} {payload : Bytes} {vote : ConsensusVote}
    (h : deserializeVote payload voteType = some vote) : vote.voteType = voteType := by
  simp only [deserializeVote, Option.bind_eq_bind, Option.bind_eq_some_iff] at h
  obtain ⟨_, -, _, -, _, -, h⟩ := h
  rw [← Option.some.inj h]

theorem receiveVote_of_refused {vote : ConsensusVote} (time : F)
    (hpre : vote.voteType = .preVote → ¬ n.engine.Admits .preVote n.engine.preVoteChoices vote)
    (hcommit : vote.voteType = .preCommit →
      ¬ n.engine.Admits .preCommit n.engine.preCommitChoices vote) :
    (n.validator.receiveVote vote time).2 = n.validator := by
  rw [ValidatorNode.receiveVote]
  cases htype : vote.voteType with
  | preVote =>
    rcases n.engine.receivePreVote_cases vote with ⟨e, h⟩ | ⟨hadmits, -⟩
    · rw [engine] at h
      dsimp only
      rw [h]
    · exact absurd hadmits (hpre htype)
  | preCommit =>
    rcases n.engine.receivePreCommit_cases vote with ⟨e, h⟩ | ⟨hadmits, -⟩
    · rw [engine] at h
      dsimp only
      rw [h]
    · exact absurd hadmits (hcommit htype)

/-- Calls that leave the voting alone are quiet, whatever else is broadcast. -/
theorem quiet_of_sameVoting (h : BFTConsensus.SameVoting n.engine n'.engine)
    (hsub : n.broadcasts ⊆ n'.broadcasts) : Quiet n n' :=
  ⟨h.validatorId, h.records, hsub⟩

theorem finalizeFirst_quiet (time : F) (hashes : List Bytes) (n : Node F) :
    Quiet n (n.finalizeFirst time hashes) := by
  induction hashes generalizing n with
  | nil => exact quiet_of_sameVoting (.refl _) (List.Subset.refl _)
  | cons hash hashes ih =>
    have hsame := n.engine.sameVoting_tryFinalize hash time
    rw [finalizeFirst]
    split
    next e c h =>
      rw [h] at hsame
      exact quiet_of_sameVoting hsame (List.Subset.refl _)
    next c h =>
      rw [h] at hsame
      have hfirst : Quiet n (n.withEngine c) := quiet_of_sameVoting hsame (List.Subset.refl _)
      exact hfirst.trans (ih (n.withEngine c))
    next block c h =>
      rw [h] at hsame
      exact quiet_of_sameVoting hsame (List.subset_append_left _ _)

theorem proposeOrWait_quiet (measurements : MeasurementGraph F) (time : F) (n : Node F) :
    Quiet n (n.proposeOrWait measurements time) := by
  have hsame := n.engine.sameVoting_createProposal measurements [] [] time
  rw [proposeOrWait]
  split
  next => exact quiet_of_sameVoting (.refl _) (List.Subset.refl _)
  next => exact quiet_of_sameVoting (.refl _) (List.Subset.refl _)
  next =>
    split
    next e c h =>
      rw [h] at hsame
      exact quiet_of_sameVoting hsame (List.Subset.refl _)
    next proposal c h =>
      rw [h] at hsame
      dsimp only
      split
      next => exact quiet_of_sameVoting hsame (List.Subset.refl _)
      next => exact quiet_of_sameVoting hsame (List.subset_append_left _ _)

theorem handleProposal_allSent_iff (h : n.AllSent) (payload : Bytes) (validatorTime time : F) :
    (n.handleProposal payload validatorTime time).AllSent ↔
      KeepsSent (.message .proposal payload validatorTime time) n := by
  rw [KeepsSent]
  by_cases hvalid : ∃ proposal hash, deserializeProposal payload = some proposal ∧
      n.engine.checkProposal proposal = .ok hash
  · obtain ⟨proposal, hash, hproposal, hcheck⟩ := hvalid
    obtain ⟨hengine, hbroadcasts⟩ := handleProposal_spec validatorTime time hproposal hcheck
    have hreceive := BFTConsensus.receiveProposal_of_checkProposal hcheck
    have hrecords : ∀ v, (n.handleProposal payload validatorTime time).engine.Records v ↔
        n.engine.Records v ∨ (v = n.engine.ownVote .preVote hash validatorTime ∨
          v = n.engine.ownVote .preVote hash time) := by
      intro v
      rw [hengine, BFTConsensus.records_createPreVote, BFTConsensus.records_createPreVote, hreceive,
        or_assoc]
      rfl
    have hid : (n.handleProposal payload validatorTime time).engine.validatorId =
        n.engine.validatorId := by
      rw [hengine, hreceive]
      rfl
    rw [allSent_iff h hid hrecords (by rw [hbroadcasts]; exact subset_broadcastVote _ n)]
    have hfirst := @sent_broadcastVote_iff F n _ (n.engine.ownVote .preVote hash validatorTime) _
      hbroadcasts rfl
    have hsecond := sent_self_iff hbroadcasts
    constructor
    · intro hnew proposal' hash' hproposal' hcheck'
      obtain rfl := Option.some.inj (hproposal.symm.trans hproposal')
      obtain rfl := Except.ok.inj (hcheck.symm.trans hcheck')
      refine ⟨hsecond.mp (hnew _ (Or.inr rfl) rfl), ?_⟩
      rcases hfirst.mp (hnew _ (Or.inl rfl) rfl) with hsent | ⟨data, hdata, hdata'⟩
      · exact Or.inr hsent
      · exact Or.inl (milliseconds_of_serializeVote hdata hdata')
    · intro hkeeps v hv _
      obtain ⟨hreturns, hsame⟩ := hkeeps proposal hash hproposal hcheck
      rcases hv with rfl | rfl
      · rw [hfirst]
        rcases hsame with hsame | hsent
        · obtain ⟨data, hdata⟩ := hreturns
          exact Or.inr ⟨data, by rwa [serializeVote_congr hsame], hdata⟩
        · exact Or.inl hsent
      · exact hsecond.mpr hreturns
  · have hnone : ∀ proposal hash, deserializeProposal payload = some proposal →
        n.engine.checkProposal proposal ≠ .ok hash :=
      fun proposal hash hp hc => hvalid ⟨proposal, hash, hp, hc⟩
    rw [handleProposal_of_rejected validatorTime time hnone]
    exact iff_of_true h fun proposal hash hp hc => absurd hc (hnone proposal hash hp)

theorem handlePreVote_allSent_iff (h : n.AllSent) (payload : Bytes) (time time' : F) :
    (n.handleVote .preVote payload time).AllSent ↔
      KeepsSent (.message .preVote payload time time') n := by
  rw [KeepsSent]
  by_cases hvalid : ∃ vote, deserializeVote payload .preVote = some vote ∧
      n.engine.Admits .preVote n.engine.preVoteChoices vote
  · obtain ⟨vote, hvote, hadmits⟩ := hvalid
    obtain ⟨hengine, hbroadcasts⟩ := handleVote_preVote_spec time hvote hadmits
    have hframe : (n.engine.receivePreVote vote).2.validatorId = n.engine.validatorId ∧
        (n.engine.receivePreVote vote).2.ownVote .preCommit vote.proposalHash time =
          n.engine.ownVote .preCommit vote.proposalHash time := by
      rw [BFTConsensus.receivePreVote_of_admits hadmits]
      exact ⟨rfl, rfl⟩
    have hrecords : ∀ v, (n.handleVote .preVote payload time).engine.Records v ↔
        n.engine.Records v ∨ (v = n.engine.withRegisteredStake vote ∨
          ((n.engine.receivePreVote vote).2.checkPreVoteThreshold vote.proposalHash).1 = true ∧
            v = n.engine.ownVote .preCommit vote.proposalHash time) := by
      intro v
      rw [hengine, BFTConsensus.records_createPreCommit,
        BFTConsensus.records_receivePreVote hadmits, hframe.2, or_assoc]
    have hid : (n.handleVote .preVote payload time).engine.validatorId = n.engine.validatorId := by
      rw [hengine, BFTConsensus.validatorId_createPreCommit, hframe.1]
    rw [allSent_iff h hid hrecords (by rw [hbroadcasts]; exact List.Subset.refl _)]
    simp only [sent_congr hbroadcasts]
    constructor
    · intro hnew vote' hvote' _
      obtain rfl := Option.some.inj (hvote.symm.trans hvote')
      exact ⟨fun hown => hnew _ (Or.inl rfl) hown,
        fun hthreshold => hnew _ (Or.inr ⟨hthreshold, rfl⟩) rfl⟩
    · intro hkeeps v hv hown
      obtain ⟨hforged, hcommit⟩ := hkeeps vote hvote hadmits
      rcases hv with rfl | ⟨hthreshold, rfl⟩
      · exact hforged hown
      · exact hcommit hthreshold
  · have hrefused : ∀ vote, deserializeVote payload .preVote = some vote →
        ¬ n.engine.Admits .preVote n.engine.preVoteChoices vote :=
      fun vote hv ha => hvalid ⟨vote, hv, ha⟩
    rw [handleVote_of_refused time fun vote hv => receiveVote_of_refused time
      (fun _ => hrefused vote hv)
      (fun htype => by rw [deserializeVote_type hv] at htype; cases htype)]
    exact iff_of_true h fun vote hv ha => absurd ha (hrefused vote hv)

theorem handlePreCommit_allSent_iff (h : n.AllSent) (payload : Bytes) (time time' : F) :
    (n.handleVote .preCommit payload time).AllSent ↔
      KeepsSent (.message .preCommit payload time time') n := by
  rw [KeepsSent]
  by_cases hvalid : ∃ vote, deserializeVote payload .preCommit = some vote ∧
      n.engine.Admits .preCommit n.engine.preCommitChoices vote
  · obtain ⟨vote, hvote, hadmits⟩ := hvalid
    obtain ⟨hengine, hbroadcasts⟩ := handleVote_preCommit_spec time hvote hadmits
    have hsame := (n.engine.receivePreCommit vote).2.sameVoting_tryFinalize vote.proposalHash time
    have hrecords : ∀ v, (n.handleVote .preCommit payload time).engine.Records v ↔
        n.engine.Records v ∨ v = n.engine.withRegisteredStake vote := by
      intro v
      rw [hengine, hsame.records, BFTConsensus.records_receivePreCommit hadmits]
    have hid : (n.handleVote .preCommit payload time).engine.validatorId =
        n.engine.validatorId := by
      rw [hengine, hsame.validatorId, BFTConsensus.receivePreCommit_of_admits hadmits]
    rw [allSent_iff h hid hrecords (by rw [hbroadcasts]; exact List.Subset.refl _)]
    simp only [sent_congr hbroadcasts]
    constructor
    · intro hnew vote' hvote' _ hown
      obtain rfl := Option.some.inj (hvote.symm.trans hvote')
      exact hnew _ rfl hown
    · rintro hkeeps v rfl hown
      exact hkeeps vote hvote hadmits hown
  · have hrefused : ∀ vote, deserializeVote payload .preCommit = some vote →
        ¬ n.engine.Admits .preCommit n.engine.preCommitChoices vote :=
      fun vote hv ha => hvalid ⟨vote, hv, ha⟩
    rw [handleVote_of_refused time fun vote hv => receiveVote_of_refused time
      (fun htype => by rw [deserializeVote_type hv] at htype; cases htype)
      (fun _ => hrefused vote hv)]
    exact iff_of_true h fun vote hv ha => absurd ha (hrefused vote hv)

theorem selfPreVote_allSent_iff (h : n.AllSent) (proposal : ConsensusProposal F) (time : F) :
    (n.selfPreVote proposal time).AllSent ↔ ∀ hash, proposal.proposalHash = .ok hash →
      (serializeVote (n.engine.ownVote .preVote hash time)).Returns := by
  cases hhash : proposal.proposalHash with
  | error e =>
    rw [selfPreVote, hhash]
    exact iff_of_true h nofun
  | ok hash =>
    obtain ⟨hengine, hbroadcasts⟩ := @selfPreVote_spec F _ n proposal hash time hhash
    rw [allSent_iff h (by rw [hengine]; rfl) (fun v => by
      rw [hengine, BFTConsensus.records_createPreVote])
      (by rw [hbroadcasts]; exact subset_broadcastVote _ n)]
    have hsent := sent_self_iff hbroadcasts
    constructor
    · rintro hnew _ ⟨⟩
      exact hsent.mp (hnew _ rfl rfl)
    · rintro hkeeps v rfl -
      exact hsent.mpr (hkeeps hash rfl)

theorem tryPreCommit_allSent_iff (h : n.AllSent) (proposal : ConsensusProposal F) (time : F) :
    (n.tryPreCommit proposal time).AllSent ↔ ∀ hash, proposal.proposalHash = .ok hash →
      (n.engine.checkPreVoteThreshold hash).1 = true →
        (serializeVote (n.engine.ownVote .preCommit hash time)).Returns := by
  cases hhash : proposal.proposalHash with
  | error e =>
    rw [tryPreCommit, hhash]
    exact iff_of_true h nofun
  | ok hash =>
    obtain ⟨hengine, hbroadcasts⟩ := @tryPreCommit_spec F _ n proposal hash time hhash
    have hid : (n.tryPreCommit proposal time).engine.validatorId = n.engine.validatorId := by
      rw [hengine, BFTConsensus.validatorId_createPreCommit]
    have hrecords : ∀ v, (n.tryPreCommit proposal time).engine.Records v ↔ n.engine.Records v ∨
        ((n.engine.checkPreVoteThreshold hash).1 = true ∧
          v = n.engine.ownVote .preCommit hash time) := by
      intro v
      rw [hengine, BFTConsensus.records_createPreCommit]
    by_cases hthreshold : (n.engine.checkPreVoteThreshold hash).1 = true
    · rw [if_pos hthreshold] at hbroadcasts
      rw [allSent_iff h hid hrecords (by rw [hbroadcasts]; exact subset_broadcastVote _ n)]
      have hsent := sent_self_iff hbroadcasts
      constructor
      · rintro hnew _ ⟨⟩ -
        exact hsent.mp (hnew _ ⟨hthreshold, rfl⟩ rfl)
      · rintro hkeeps v ⟨-, rfl⟩ -
        exact hsent.mpr (hkeeps hash rfl hthreshold)
    · rw [if_neg hthreshold] at hbroadcasts
      rw [allSent_iff h hid hrecords (by rw [hbroadcasts]; exact List.Subset.refl _)]
      constructor
      · rintro - _ ⟨⟩ habove
        exact absurd habove hthreshold
      · rintro - v ⟨habove, -⟩ -
        exact absurd habove hthreshold

theorem allSent_step_iff (h : n.AllSent) (e : Event F) : (step e n).AllSent ↔ KeepsSent e n := by
  cases e with
  | start peers => exact iff_of_true ((syncPeersFromP2p_quiet peers n).allSent h) trivial
  | startEpoch epoch peers => exact iff_of_true (allSent_startEpoch h epoch peers) trivial
  | resumeEpoch measurements time =>
    rw [step, resumeEpoch, KeepsSent]
    cases n.epochTask with
    | idle => exact iff_of_true h trivial
    | measuring => exact iff_of_true ((proposeOrWait_quiet measurements time n).allSent h) trivial
    | proposed proposal => exact selfPreVote_allSent_iff h proposal time
    | preVoted proposal => exact tryPreCommit_allSent_iff h proposal time
    | preCommitted proposal =>
      dsimp only
      split
      next => exact iff_of_true h trivial
      next hash _ => exact iff_of_true ((finalizeFirst_quiet time [hash] n).allSent h) trivial
    | waiting => exact iff_of_true ((finalizeFirst_quiet time _ n).allSent h) trivial
  | message type payload validatorTime time =>
    change (n.handleMessage type payload validatorTime time).AllSent ↔ _
    cases type with
    | proposal => exact handleProposal_allSent_iff h payload validatorTime time
    | preVote => exact handlePreVote_allSent_iff h payload validatorTime time
    | preCommit => exact handlePreCommit_allSent_iff h payload validatorTime time
    | _ => exact iff_of_true h trivial

/-- Every own vote is sent in every state of a run exactly when every step leaves none unsent. -/
theorem allSent_runs_iff (validatorId : Bytes) (stake : ℤ) (events : List (Event F)) :
    (∀ pre post, events = pre ++ post → (runs step pre (new validatorId stake)).AllSent) ↔
      ∀ pre e post, events = pre ++ e :: post →
        KeepsSent e (runs step pre (new validatorId stake)) :=
  throughout_iff step (I := AllSent) (J := fun _ => True) (K := KeepsSent) (fun _ _ _ => trivial)
    (fun e _ _ h => allSent_step_iff h e) trivial (allSent_new validatorId stake) events

/-- The ids of a node and of a peer that holds nearly all the stake. -/
def ownId : Bytes := List.replicate 32 1
def peerId : Bytes := List.replicate 32 2

/-- A pre-vote of the peer as it comes over the wire. -/
def peerPreVote : Bytes :=
  [peerId, List.replicate 12 0, List.replicate 32 7, List.replicate 7 0 ++ [99],
    List.replicate 8 0].flatten

/-- The node after an epoch has begun and the pre-vote of the peer has arrived. -/
def votedFor : Node ℚ :=
  runs step [.startEpoch 0 [(peerId, 99)], .message .preVote peerPreVote 0 0] (new ownId 1)

/-- The pre-vote of the peer completes the threshold; the pre-commit it leads to is recorded and
goes nowhere. -/
theorem preCommit_not_sent : ∃ v, v.voteType = .preCommit ∧
    v.voterId = votedFor.engine.validatorId ∧ votedFor.engine.Records v ∧ ¬ votedFor.AllSent := by
  let v : ConsensusVote :=
    { voterId := ownId, epoch := 0, round := 0, proposalHash := List.replicate 32 7,
      voteType := .preCommit, stake := 1, timestamp := 0 }
  have hown : v.voterId = votedFor.engine.validatorId := by decide +kernel
  have hrecords : votedFor.engine.Records v :=
    Or.inr ⟨List.replicate 32 7, by decide +kernel⟩
  have hnone : votedFor.broadcasts = [] := by decide +kernel
  refine ⟨v, rfl, hown, hrecords, fun hall => ?_⟩
  obtain ⟨payload, -, hmem⟩ := hall v hrecords hown
  rw [hnone] at hmem
  cases hmem

end Node

end Qrtb
