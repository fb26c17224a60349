import Qrtb.Simulation.Registry
import Qrtb.Consensus.Proposer
import Qrtb.Lib.Binary64

/-!
# One engine in a voting round of the network

All engines hold one registry and start the round afresh. The selected validator
proposes and everybody else accepts; every engine then records its own votes and
those it is handed, none of which it rejects. With all votes recorded the supporting
stake is the total one.
-/

namespace Qrtb.Testnet

open PyFloat BFTConsensus

/-- All of a positive stake passes the threshold. -/
def FullQuorum (F : Type) [PyFloat F] : Prop :=
  ∀ total : ℤ, 0 < total → le (BFT_THRESHOLD : F) (divInt total total) = true

theorem fullQuorum_double : FullQuorum Float.Model := by
  intro total htotal
  have hone : (divInt total total : Float.Model) = Binary64.ofRat 1 :=
    Binary64.ofFraction_self htotal
  rw [hone]
  decide +kernel

variable {F : Type} {registry : OrderedDict Bytes ℤ} {epoch : ℤ} {hash vid : Bytes}

/-- A vote of a registered validator in the round. -/
structure Cast (registry : OrderedDict Bytes ℤ) (epoch : ℤ) (hash : Bytes) (voteType : VoteType)
    (voter : Bytes) (vote : ConsensusVote) : Prop where
  voterId : vote.voterId = voter
  known : registry.contains voter = true
  epoch : vote.epoch = epoch
  proposalHash : vote.proposalHash = hash
  voteType : vote.voteType = voteType

/-- The votes of some validators are in the table, and no choice is for another proposal. -/
structure Heard (hash : Bytes) (voters : List Bytes) (votes : VoteTable)
    (choices : OrderedDict Bytes Bytes) : Prop where
  voters : ∀ v ∈ voters, v ∈ votes.voters hash
  choices : ∀ v choice, choices.get? v = some choice → choice = hash

/-- An engine at the start of the round. -/
structure Ready (registry : OrderedDict Bytes ℤ) (epoch : ℤ) (vid : Bytes) (c : BFTConsensus F) :
    Prop where
  engine : EngineOf registry vid c
  epoch : c.currentEpoch = epoch
  round : c.currentRound = 0
  preVotes : ∀ hash, Heard hash [] c.preVotes c.preVoteChoices
  preCommits : ∀ hash, Heard hash [] c.preCommits c.preCommitChoices

/-- An engine that has the proposal and the votes of some validators. -/
structure Voting (registry : OrderedDict Bytes ℤ) (epoch : ℤ) (hash : Bytes)
    (preVoters preCommitters : List Bytes) (vid : Bytes) (c : BFTConsensus F) : Prop where
  engine : EngineOf registry vid c
  epoch : c.currentEpoch = epoch
  round : c.currentRound = 0
  proposal : ∃ proposal, c.receivedProposals.get? hash = some proposal ∧
    proposal.proposalHash = .ok hash
  preVotes : Heard hash preVoters c.preVotes c.preVoteChoices
  preCommits : Heard hash preCommitters c.preCommits c.preCommitChoices

theorem heard_empty (hash : Bytes) : Heard hash [] ∅ ∅ := ⟨nofun, nofun⟩

theorem Heard.add {voters : List Bytes} {votes : VoteTable} {choices : OrderedDict Bytes Bytes}
    (h : Heard hash voters votes choices) (vote : ConsensusVote) (hvote : vote.proposalHash = hash) :
    Heard hash (voters ++ [vote.voterId]) (votes.add vote) choices := by
  refine ⟨?_, h.choices⟩
  intro v hv
  rcases List.mem_append.mp hv with hv | hv
  · exact VoteTable.voters_subset_add votes vote hash (h.voters v hv)
  · refine VoteTable.mem_voters.mpr ⟨vote, VoteTable.mem_getD_add.mpr ?_, ?_⟩
    · exact Or.inr ⟨hvote.symm, rfl⟩
    · exact (List.mem_singleton.mp hv).symm

theorem Heard.choose {voters : List Bytes} {votes : VoteTable} {choices : OrderedDict Bytes Bytes}
    (h : Heard hash voters votes choices) (voter : Bytes) :
    Heard hash voters votes (choices.set voter hash) := by
  refine ⟨h.voters, ?_⟩
  intro v choice hv
  rcases OrderedDict.get?_set_eq_some.mp hv with ⟨-, rfl⟩ | ⟨-, hv⟩
  · rfl
  · exact h.choices v choice hv

theorem Heard.subset {voters voters' : List Bytes} {votes : VoteTable}
    {choices : OrderedDict Bytes Bytes} (h : Heard hash voters votes choices)
    (hsub : ∀ v ∈ voters', v ∈ voters) : Heard hash voters' votes choices :=
  ⟨fun v hv => h.voters v (hsub v hv), h.choices⟩

/-- The selected validator of the registry is the proposer of every engine over it. -/
theorem EngineOf.holds {c : BFTConsensus F} (hc : EngineOf registry vid c)
    (hepoch : c.currentEpoch = epoch) (hround : c.currentRound = 0) : c.Holds registry epoch 0 :=
  ⟨hc.validators, hc.totalStake, hepoch, hround⟩

theorem EngineOf.contains {c : BFTConsensus F} (hc : EngineOf registry vid c) (v : Bytes) :
    c.validators.contains v = registry.contains v := by
  rw [OrderedDict.contains, OrderedDict.contains, hc.validators]

/-- The validator the sample of the epoch falls to. -/
def Selected (registry : OrderedDict Bytes ℤ) (epoch : ℤ) (vid : Bytes) : Prop :=
  scanStake ((selectionValue epoch 0).fmod registry.values.sum) 0 (sortedValidators registry) =
    some vid

/-- A proposal of the round with its hash. -/
structure Proposed (epoch : ℤ) (proposer hash : Bytes) (p : ConsensusProposal F) : Prop where
  proposerId : p.proposerId = proposer
  epoch : p.epoch = epoch
  round : p.round = 0
  proposalHash : p.proposalHash = .ok hash

theorem Ready.file {c c' : BFTConsensus F} (hc : Ready registry epoch vid c)
    (hengine : EngineOf registry vid c') (hepoch : c'.currentEpoch = c.currentEpoch)
    (hround : c'.currentRound = c.currentRound) {p : ConsensusProposal F}
    (hfiled : c'.receivedProposals.get? hash = some p) (hhash : p.proposalHash = .ok hash)
    (hpreVotes : Heard hash [] c'.preVotes c'.preVoteChoices)
    (hpreCommits : Heard hash [] c'.preCommits c'.preCommitChoices) :
    Voting registry epoch hash [] [] vid c' :=
  ⟨hengine, hepoch.trans hc.epoch, hround.trans hc.round, ⟨p, hfiled, hhash⟩, hpreVotes, hpreCommits⟩

section

variable {proposer : Bytes} {c : BFTConsensus F}

theorem Ready.selectedProposer (hc : Ready registry epoch vid c) (htotal : 0 < registry.values.sum)
    (hepoch : 0 ≤ epoch ∧ epoch < 256 ^ 8) (hselected : Selected registry epoch proposer) :
    c.selectedProposer = .ok (some proposer) := by
  have hround : 0 ≤ (0 : ℤ) ∧ (0 : ℤ) < 256 ^ 8 := ⟨le_rfl, by decide⟩
  rw [(hc.engine.holds hc.epoch hc.round).selectedProposer htotal hepoch hround]
  exact congrArg Except.ok hselected

theorem Ready.amIProposer (hc : Ready registry epoch vid c) (htotal : 0 < registry.values.sum)
    (hepoch : 0 ≤ epoch ∧ epoch < 256 ^ 8) (hselected : Selected registry epoch proposer) :
    c.amIProposer = .ok (decide (vid = proposer)) := by
  rw [(hc.engine.holds hc.epoch hc.round).amIProposer htotal
    (hc.selectedProposer htotal hepoch hselected), hc.engine.validatorId]

theorem Ready.receiveProposal (hc : Ready registry epoch vid c) (htotal : 0 < registry.values.sum)
    (hepoch : 0 ≤ epoch ∧ epoch < 256 ^ 8) (hselected : Selected registry epoch proposer)
    (hknown : registry.contains proposer = true) {p : ConsensusProposal F}
    (hp : Proposed epoch proposer hash p) :
    (c.receiveProposal p).1 = .ok () ∧
      Voting registry epoch hash [] [] vid (c.receiveProposal p).2 := by
  have hexpected : c.expectedProposer = .ok (some proposer) :=
    ((hc.engine.holds hc.epoch hc.round).expectedProposer htotal).trans
      (hc.selectedProposer htotal hepoch hselected)
  have hcheck : c.checkProposal p = .ok hash := by
    simp only [checkProposal, Except.bind_eq_ok, Check.rejectIf_eq_ok, Check.lift_eq_ok,
      exists_const, not_not, hexpected, Except.ok.injEq]
    exact ⟨hp.epoch.trans hc.epoch.symm, hp.round.trans hc.round.symm,
      by simpa [hp.proposerId, hc.engine.contains] using hknown, _, rfl, by simp [hp.proposerId],
      hp.proposalHash⟩
  rw [receiveProposal_of_checkProposal hcheck]
  exact ⟨rfl, hc.file (hc.engine.congr rfl rfl rfl) rfl rfl (OrderedDict.get?_set_self ..)
    hp.proposalHash (hc.preVotes hash) (hc.preCommits hash)⟩

variable [PyFloat F]

theorem Ready.createProposal (hc : Ready registry epoch vid c)
    (hepoch : 0 ≤ epoch ∧ epoch < 256 ^ 8) {measurements : MeasurementGraph F}
    (hroot : (measurementRoot measurements).Returns) (time : F) :
    ∃ p hash, (c.createProposal measurements [] [] time).1 = .ok p ∧ Proposed epoch vid hash p ∧
      Voting registry epoch hash [] [] vid (c.createProposal measurements [] [] time).2 := by
  obtain ⟨root, hroot⟩ := hroot
  have hround : 0 ≤ c.currentRound ∧ c.currentRound < 256 ^ 8 := by
    rw [hc.round]
    decide
  have hrange : 0 ≤ c.currentEpoch ∧ c.currentEpoch < 256 ^ 8 := by rwa [hc.epoch]
  have hbytes := (c.proposalOver measurements root [] [] time).hashedBytes_eq_ok.mpr
    ⟨⟨hrange, hround⟩, rfl⟩
  obtain ⟨hash, hhash⟩ : ∃ hash,
      (c.proposalOver measurements root [] [] time).proposalHash = .ok hash :=
    ⟨_, (ConsensusProposal.proposalHash_eq_ok _).mpr ⟨_, hbytes, rfl⟩⟩
  refine ⟨c.proposalOver measurements root [] [] time, hash, ?_⟩
  simp only [BFTConsensus.createProposal, hroot, hhash]
  exact ⟨trivial, ⟨hc.engine.validatorId, hc.epoch, hc.round, hhash⟩,
    hc.file (hc.engine.congr rfl rfl rfl) rfl rfl (OrderedDict.get?_set_self ..) hhash
      (hc.preVotes _) (hc.preCommits _)⟩

end

theorem Cast.admits {voteType : VoteType} {voter : Bytes} {vote : ConsensusVote}
    (hvote : Cast registry epoch hash voteType voter vote) {c : BFTConsensus F}
    (hc : EngineOf registry vid c) (hepoch : c.currentEpoch = epoch)
    {choices : OrderedDict Bytes Bytes}
    (hchoices : ∀ v choice, choices.get? v = some choice → choice = hash) :
    c.Admits voteType choices vote := by
  refine ⟨hvote.epoch.trans hepoch.symm, hvote.voteType, ?_, ?_⟩
  · rw [hvote.voterId, hc.contains]
    exact hvote.known
  · intro choice hchoice
    rw [hvote.proposalHash]
    exact hchoices _ choice hchoice

variable {preVoters preCommitters : List Bytes} {c : BFTConsensus F}

theorem Voting.receivePreVote (hc : Voting registry epoch hash preVoters preCommitters vid c)
    {voter : Bytes} {vote : ConsensusVote} (hvote : Cast registry epoch hash .preVote voter vote) :
    (c.receivePreVote vote).1 = .ok () ∧
      Voting registry epoch hash (preVoters ++ [voter]) preCommitters vid
        (c.receivePreVote vote).2 := by
  rw [receivePreVote_of_admits (hvote.admits hc.engine hc.epoch hc.preVotes.choices)]
  have hvotes := hc.preVotes.add (c.withRegisteredStake vote) hvote.proposalHash
  obtain rfl := hvote.voterId
  refine ⟨rfl, hc.engine.congr rfl rfl rfl, hc.epoch, hc.round, hc.proposal, ?_, hc.preCommits⟩
  rw [hvote.proposalHash]
  exact hvotes.choose _

theorem Voting.receivePreCommit (hc : Voting registry epoch hash preVoters preCommitters vid c)
    {voter : Bytes} {vote : ConsensusVote} (hvote : Cast registry epoch hash .preCommit voter vote) :
    (c.receivePreCommit vote).1 = .ok () ∧
      Voting registry epoch hash preVoters (preCommitters ++ [voter]) vid
        (c.receivePreCommit vote).2 := by
  rw [receivePreCommit_of_admits (hvote.admits hc.engine hc.epoch hc.preCommits.choices)]
  have hvotes := hc.preCommits.add (c.withRegisteredStake vote) hvote.proposalHash
  obtain rfl := hvote.voterId
  refine ⟨rfl, hc.engine.congr rfl rfl rfl, hc.epoch, hc.round, hc.proposal, hc.preVotes, ?_⟩
  rw [hvote.proposalHash]
  exact hvotes.choose _

section

variable [PyFloat F]

theorem Voting.ownVote (hc : Voting registry epoch hash preVoters preCommitters vid c)
    (voteType : VoteType) (time : F) :
    Cast registry epoch hash voteType vid (c.ownVote voteType hash time) :=
  ⟨hc.engine.validatorId, hc.engine.known, hc.epoch, rfl, rfl⟩

theorem Voting.createPreVote (hc : Voting registry epoch hash preVoters preCommitters vid c)
    (time : F) :
    Cast registry epoch hash .preVote vid (c.createPreVote hash time).1 ∧
      Voting registry epoch hash (preVoters ++ [vid]) preCommitters vid
        (c.createPreVote hash time).2 := by
  have hvotes := hc.preVotes.add (c.ownVote .preVote hash time) rfl
  have hvoter := (hc.ownVote .preVote time).voterId
  rw [hvoter] at hvotes
  exact ⟨hc.ownVote .preVote time, hc.engine.congr rfl rfl rfl, hc.epoch, hc.round,
    hc.proposal, hvotes, hc.preCommits⟩

omit [PyFloat F] in
theorem EngineOf.registeredStake (hc : EngineOf registry vid c) {voters : Finset Bytes}
    (hall : ∀ v ∈ registry.keys, v ∈ voters) :
    c.registeredStake voters = registry.values.sum := by
  have hstake : ∀ v, c.validators.getD v 0 = registry.getD v 0 := by
    intro v
    rw [OrderedDict.getD, OrderedDict.getD, hc.validators]
  have hsum := registry.sumBy_id_eq_sum_getD
  rw [OrderedDict.sumBy, List.map_id] at hsum
  rw [BFTConsensus.registeredStake, hsum, Finset.sum_congr rfl fun v _ => hstake v]
  symm
  apply Finset.sum_subset
  · exact fun v hv => hall v (List.mem_toFinset.mp hv)
  · exact fun v _ hv => registry.getD_of_notMem_keys hv 0

theorem EngineOf.checkThreshold (hc : EngineOf registry vid c) (hfull : FullQuorum F)
    (htotal : 0 < registry.values.sum) {votes : VoteTable}
    (hall : ∀ v ∈ registry.keys, v ∈ votes.voters hash) :
    (c.checkThreshold (votes.getD hash [])).1 = true := by
  have hstake : c.votedStake (votes.getD hash []) = registry.values.sum := by
    rw [votedStake_eq_registeredStake]
    exact hc.registeredStake hall
  simp only [BFTConsensus.checkThreshold, hc.totalStake, gt_iff_lt, htotal, if_true, hstake]
  exact hfull _ htotal

theorem Voting.createPreCommit (hc : Voting registry epoch hash preVoters preCommitters vid c)
    (hfull : FullQuorum F) (htotal : 0 < registry.values.sum)
    (hall : ∀ v ∈ registry.keys, v ∈ preVoters) (time : F) :
    (∃ vote, (c.createPreCommit hash time).1 = some vote ∧
        Cast registry epoch hash .preCommit vid vote) ∧
      Voting registry epoch hash preVoters (preCommitters ++ [vid]) vid
        (c.createPreCommit hash time).2 := by
  have hthreshold : (c.checkPreVoteThreshold hash).1 = true :=
    hc.engine.checkThreshold hfull htotal fun v hv => hc.preVotes.voters v (hall v hv)
  rcases c.createPreCommit_cases hash time with ⟨hnot, -⟩ | ⟨-, heq⟩
  · rw [hthreshold] at hnot
    cases hnot
  · have hvote := hc.ownVote .preCommit time
    have hvotes := hc.preCommits.add (c.ownVote .preCommit hash time) rfl
    rw [hvote.voterId] at hvotes
    rw [heq]
    exact ⟨⟨_, rfl, hvote⟩, hc.engine.congr rfl rfl rfl, hc.epoch, hc.round, hc.proposal,
      hc.preVotes, hvotes⟩

/-- With a pre-commit of everybody the block has the total stake behind it, if its numbers fit. -/
theorem Voting.tryFinalize (hc : Voting registry epoch hash preVoters preCommitters vid c)
    (hfull : FullQuorum F) (htotal : 0 < registry.values.sum)
    (hall : ∀ v ∈ registry.keys, v ∈ preCommitters) (time : F) :
    (registry.values.sum < 256 ^ 8 → 0 ≤ milliseconds time ∧ milliseconds time < 256 ^ 8 →
      (c.tryFinalize hash time).1.Returns) ∧
    ∀ block, (c.tryFinalize hash time).1 = .ok block →
      ∃ b, block = some b ∧ b.supportingStake = registry.values.sum := by
  obtain ⟨proposal, hget, hhash⟩ := hc.proposal
  have hvoters : ∀ v ∈ registry.keys, v ∈ c.preCommits.voters hash :=
    fun v hv => hc.preCommits.voters v (hall v hv)
  have hthreshold : (c.checkPreCommitThreshold hash).1 = true :=
    hc.engine.checkThreshold hfull htotal hvoters
  have hstake : (c.blockOver hash proposal time).supportingStake = registry.values.sum :=
    (c.supportingStake_blockOver hash proposal time).trans (hc.engine.registeredStake hvoters)
  have hresult : (c.tryFinalize hash time).1 =
      (c.blockOver hash proposal time).postInit.map some := by
    simp only [BFTConsensus.tryFinalize, hthreshold, hget, Bool.true_eq_false, if_false]
    cases (c.blockOver hash proposal time).postInit <;> rfl
  rw [hresult]
  constructor
  · intro hsum htime
    have hrange : 0 ≤ registry.values.sum ∧ registry.values.sum < 256 ^ 8 := ⟨htotal.le, hsum⟩
    have hbytes := (c.blockOver hash proposal time).hashedBytes_eq_ok.mpr
      ⟨hash, hhash, by rwa [← hc.engine.totalStake] at hrange, by rwa [hstake], htime, rfl⟩
    rw [(ConsensusBlock.postInit_eq_ok _).mpr ⟨_, hbytes, rfl⟩]
    exact ⟨_, rfl⟩
  · intro block hok
    obtain ⟨b, hblock, rfl⟩ := Except.map_eq_ok.mp hok
    obtain ⟨_, -, rfl⟩ := (ConsensusBlock.postInit_eq_ok _).mp hblock
    exact ⟨_, rfl, hstake⟩

end

end Qrtb.Testnet
