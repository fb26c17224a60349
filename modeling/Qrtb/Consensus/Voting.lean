import Qrtb.Consensus.BFT

/-!
# What one call does to the votes

Every call on an engine either leaves the voting alone or changes it in one of
six ways. Received votes pass a table with one choice for each voter. The own
votes do not, so the table binds every voter but the engine itself.
-/

namespace Qrtb

open PyFloat

namespace VoteTable

theorem getD_add (votes : VoteTable) (v : ConsensusVote) (hash : Bytes) :
    (votes.add v).getD hash [] =
      if hash = v.proposalHash then votes.getD hash [] ++ [v] else votes.getD hash [] := by
  rw [add, OrderedDict.getD, OrderedDict.get?_set]
  split_ifs with h
  · rw [h, Option.getD_some]
  · rfl

theorem mem_getD_add {votes : VoteTable} {u v : ConsensusVote} {hash : Bytes} :
    u ∈ (votes.add v).getD hash [] ↔
      u ∈ votes.getD hash [] ∨ hash = v.proposalHash ∧ u = v := by
  rw [getD_add]
  split_ifs with h
  · simp [h]
  · simp [h]

/-- Who has a vote for a proposal in the table. -/
def voters (votes : VoteTable) (hash : Bytes) : Finset Bytes :=
  ((votes.getD hash []).map ConsensusVote.voterId).toFinset

theorem mem_voters {votes : VoteTable} {hash voter : Bytes} :
    voter ∈ votes.voters hash ↔ ∃ v ∈ votes.getD hash [], v.voterId = voter := by
  simp [voters]

theorem voters_subset_add (votes : VoteTable) (v : ConsensusVote) (hash : Bytes) :
    votes.voters hash ⊆ (votes.add v).voters hash := by
  intro voter h
  obtain ⟨u, hu, rfl⟩ := mem_voters.mp h
  exact mem_voters.mpr ⟨u, mem_getD_add.mpr (Or.inl hu), rfl⟩

end VoteTable

/-- The threshold of 0.67 read as the rational 67/100, and the ratio without rounding. -/
def ThresholdExact (F : Type) [PyFloat F] : Prop :=
  ∀ supporting total : ℤ, 0 < total →
    (le (BFT_THRESHOLD : F) (divInt supporting total) = true ↔ 67 * total ≤ 100 * supporting)

theorem thresholdExact_rat : ThresholdExact ℚ := by
  intro supporting total htotal
  have hpos : (0 : ℚ) < total := by exact_mod_cast htotal
  change decide ((67 : ℚ) / 100 ≤ (supporting : ℚ) / total) = true ↔ _
  rw [decide_eq_true_eq, div_le_div_iff₀ (by norm_num) hpos, mul_comm (supporting : ℚ)]
  norm_cast

namespace BFTConsensus

variable {F : Type}

/-- Two engines alike in everything the voting reads. -/
structure SameVoting (c c' : BFTConsensus F) : Prop where
  validatorId : c'.validatorId = c.validatorId
  validators : c'.validators = c.validators
  totalStake : c'.totalStake = c.totalStake
  currentEpoch : c'.currentEpoch = c.currentEpoch
  preVotes : c'.preVotes = c.preVotes
  preCommits : c'.preCommits = c.preCommits
  preVoteChoices : c'.preVoteChoices = c.preVoteChoices

theorem SameVoting.refl (c : BFTConsensus F) : SameVoting c c :=
  ⟨rfl, rfl, rfl, rfl, rfl, rfl, rfl⟩

/-- The recorded pre-votes of everybody else are for the choice the table holds. -/
def OneChoice (c : BFTConsensus F) : Prop :=
  ∀ hash, ∀ vote ∈ c.preVotes.getD hash [], vote.voterId ≠ c.validatorId →
    c.preVoteChoices.get? vote.voterId = some hash

/-- So the voters of two different proposals have nobody but the engine in common. -/
theorem OneChoice.eq_of_mem_voters {c : BFTConsensus F} (hc : c.OneChoice) {hash hash' : Bytes}
    (hne : hash ≠ hash') :
    ∀ voter ∈ c.preVotes.voters hash, voter ∈ c.preVotes.voters hash' →
      voter = c.validatorId := by
  intro voter hvoter hvoter'
  by_contra hother
  obtain ⟨u, hu, rfl⟩ := VoteTable.mem_voters.mp hvoter
  obtain ⟨v, hv, hid⟩ := VoteTable.mem_voters.mp hvoter'
  have hchoice := hc hash u hu hother
  have hchoice' := hc hash' v hv (by rwa [hid])
  rw [hid] at hchoice'
  exact hne (Option.some.inj (hchoice.symm.trans hchoice'))

variable [PyFloat F]

theorem checkThreshold_iff (hexact : ThresholdExact F) {c : BFTConsensus F}
    (htotal : 0 < c.totalStake) (votes : List ConsensusVote) :
    (c.checkThreshold votes).1 = true ↔
      67 * c.totalStake ≤
        100 * c.registeredStake (votes.map ConsensusVote.voterId).toFinset := by
  rw [← votedStake_eq_registeredStake, ← hexact _ _ htotal]
  simp only [checkThreshold, gt_iff_lt, htotal, if_true]

def created (c : BFTConsensus F) : Operation F → List ConsensusVote
  | .createPreVote proposalHash time => [(c.createPreVote proposalHash time).1]
  | .createPreCommit proposalHash time => (c.createPreCommit proposalHash time).1.toList
  | _ => []

def finalized (c : BFTConsensus F) : Operation F → List (ConsensusBlock F)
  | .tryFinalize proposalHash time =>
    match (c.tryFinalize proposalHash time).1 with
    | .ok (some block) => [block]
    | _ => []
  | _ => []

/-- The ways a call changes the voting. -/
inductive Effect (c : BFTConsensus F) : Operation F → BFTConsensus F → Prop
  | register (validatorId : Bytes) (stake : ℤ) :
      Effect c (.registerValidator validatorId stake) (c.registerValidator validatorId stake)
  | start (epoch roundNum : ℤ) :
      Effect c (.startRound epoch roundNum) (c.startRound epoch roundNum)
  | quiet {op : Operation F} {c' : BFTConsensus F} (same : SameVoting c c')
      (none : c.created op = []) : Effect c op c'
  | ownPreVote (proposalHash : Bytes) (time : F) :
      Effect c (.createPreVote proposalHash time)
        { c with preVotes := c.preVotes.add (c.ownVote .preVote proposalHash time) }
  | preVote (vote : ConsensusVote) (admits : c.Admits .preVote c.preVoteChoices vote) :
      Effect c (.receivePreVote vote)
        { c with
          preVoteChoices := c.preVoteChoices.set vote.voterId vote.proposalHash
          preVotes := c.preVotes.add (c.withRegisteredStake vote) }
  | ownPreCommit (proposalHash : Bytes) (time : F)
      (threshold : (c.checkPreVoteThreshold proposalHash).1 = true) :
      Effect c (.createPreCommit proposalHash time)
        { c with
          preCommits := c.preCommits.add (c.ownVote .preCommit proposalHash time)
          phase := .preCommit }
  | preCommit (vote : ConsensusVote) (admits : c.Admits .preCommit c.preCommitChoices vote) :
      Effect c (.receivePreCommit vote)
        { c with
          preCommitChoices := c.preCommitChoices.set vote.voterId vote.proposalHash
          preCommits := c.preCommits.add (c.withRegisteredStake vote) }

theorem effect_next (c : BFTConsensus F) (op : Operation F) : Effect c op (c.next op) := by
  cases op with
  | registerValidator validatorId stake => exact .register validatorId stake
  | startRound epoch roundNum => exact .start epoch roundNum
  | createProposal measurements transactionRoot stateRoot time =>
    rcases c.createProposal_cases measurements transactionRoot stateRoot time with
      ⟨e, current, h⟩ | ⟨root, hash, proposal, -, -, -, h⟩
    · rw [next, h]
      exact .quiet ⟨rfl, rfl, rfl, rfl, rfl, rfl, rfl⟩ rfl
    · rw [next, h]
      exact .quiet ⟨rfl, rfl, rfl, rfl, rfl, rfl, rfl⟩ rfl
  | receiveProposal proposal =>
    rcases c.receiveProposal_cases proposal with ⟨e, h⟩ | ⟨hash, -, -, h⟩
    · rw [next, h]
      exact .quiet (.refl c) rfl
    · rw [next, h]
      exact .quiet ⟨rfl, rfl, rfl, rfl, rfl, rfl, rfl⟩ rfl
  | createPreVote proposalHash time => exact .ownPreVote proposalHash time
  | receivePreVote vote =>
    rcases c.receivePreVote_cases vote with ⟨e, h⟩ | ⟨hadmits, h⟩
    · rw [next, h]
      exact .quiet (.refl c) rfl
    · rw [next, h]
      exact .preVote vote hadmits
  | createPreCommit proposalHash time =>
    rcases c.createPreCommit_cases proposalHash time with ⟨-, h⟩ | ⟨hthreshold, h⟩
    · rw [next, h]
      exact .quiet (.refl c) (by rw [created, h]; rfl)
    · rw [next, h]
      exact .ownPreCommit proposalHash time hthreshold
  | receivePreCommit vote =>
    rcases c.receivePreCommit_cases vote with ⟨e, h⟩ | ⟨hadmits, h⟩
    · rw [next, h]
      exact .quiet (.refl c) rfl
    · rw [next, h]
      exact .preCommit vote hadmits
  | tryFinalize proposalHash time =>
    rcases c.tryFinalize_cases proposalHash time with ⟨r, h, -⟩ | ⟨proposal, block, -, -, -, h⟩
    · rw [next, h]
      exact .quiet (.refl c) rfl
    · rw [next, h]
      exact .quiet ⟨rfl, rfl, rfl, rfl, rfl, rfl, rfl⟩ rfl

theorem sameVoting_createProposal (c : BFTConsensus F) (measurements : MeasurementGraph F)
    (transactionRoot stateRoot : Bytes) (time : F) :
    SameVoting c (c.createProposal measurements transactionRoot stateRoot time).2 := by
  cases c.effect_next (.createProposal measurements transactionRoot stateRoot time) with
  | quiet same _ => exact same

theorem sameVoting_tryFinalize (c : BFTConsensus F) (proposalHash : Bytes) (time : F) :
    SameVoting c (c.tryFinalize proposalHash time).2 := by
  cases c.effect_next (.tryFinalize proposalHash time) with
  | quiet same _ => exact same

variable {c c' : BFTConsensus F} {op : Operation F}

theorem Effect.registry (h : Effect c op c')
    (hop : ∀ validatorId stake, op ≠ .registerValidator validatorId stake) :
    c'.validatorId = c.validatorId ∧ c'.validators = c.validators ∧
      c'.totalStake = c.totalStake := by
  cases h with
  | register validatorId stake => exact absurd rfl (hop validatorId stake)
  | quiet same _ => exact ⟨same.validatorId, same.validators, same.totalStake⟩
  | start | ownPreVote | preVote | ownPreCommit | preCommit => exact ⟨rfl, rfl, rfl⟩

theorem Effect.grows (h : Effect c op c') (hop : ∀ epoch roundNum, op ≠ .startRound epoch roundNum) :
    c'.currentEpoch = c.currentEpoch ∧
      ∀ hash, c.preVotes.voters hash ⊆ c'.preVotes.voters hash := by
  cases h with
  | start epoch roundNum => exact absurd rfl (hop epoch roundNum)
  | quiet same _ => exact ⟨same.currentEpoch, fun hash => by rw [same.preVotes]⟩
  | ownPreVote | preVote => exact ⟨rfl, fun hash => VoteTable.voters_subset_add _ _ hash⟩
  | register | ownPreCommit | preCommit => exact ⟨rfl, fun hash => subset_rfl⟩

/-- An own vote names the engine and the running epoch; an own pre-commit has the threshold of
pre-votes behind it. -/
theorem Effect.of_mem_created (h : Effect c op c') {vote : ConsensusVote}
    (hvote : vote ∈ c.created op) :
    vote.voterId = c.validatorId ∧ vote.epoch = c.currentEpoch ∧
      (vote.voteType = .preCommit → (c.checkPreVoteThreshold vote.proposalHash).1 = true) := by
  cases h with
  | quiet _ none => simp [none] at hvote
  | ownPreVote proposalHash time =>
    obtain rfl := List.mem_singleton.mp hvote
    refine ⟨rfl, rfl, ?_⟩
    intro htype
    cases htype
  | ownPreCommit proposalHash time threshold =>
    have hcreated : c.created (.createPreCommit proposalHash time) =
        [c.ownVote .preCommit proposalHash time] := by
      simp [created, createPreCommit, threshold]
    rw [hcreated] at hvote
    obtain rfl := List.mem_singleton.mp hvote
    exact ⟨rfl, rfl, fun _ => threshold⟩
  | register | start | preVote | preCommit => simp [created] at hvote

theorem Effect.of_mem_preCommits (h : Effect c op c') {hash : Bytes} {vote : ConsensusVote}
    (hvote : vote ∈ c'.preCommits.getD hash []) :
    (vote ∈ c.preCommits.getD hash [] ∧ c'.currentEpoch = c.currentEpoch) ∨
    (vote ∈ c.created op ∧ vote.voteType = .preCommit ∧ vote.proposalHash = hash) ∨
    ∃ received, op = .receivePreCommit received ∧ received.voterId = vote.voterId ∧
      received.proposalHash = hash ∧ received.epoch = c.currentEpoch ∧
      received.voteType = .preCommit := by
  cases h with
  | start epoch roundNum => cases hvote
  | quiet same _ =>
    rw [same.preCommits] at hvote
    exact Or.inl ⟨hvote, same.currentEpoch⟩
  | ownPreCommit proposalHash time threshold =>
    rcases VoteTable.mem_getD_add.mp hvote with hold | ⟨rfl, rfl⟩
    · exact Or.inl ⟨hold, rfl⟩
    · exact Or.inr (Or.inl ⟨by simp [created, createPreCommit, threshold], rfl, rfl⟩)
  | preCommit received admits =>
    rcases VoteTable.mem_getD_add.mp hvote with hold | ⟨rfl, rfl⟩
    · exact Or.inl ⟨hold, rfl⟩
    · exact Or.inr (Or.inr ⟨received, rfl, rfl, rfl, admits.epoch, admits.type⟩)
  | register | ownPreVote | preVote => exact Or.inl ⟨hvote, rfl⟩

/-- A finalized block is of the running epoch, over a proposal with the threshold of
pre-commits. -/
theorem of_mem_finalized {block : ConsensusBlock F} (hblock : block ∈ c.finalized op) :
    ∃ hash time, op = .tryFinalize hash time ∧ (c.checkPreCommitThreshold hash).1 = true ∧
      c.receivedProposals.get? hash = some block.proposal ∧ block.epoch = c.currentEpoch := by
  cases op with
  | tryFinalize proposalHash time =>
    simp only [finalized] at hblock
    split at hblock
    next b hb =>
      obtain rfl := List.mem_singleton.mp hblock
      obtain ⟨proposal, hthreshold, hproposal, hpost⟩ := tryFinalize_eq_ok_some hb
      obtain ⟨_, -, rfl⟩ := (ConsensusBlock.postInit_eq_ok _).mp hpost
      exact ⟨proposalHash, time, rfl, hthreshold, hproposal, rfl⟩
    next => cases hblock
  | _ => cases hblock

theorem OneChoice.effect (hc : c.OneChoice) (h : Effect c op c') : c'.OneChoice := by
  intro hash vote hvote hother
  cases h with
  | start epoch roundNum => cases hvote
  | quiet same _ =>
    rw [same.preVotes] at hvote
    rw [same.validatorId] at hother
    rw [same.preVoteChoices]
    exact hc hash vote hvote hother
  | ownPreVote proposalHash time =>
    rcases VoteTable.mem_getD_add.mp hvote with hold | ⟨-, rfl⟩
    · exact hc hash vote hold hother
    · exact absurd rfl hother
  | preVote received admits =>
    rcases VoteTable.mem_getD_add.mp hvote with hold | ⟨rfl, rfl⟩
    · have hchoice := hc hash vote hold hother
      rw [OrderedDict.get?_set]
      split_ifs with hsame
      · rw [hsame] at hchoice
        rw [admits.choice hash hchoice]
      · exact hchoice
    · exact OrderedDict.get?_set_self _ _ _
  | register | ownPreCommit | preCommit => exact hc hash vote hvote hother

end BFTConsensus

end Qrtb
