import Qrtb.Consensus.BlockHash
import Qrtb.Consensus.Voting
import Qrtb.Lib.Quorum

/-!
# The stake behind a finalized block

Pre-commits come in any order, repeated, with any stake written in them and from
anybody. Each is filed under the proposal it names and its voter is registered;
the tally counts every voter once, with the registered stake. So the support of a
block is the stake of some registered validators, from the threshold on and up to
the total.
-/

namespace Qrtb

open PyFloat Transition

namespace BFTConsensus

variable {F : Type}

/-- The engine is registered, every recorded pre-commit is filed under the proposal it names and
its voter is registered. -/
structure Attested (c : BFTConsensus F) : Prop where
  own : c.validators.contains c.validatorId = true
  filed : ∀ hash, ∀ vote ∈ c.preCommits.getD hash [],
    vote.proposalHash = hash ∧ vote.voteType = .preCommit ∧
      c.validators.contains vote.voterId = true

theorem contains_registerValidator {c : BFTConsensus F} {v : Bytes}
    (h : c.validators.contains v = true) (validatorId : Bytes) (stake : ℤ) :
    (c.registerValidator validatorId stake).validators.contains v = true := by
  rw [OrderedDict.contains, registerValidator, OrderedDict.get?_set]
  split_ifs
  · rfl
  · exact h

theorem attested_init (validatorId : Bytes) (stake : ℤ) :
    (init validatorId stake : BFTConsensus F).Attested := by
  constructor
  · simp [init, registerValidator, OrderedDict.contains]
  · intro hash vote hvote
    cases hvote

variable [PyFloat F]

theorem Attested.effect {c c' : BFTConsensus F} {op : Operation F} (hc : c.Attested)
    (h : Effect c op c') : c'.Attested := by
  cases h with
  | register validatorId stake =>
    refine ⟨contains_registerValidator hc.own validatorId stake, ?_⟩
    intro hash vote hvote
    obtain ⟨hhash, htype, hknown⟩ := hc.filed hash vote hvote
    exact ⟨hhash, htype, contains_registerValidator hknown validatorId stake⟩
  | start epoch roundNum =>
    refine ⟨hc.own, ?_⟩
    intro hash vote hvote
    cases hvote
  | quiet same none =>
    refine ⟨by rw [same.validators, same.validatorId]; exact hc.own, ?_⟩
    intro hash vote hvote
    rw [same.preCommits] at hvote
    rw [same.validators]
    exact hc.filed hash vote hvote
  | ownPreCommit proposalHash time threshold =>
    refine ⟨hc.own, ?_⟩
    intro hash vote hvote
    rcases VoteTable.mem_getD_add.mp hvote with hold | ⟨rfl, rfl⟩
    · exact hc.filed hash vote hold
    · exact ⟨rfl, rfl, hc.own⟩
  | preCommit received admits =>
    refine ⟨hc.own, ?_⟩
    intro hash vote hvote
    rcases VoteTable.mem_getD_add.mp hvote with hold | ⟨rfl, rfl⟩
    · exact hc.filed hash vote hold
    · exact ⟨rfl, admits.type, admits.known⟩
  | ownPreVote | preVote => exact ⟨hc.own, hc.filed⟩

theorem Reachable.attested {c : BFTConsensus F} (h : c.Reachable) : c.Attested := by
  obtain ⟨validatorId, stake, ops, hrun⟩ := h
  refine hrun.invariant (I := Attested) ?_ (attested_init validatorId stake)
  intro c op c' hc hstep
  rw [hstep]
  exact hc.effect (effect_next c op)

omit [PyFloat F] in
theorem registeredStake_le_total {c : BFTConsensus F} (hc : c.Inv)
    (hstake : ∀ v, 0 ≤ c.validators.getD v 0) (voters : Finset Bytes) :
    c.registeredStake voters ≤ c.totalStake := by
  rw [hc.totalStake_eq, OrderedDict.sumBy_id_eq_sum_getD]
  exact Quorum.sum_le_total hstake (fun v hv => c.validators.getD_of_notMem_keys hv 0) voters

/-- The support of a met threshold, also where the registry has no stake at all. -/
theorem threshold_le_of_met (hexact : ThresholdExact F) {c : BFTConsensus F}
    (hstake : ∀ v, 0 ≤ c.validators.getD v 0) {votes : List ConsensusVote}
    (h : (c.checkThreshold votes).1 = true) :
    67 * c.totalStake ≤
      100 * c.registeredStake (votes.map ConsensusVote.voterId).toFinset := by
  by_cases htotal : 0 < c.totalStake
  · exact (checkThreshold_iff hexact htotal votes).mp h
  · have hsum : 0 ≤ c.registeredStake (votes.map ConsensusVote.voterId).toFinset :=
      Finset.sum_nonneg fun v _ => hstake v
    omega

omit [PyFloat F] in
theorem getD_nonneg {c : BFTConsensus F}
    (hstake : ∀ v stake, c.validators.get? v = some stake → 0 ≤ stake) (v : Bytes) :
    0 ≤ c.validators.getD v 0 := by
  rw [OrderedDict.getD]
  cases hget : c.validators.get? v with
  | none => exact le_rfl
  | some stake => exact hstake v stake hget

/-- A finalized block is supported by registered validators with a recorded pre-commit for it, from
the threshold of 67/100 on and up to the total, which is the sum of the registry. -/
theorem finalized_support (hexact : ThresholdExact F) {c : BFTConsensus F} (hc : c.Reachable)
    (hstake : ∀ v stake, c.validators.get? v = some stake → 0 ≤ stake) {hash : Bytes} {time : F}
    {block : ConsensusBlock F} (hblock : (c.tryFinalize hash time).1 = .ok (some block)) :
    (∃ voters : Finset Bytes,
      (∀ v ∈ voters, c.validators.contains v = true ∧
        ∃ vote ∈ c.preCommits.getD hash [], vote.voterId = v ∧ vote.voteType = .preCommit ∧
          vote.proposalHash = hash) ∧
      block.supportingStake = ∑ v ∈ voters, c.validators.getD v 0) ∧
    block.proposal.proposalHash = .ok hash ∧
    67 * block.totalStake ≤ 100 * block.supportingStake ∧
    block.supportingStake ≤ block.totalStake ∧
    block.totalStake = c.validators.values.sum := by
  obtain ⟨proposal, hthreshold, hproposal, hpost⟩ := tryFinalize_eq_ok_some hblock
  obtain ⟨_, -, rfl⟩ := (ConsensusBlock.postInit_eq_ok _).mp hpost
  have hsupport := c.supportingStake_blockOver hash proposal time
  refine ⟨⟨c.supporters hash, ?_, hsupport⟩, hc.inv.filed hash proposal hproposal, ?_, ?_, ?_⟩
  · intro v hv
    obtain ⟨vote, hvote, rfl⟩ := VoteTable.mem_voters.mp hv
    obtain ⟨hhash, htype, hknown⟩ := hc.attested.filed hash vote hvote
    exact ⟨hknown, vote, hvote, rfl, htype, hhash⟩
  · have hle := threshold_le_of_met hexact (getD_nonneg hstake) hthreshold
    change 67 * c.totalStake ≤ 100 * (c.blockOver hash proposal time).supportingStake
    rwa [hsupport]
  · change (c.blockOver hash proposal time).supportingStake ≤ c.totalStake
    rw [hsupport]
    exact registeredStake_le_total hc.inv (getD_nonneg hstake) _
  · change c.totalStake = _
    rw [hc.inv.totalStake_eq, OrderedDict.sumBy, List.map_id]

theorem finalized_support_proposerNode : ∃ block,
    (proposerNode.tryFinalize roundHash 1).1 = .ok (some block) ∧
      67 * block.totalStake ≤ 100 * block.supportingStake ∧
      block.supportingStake ≤ block.totalStake := by
  have hstake : ∀ v stake, proposerNode.validators.get? v = some stake → 0 ≤ stake := by
    intro v stake hget
    have hmem := (OrderedDict.mem_items_iff _ v stake).mpr hget
    rw [proposerNode_decided.2] at hmem
    simp only [List.mem_cons, Prod.mk.injEq, List.not_mem_nil, or_false] at hmem
    omega
  obtain ⟨block, hblock, -⟩ :=
    proposerNode_decided.1.exists_block reachable_proposerNode milliseconds_one
  obtain ⟨-, -, hthreshold, hle, -⟩ :=
    finalized_support thresholdExact_rat reachable_proposerNode hstake hblock
  exact ⟨block, hblock, hthreshold, hle⟩

end BFTConsensus

end Qrtb
