import Qrtb.Consensus.BlockHash
import Qrtb.Consensus.Reaction
import Qrtb.Lib.Quorum

/-!
# Votes of one node for different proposals

A node keeps the choices of the others and none of its own. It pre-votes for every
valid proposal, so its pre-votes name one hash exactly when the valid proposals it
receives do. Its pre-commits name one hash as long as nothing is counted in its
own name for two, and no stake is negative.
-/

namespace Qrtb

open Keccak PyFloat Transition

/-- A ratio that meets the threshold is more than one half, and the ratio of an empty registry
does not meet it. -/
structure ThresholdMajority (F : Type) [PyFloat F] : Prop where
  zero : le (BFT_THRESHOLD : F) (literal 0) = false
  majority : ∀ supporting total : ℤ, 0 < total →
    le (BFT_THRESHOLD : F) (divInt supporting total) = true → total < 2 * supporting

theorem thresholdMajority_rat : ThresholdMajority ℚ where
  zero := by decide +kernel
  majority supporting total htotal h := by
    have hexact := (thresholdExact_rat supporting total htotal).mp h
    omega

namespace BFTConsensus

variable {F : Type} [PyFloat F]

theorem majority_of_threshold (hF : ThresholdMajority F) {c : BFTConsensus F}
    {votes : List ConsensusVote} (h : (c.checkThreshold votes).1 = true) :
    c.totalStake < 2 * c.registeredStake (votes.map ConsensusVote.voterId).toFinset := by
  rw [← votedStake_eq_registeredStake]
  simp only [checkThreshold] at h
  split_ifs at h with htotal
  · exact hF.majority _ _ htotal h
  · rw [hF.zero] at h
    cases h

omit [PyFloat F] in
theorem not_disjoint_majorities {c : BFTConsensus F} (hc : c.Inv)
    (hstake : ∀ v, 0 ≤ c.validators.getD v 0) {S T : Finset Bytes} (hdisjoint : S ∩ T = ∅)
    (hS : c.totalStake < 2 * c.registeredStake S) (hT : c.totalStake < 2 * c.registeredStake T) :
    False := by
  have hle := Quorum.add_le_total_add_inter (A := S) (B := T) hstake
    (fun v hv => c.validators.getD_of_notMem_keys hv 0)
  rw [← c.validators.sumBy_id_eq_sum_getD, ← hc.totalStake_eq, hdisjoint, Finset.sum_empty] at hle
  unfold registeredStake at hS hT
  omega

end BFTConsensus

namespace ValidatorNode

variable {F : Type} [PyFloat F]

/-- The cast votes of one kind name one hash. -/
def OneHash (voteType : VoteType) (n : ValidatorNode F) : Prop :=
  ∀ u ∈ n.votesCast, ∀ v ∈ n.votesCast, u.voteType = voteType → v.voteType = voteType →
    u.proposalHash = v.proposalHash

/-- A valid proposal does not come in beside an accepted one with another hash. -/
def Unrivalled (n : ValidatorNode F) : Event F → Prop
  | .proposal proposal _ => ∀ hash, n.consensus.checkProposal proposal = .ok hash →
      ∀ hash', (n.consensus.receivedProposals.get? hash').isSome → hash' = hash
  | _ => True

/-- The pre-votes of the node are those for the proposals it has accepted. -/
def PreVoted (n : ValidatorNode F) : Prop :=
  ∀ hash, (n.consensus.receivedProposals.get? hash).isSome ↔
    ∃ v ∈ n.votesCast, v.voteType = .preVote ∧ v.proposalHash = hash

variable {n n' : ValidatorNode F} {event : Event F}

theorem PreVoted.reaction (hn : n.PreVoted) (h : Reaction n event n') : n'.PreVoted := by
  intro hash
  rw [h.accepted_iff, hn hash]
  constructor
  · rintro (⟨v, hv, htype, rfl⟩ | ⟨proposal, time, rfl, hvalid⟩)
    · exact ⟨v, (h.mem_votesCast htype).mpr (Or.inl hv), htype, rfl⟩
    · exact ⟨_, (h.mem_votesCast rfl).mpr (Or.inr ⟨proposal, time, hash, rfl, hvalid, rfl⟩), rfl, rfl⟩
  · rintro ⟨v, hv, htype, rfl⟩
    rcases (h.mem_votesCast htype).mp hv with hv | ⟨proposal, time, hash, rfl, hvalid, rfl⟩
    · exact Or.inl ⟨v, hv, htype, rfl⟩
    · exact Or.inr ⟨proposal, time, rfl, hvalid⟩

/-- One message keeps the pre-votes on one hash exactly when it is not a rival of an accepted
proposal. -/
theorem PreVoted.oneHash_iff (hn : n.PreVoted) (hone : n.OneHash .preVote)
    (h : Reaction n event n') : n'.OneHash .preVote ↔ n.Unrivalled event := by
  constructor
  · intro hone'
    cases event with
    | proposal proposal time =>
      intro hash hvalid hash' hsome
      have hnew : n.consensus.ownVote .preVote hash time ∈ n'.votesCast :=
        (h.mem_votesCast rfl).mpr (Or.inr ⟨proposal, time, hash, rfl, hvalid, rfl⟩)
      obtain ⟨v, hv, htype, rfl⟩ := (hn hash').mp hsome
      exact hone' v ((h.mem_votesCast htype).mpr (Or.inl hv)) _ hnew htype rfl
    | _ => trivial
  · intro hrival u hu v hv hutype hvtype
    have hcase : ∀ w ∈ n'.votesCast, w.voteType = .preVote → w ∉ n.votesCast →
        ∀ w' ∈ n'.votesCast, w'.voteType = .preVote → w'.proposalHash = w.proposalHash := by
      intro w hw hwtype hwnew w' hw' hwtype'
      rcases (h.mem_votesCast hwtype).mp hw with hold | ⟨proposal, time, hash, rfl, hvalid, rfl⟩
      · exact absurd hold hwnew
      · rcases (h.mem_votesCast hwtype').mp hw' with hold |
          ⟨proposal', time', hash', heq, hvalid', rfl⟩
        · exact hrival hash hvalid _ ((hn _).mpr ⟨w', hold, hwtype', rfl⟩)
        · obtain ⟨rfl, rfl⟩ := Event.proposal.inj heq
          exact Except.ok.inj (hvalid'.symm.trans hvalid)
    by_cases hunew : u ∈ n.votesCast
    · by_cases hvnew : v ∈ n.votesCast
      · exact hone u hunew v hvnew hutype hvtype
      · exact hcase v hv hvtype hvnew u hu hutype
    · exact (hcase u hu hutype hunew v hv hvtype).symm

omit [PyFloat F] in
theorem OneHash.of_subset {voteType : VoteType} (h : n'.OneHash voteType)
    (hsub : n.votesCast ⊆ n'.votesCast) : n.OneHash voteType :=
  fun u hu v hv => h u (hsub hu) v (hsub hv)

theorem oneHash_preVote_iff (hn : n.PreVoted) (hone : n.OneHash .preVote)
    {events : List (Event F)} (hevents : ∀ event ∈ events, event.IsMessage) :
    (n.handleAll events).OneHash .preVote ↔
      ∀ earlier event later, events = earlier ++ event :: later →
        (n.handleAll earlier).Unrivalled event := by
  induction events generalizing n with
  | nil =>
    refine iff_of_true hone ?_
    intro earlier event later h
    simp at h
  | cons event events ih =>
    obtain ⟨hevent, hevents'⟩ := List.forall_mem_cons.mp hevents
    have hreaction := n.reaction_handle hevent
    constructor
    · intro hfinal earlier event' later h
      have hone' : (n.handle event).OneHash .preVote :=
        OneHash.of_subset hfinal ((n.handle event).votesCast_subset_handleAll hevents')
      cases earlier with
      | nil =>
        obtain ⟨rfl, -⟩ := List.cons.inj h
        exact (hn.oneHash_iff hone hreaction).mp hone'
      | cons first earlier =>
        obtain ⟨rfl, htail⟩ := List.cons.inj h
        exact (ih (hn.reaction hreaction) hone' hevents').mp hfinal earlier event' later htail
    · intro hall
      have hone' := (hn.oneHash_iff hone hreaction).mpr (hall [] event events rfl)
      apply (ih (hn.reaction hreaction) hone' hevents').mpr
      intro earlier event' later h
      exact hall (event :: earlier) event' later (by rw [h]; rfl)

/-- Nothing is counted in the name of the node for a hash other than that of its own pre-votes. -/
def OwnNameAgrees (n : ValidatorNode F) : Event F → Prop
  | .proposal proposal _ => ∀ hash, n.consensus.checkProposal proposal = .ok hash →
      ∀ hash', n.consensus.preVoteChoices.get? n.consensus.validatorId = some hash' → hash' = hash
  | .vote vote _ => n.consensus.Admits .preVote n.consensus.preVoteChoices vote →
      vote.voterId = n.consensus.validatorId →
      ∀ hash', (n.consensus.receivedProposals.get? hash').isSome → hash' = vote.proposalHash
  | _ => True

/-- A hash counted in the name of the node. -/
def OwnHash (n : ValidatorNode F) (hash : Bytes) : Prop :=
  (n.consensus.receivedProposals.get? hash).isSome ∨
    n.consensus.preVoteChoices.get? n.consensus.validatorId = some hash

structure Guarded (n : ValidatorNode F) : Prop where
  inv : n.consensus.Inv
  nonneg : ∀ v, 0 ≤ n.consensus.validators.getD v 0
  oneChoice : n.consensus.OneChoice
  ownName : ∀ hash, n.consensus.validatorId ∈ n.consensus.preVotes.voters hash → n.OwnHash hash
  agree : ∀ hash hash', n.OwnHash hash → n.OwnHash hash' → hash = hash'
  /-- Every own pre-commit has a majority of pre-votes in the table. -/
  backed : ∀ v ∈ n.votesCast, v.voteType = .preCommit →
    n.consensus.totalStake <
      2 * n.consensus.registeredStake (n.consensus.preVotes.voters v.proposalHash)

omit [PyFloat F] in
theorem Guarded.oneHash (hn : n.Guarded) : n.OneHash .preCommit := by
  intro u hu v hv hutype hvtype
  by_contra hne
  apply BFTConsensus.not_disjoint_majorities hn.inv hn.nonneg _ (hn.backed u hu hutype)
    (hn.backed v hv hvtype)
  rw [Finset.eq_empty_iff_forall_notMem]
  intro voter hvoter
  obtain ⟨hvu, hvv⟩ := Finset.mem_inter.mp hvoter
  obtain rfl := hn.oneChoice.eq_of_mem_voters hne voter hvu hvv
  exact hne (hn.agree _ _ (hn.ownName _ hvu) (hn.ownName _ hvv))

theorem engine_handle (n : ValidatorNode F) (event : Event F) :
    ((n.handle event).consensus.validatorId = n.consensus.validatorId ∧
      (n.handle event).consensus.validators = n.consensus.validators ∧
      (n.handle event).consensus.totalStake = n.consensus.totalStake) ∧
    (n.consensus.Inv → (n.handle event).consensus.Inv) ∧
    (n.consensus.OneChoice → (n.handle event).consensus.OneChoice) := by
  obtain ⟨ops, hrun⟩ := n.party_handle event
  refine ⟨?_, ?_, ?_⟩
  · refine hrun.invariant (I := fun p => p.engine.validatorId = n.consensus.validatorId ∧
      p.engine.validators = n.consensus.validators ∧
      p.engine.totalStake = n.consensus.totalStake) ?_ ⟨rfl, rfl, rfl⟩
    rintro p op p' ⟨hid, hvalidators, htotal⟩ ⟨hallows, rfl⟩
    have hregistry := (p.engine.effect_next op).registry (by rintro _ _ rfl; exact hallows)
    exact ⟨hregistry.1.trans hid, hregistry.2.1.trans hvalidators, hregistry.2.2.trans htotal⟩
  · refine hrun.invariant (I := fun p => p.engine.Inv) ?_
    rintro p op p' hp ⟨-, rfl⟩
    exact hp.next op
  · refine hrun.invariant (I := fun p => p.engine.OneChoice) ?_
    rintro p op p' hp ⟨-, rfl⟩
    exact hp.effect (p.engine.effect_next op)

omit [PyFloat F] in
theorem registeredStake_mono {c : BFTConsensus F} (hstake : ∀ v, 0 ≤ c.validators.getD v 0)
    {S T : Finset Bytes} (hsub : S ⊆ T) : c.registeredStake S ≤ c.registeredStake T :=
  Finset.sum_le_sum_of_subset_of_nonneg hsub fun v _ _ => hstake v

/-- The message adds a count in the name of the node. -/
def Counts (n : ValidatorNode F) (event : Event F) (hash : Bytes) : Prop :=
  (∃ proposal time, event = .proposal proposal time ∧
    n.consensus.checkProposal proposal = .ok hash) ∨
  ∃ vote time, event = .vote vote time ∧
    n.consensus.Admits .preVote n.consensus.preVoteChoices vote ∧
    vote.voterId = n.consensus.validatorId ∧ vote.proposalHash = hash

omit [PyFloat F] in
theorem Counts.unique {hash hash' : Bytes} (h : n.Counts event hash) (h' : n.Counts event hash') :
    hash = hash' := by
  rcases h with ⟨proposal, time, rfl, hvalid⟩ | ⟨vote, time, rfl, -, -, rfl⟩
  · rcases h' with ⟨proposal', time', heq, hvalid'⟩ | ⟨_, _, heq, -⟩
    · obtain ⟨rfl, rfl⟩ := Event.proposal.inj heq
      exact Except.ok.inj (hvalid.symm.trans hvalid')
    · cases heq
  · rcases h' with ⟨_, _, heq, -⟩ | ⟨vote', time', heq, -, -, rfl⟩
    · cases heq
    · obtain ⟨rfl, rfl⟩ := Event.vote.inj heq
      rfl

omit [PyFloat F] in
theorem Counts.agrees {hash hash' : Bytes} (h : n.Counts event hash) (hrival : n.Unrivalled event)
    (hname : n.OwnNameAgrees event) (hown : n.OwnHash hash') : hash' = hash := by
  rcases h with ⟨proposal, time, rfl, hvalid⟩ | ⟨vote, time, rfl, hadmits, hid, rfl⟩
  · rcases hown with hsome | hchoice
    · exact hrival hash hvalid hash' hsome
    · exact hname hash hvalid hash' hchoice
  · rcases hown with hsome | hchoice
    · exact hname hadmits hid hash' hsome
    · exact hadmits.choice hash' (by rw [hid]; exact hchoice)

theorem Reaction.of_ownHash (h : Reaction n event n')
    (hid : n'.consensus.validatorId = n.consensus.validatorId) {hash : Bytes}
    (hown : n'.OwnHash hash) : n.OwnHash hash ∨ n.Counts event hash := by
  rcases hown with hsome | hchoice
  · rcases (h.accepted_iff hash).mp hsome with hold | hnew
    · exact Or.inl (Or.inl hold)
    · exact Or.inr (Or.inl hnew)
  · rw [hid] at hchoice
    cases h with
    | ignored _ _ _ choices _ => exact Or.inl (Or.inr (choices ▸ hchoice))
    | proposal _ _ _ choices _ => exact Or.inl (Or.inr (choices ▸ hchoice))
    | preVote admits _ _ choices _ =>
      rw [choices] at hchoice
      rcases OrderedDict.get?_set_eq_some.mp hchoice with ⟨hvoter, hhash⟩ | ⟨-, hold⟩
      · exact Or.inr (Or.inr ⟨_, _, rfl, admits, hvoter.symm, hhash.symm⟩)
      · exact Or.inl (Or.inr hold)

theorem Reaction.ownHash (h : Reaction n event n')
    (hid : n'.consensus.validatorId = n.consensus.validatorId) {hash : Bytes}
    (hown : n.OwnHash hash) : n'.OwnHash hash := by
  rcases hown with hsome | hchoice
  · exact Or.inl ((h.accepted_iff hash).mpr (Or.inl hsome))
  · right
    rw [hid]
    cases h with
    | ignored _ _ _ choices _ => rwa [choices]
    | proposal _ _ _ choices _ => rwa [choices]
    | preVote admits _ _ choices _ =>
      rw [choices, OrderedDict.get?_set]
      split_ifs with hvoter
      · rw [admits.choice hash (hvoter ▸ hchoice)]
      · exact hchoice

/-- Whoever is counted in the name of the node was counted before, or is counted by the message. -/
theorem Reaction.of_mem_voters (h : Reaction n event n')
    (hid : n'.consensus.validatorId = n.consensus.validatorId) {hash : Bytes}
    (hvoter : n.consensus.validatorId ∈ n'.consensus.preVotes.voters hash) :
    n.consensus.validatorId ∈ n.consensus.preVotes.voters hash ∨ n'.OwnHash hash := by
  obtain ⟨v, hv, hme⟩ := VoteTable.mem_voters.mp hvoter
  have haccepted := h.accepted_iff hash
  cases h with
  | ignored _ _ preVotes _ _ =>
    rw [preVotes] at hv
    exact Or.inl (VoteTable.mem_voters.mpr ⟨v, hv, hme⟩)
  | proposal valid _ preVotes _ _ =>
    rw [preVotes] at hv
    rcases VoteTable.mem_getD_add.mp hv with hold | ⟨rfl, rfl⟩
    · exact Or.inl (VoteTable.mem_voters.mpr ⟨v, hold, hme⟩)
    · exact Or.inr (Or.inl (haccepted.mpr (Or.inr ⟨_, _, rfl, valid⟩)))
  | preVote _ _ preVotes choices _ =>
    rw [preVotes] at hv
    rcases VoteTable.mem_getD_add.mp hv with hold | ⟨rfl, rfl⟩
    · exact Or.inl (VoteTable.mem_voters.mpr ⟨v, hold, hme⟩)
    · refine Or.inr (Or.inr ?_)
      rw [choices, hid, ← hme]
      exact OrderedDict.get?_set_self ..

theorem Reaction.backed (hF : ThresholdMajority F) (h : Reaction n event n') {v : ConsensusVote}
    (hv : v ∈ n'.votesCast) (htype : v.voteType = .preCommit) :
    v ∈ n.votesCast ∨ n'.consensus.totalStake <
      2 * n'.consensus.registeredStake (n'.consensus.preVotes.voters v.proposalHash) := by
  cases h with
  | ignored _ _ _ _ votes => exact Or.inl (votes ▸ hv)
  | proposal _ _ _ _ votes =>
    rw [votes, List.mem_append, List.mem_singleton] at hv
    rcases hv with hv | rfl
    · exact Or.inl hv
    · cases htype
  | preVote _ _ _ _ votes =>
    rcases votes with votes | ⟨votes, hthreshold⟩
    · exact Or.inl (votes ▸ hv)
    · rw [votes, List.mem_append, List.mem_singleton] at hv
      rcases hv with hv | rfl
      · exact Or.inl hv
      · exact Or.inr (BFTConsensus.majority_of_threshold hF hthreshold)

theorem Guarded.handle (hF : ThresholdMajority F) (hn : n.Guarded) (hevent : event.IsMessage)
    (hrival : n.Unrivalled event) (hname : n.OwnNameAgrees event) : (n.handle event).Guarded := by
  have hreaction := n.reaction_handle hevent
  obtain ⟨⟨hid, hvalidators, htotal⟩, hinv, hchoice⟩ := n.engine_handle event
  have hnonneg : ∀ v, 0 ≤ (n.handle event).consensus.validators.getD v 0 := by
    rw [hvalidators]
    exact hn.nonneg
  constructor
  · exact hinv hn.inv
  · exact hnonneg
  · exact hchoice hn.oneChoice
  · intro hash hvoter
    rw [hid] at hvoter
    rcases hreaction.of_mem_voters hid hvoter with hold | hown
    · exact hreaction.ownHash hid (hn.ownName hash hold)
    · exact hown
  · intro hash hash' hown hown'
    rcases hreaction.of_ownHash hid hown with hold | hcounts
    · rcases hreaction.of_ownHash hid hown' with hold' | hcounts'
      · exact hn.agree hash hash' hold hold'
      · exact hcounts'.agrees hrival hname hold
    · rcases hreaction.of_ownHash hid hown' with hold' | hcounts'
      · exact (hcounts.agrees hrival hname hold').symm
      · exact hcounts.unique hcounts'
  · intro v hv htype
    rcases hreaction.backed hF hv htype with hold | hbacked
    · have hle := registeredStake_mono hnonneg (hreaction.voters_subset v.proposalHash)
      have hbacked := hn.backed v hold htype
      have hsame : (n.handle event).consensus.registeredStake
          (n.consensus.preVotes.voters v.proposalHash) =
          n.consensus.registeredStake (n.consensus.preVotes.voters v.proposalHash) := by
        rw [BFTConsensus.registeredStake, hvalidators]
        rfl
      rw [htotal]
      omega
    · exact hbacked

theorem Guarded.handleAll (hF : ThresholdMajority F) (hn : n.Guarded) {events : List (Event F)}
    (hevents : ∀ event ∈ events, event.IsMessage)
    (hall : ∀ earlier event later, events = earlier ++ event :: later →
      (n.handleAll earlier).Unrivalled event ∧ (n.handleAll earlier).OwnNameAgrees event) :
    (n.handleAll events).Guarded := by
  induction events generalizing n with
  | nil => exact hn
  | cons event events ih =>
    obtain ⟨hevent, hevents⟩ := List.forall_mem_cons.mp hevents
    obtain ⟨hrival, hname⟩ := hall [] event events rfl
    apply ih (hn.handle hF hevent hrival hname) hevents
    intro earlier event' later h
    exact hall (event :: earlier) event' later (by rw [h]; rfl)

/-- A node that has just started a round, and casts its votes from here on. -/
structure StartsRound (epoch roundNum : ℤ) (n : ValidatorNode F) : Prop where
  start : ∃ c : BFTConsensus F, c.Reachable ∧ n.consensus = c.startRound epoch roundNum
  votes : n.votesCast = []

theorem StartsRound.preVoted {epoch roundNum : ℤ} (h : n.StartsRound epoch roundNum) :
    n.PreVoted ∧ n.OneHash .preVote := by
  obtain ⟨c, -, hc⟩ := h.start
  constructor
  · intro hash
    rw [hc, h.votes]
    simp [BFTConsensus.startRound]
  · intro u hu
    rw [h.votes] at hu
    cases hu

theorem StartsRound.guarded {epoch roundNum : ℤ} (h : n.StartsRound epoch roundNum)
    (hstake : ∀ v, 0 ≤ n.consensus.validators.getD v 0) : n.Guarded := by
  obtain ⟨c, hreachable, hc⟩ := h.start
  have hinv := (hreachable.next (.startRound epoch roundNum)).inv
  have hown : ∀ hash, ¬ n.OwnHash hash := by
    intro hash hown
    rw [OwnHash, hc] at hown
    simp [BFTConsensus.startRound] at hown
  constructor
  · rw [hc]
    exact hinv
  · exact hstake
  · rw [hc]
    intro hash vote hvote
    cases hvote
  · intro hash hvoter
    rw [hc] at hvoter
    cases hvoter
  · intro hash hash' h'
    exact absurd h' (hown hash)
  · intro v hv
    rw [h.votes] at hv
    cases hv

/-- The pre-votes of a round name one hash exactly when no valid proposal comes in beside an
accepted one with another hash. The pre-commits name one hash if moreover nothing is counted in the
name of the node for another hash and no stake is negative. -/
theorem votes_one_hash (hF : ThresholdMajority F) {n : ValidatorNode F} {epoch roundNum : ℤ}
    (hn : n.StartsRound epoch roundNum) {events : List (Event F)}
    (hevents : ∀ event ∈ events, event.IsMessage) :
    ((n.handleAll events).OneHash .preVote ↔
      ∀ earlier event later, events = earlier ++ event :: later →
        (n.handleAll earlier).Unrivalled event) ∧
    ((∀ v, 0 ≤ n.consensus.validators.getD v 0) →
      (∀ earlier event later, events = earlier ++ event :: later →
        (n.handleAll earlier).Unrivalled event ∧ (n.handleAll earlier).OwnNameAgrees event) →
      (n.handleAll events).OneHash .preVote ∧ (n.handleAll events).OneHash .preCommit) := by
  have hpreVote := oneHash_preVote_iff hn.preVoted.1 hn.preVoted.2 hevents
  refine ⟨hpreVote, ?_⟩
  intro hstake hall
  refine ⟨hpreVote.mpr fun earlier event later h => (hall earlier event later h).1, ?_⟩
  exact ((hn.guarded hstake).handleAll hF hevents hall).oneHash

def roundVoter : ValidatorNode ℚ where
  consensus := ((BFTConsensus.init BFTConsensus.voterId 30).registerValidator
    BFTConsensus.proposerId 70).startRound 0 0

theorem startsRound_roundVoter : roundVoter.StartsRound 0 0 where
  start := ⟨_, (BFTConsensus.reachable_init _ _).next
    (.registerValidator BFTConsensus.proposerId 70), rfl⟩
  votes := rfl

def proposerVote : ConsensusVote :=
  (BFTConsensus.init BFTConsensus.proposerId 70).ownVote .preVote BFTConsensus.roundHash (0 : ℚ)

theorem cast_roundVoter :
    (roundVoter.handleAll [.proposal BFTConsensus.roundProposal 0, .vote proposerVote 0]).votesCast.map
      (fun v => (v.voteType, v.proposalHash)) =
      [(.preVote, BFTConsensus.roundHash), (.preCommit, BFTConsensus.roundHash)] := by
  decide +kernel

/-- One proposal and the pre-vote of its proposer: the voter casts a pre-vote and a pre-commit. -/
theorem votes_one_hash_roundVoter :
    (roundVoter.handleAll [.proposal BFTConsensus.roundProposal 0,
      .vote proposerVote 0]).votesCast.length = 2 ∧
    (roundVoter.handleAll [.proposal BFTConsensus.roundProposal 0,
      .vote proposerVote 0]).OneHash .preVote ∧
    (roundVoter.handleAll [.proposal BFTConsensus.roundProposal 0,
      .vote proposerVote 0]).OneHash .preCommit := by
  have hne : proposerVote.voterId ≠ BFTConsensus.voterId := by decide
  refine ⟨by simpa using congrArg List.length cast_roundVoter,
    (votes_one_hash thresholdMajority_rat startsRound_roundVoter (by simp [Event.IsMessage])).2
      ?_ ?_⟩
  · intro v
    simp only [roundVoter, BFTConsensus.startRound, BFTConsensus.registerValidator,
      BFTConsensus.init, OrderedDict.getD, OrderedDict.get?_set, OrderedDict.get?_empty]
    split_ifs <;> decide
  · intro earlier event later h
    rcases earlier with _ | ⟨first, _ | ⟨second, earlier⟩⟩
    · obtain ⟨rfl, -⟩ := List.cons.inj h
      refine ⟨?_, ?_⟩
      · intro hash _ hash' hsome
        cases hsome
      · intro hash _ hash' hchoice
        cases hchoice
    · obtain ⟨rfl, htail⟩ := List.cons.inj h
      obtain ⟨rfl, -⟩ := List.cons.inj htail
      refine ⟨trivial, ?_⟩
      intro _ hid
      have hvoter := (roundVoter.engine_handle (.proposal BFTConsensus.roundProposal 0)).1.1
      exact absurd (hid.trans hvoter) hne
    · simp at h

/-- A second valid proposal of the same proposer. -/
def rivalProposal : ConsensusProposal ℚ := { BFTConsensus.roundProposal with stateRoot := [1] }

/-- Two valid proposals of one round: the voter pre-votes for both. -/
theorem two_preVotes : roundVoter.StartsRound 0 0 ∧
    ¬ (roundVoter.handleAll [.proposal BFTConsensus.roundProposal 0,
      .proposal rivalProposal 0]).OneHash .preVote := by
  refine ⟨startsRound_roundVoter, ?_⟩
  unfold OneHash
  decide +kernel

end ValidatorNode

end Qrtb
