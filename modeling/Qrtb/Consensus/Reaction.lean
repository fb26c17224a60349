import Qrtb.Consensus.ValidatorNode

/-!
# How a node reacts to messages

A message is ignored, or a valid proposal brings a pre-vote, or an admitted
pre-vote is counted and may bring a pre-commit. What a message changes of the
proposals, the pre-votes and the cast votes of a node is one of these three.
-/

namespace Qrtb

open PyFloat

theorem BFTConsensus.tryFinalize_keeps {F : Type} [PyFloat F] (proposalHash : Bytes) (time : F)
    (c : BFTConsensus F) :
    (c.tryFinalize proposalHash time).2.receivedProposals = c.receivedProposals ∧
      (c.tryFinalize proposalHash time).2.preVotes = c.preVotes ∧
      (c.tryFinalize proposalHash time).2.preVoteChoices = c.preVoteChoices := by
  rcases c.tryFinalize_cases proposalHash time with ⟨r, h, -⟩ | ⟨proposal, block, -, -, -, h⟩
  · rw [h]
    exact ⟨rfl, rfl, rfl⟩
  · rw [h]
    exact ⟨rfl, rfl, rfl⟩

namespace ValidatorNode

variable {F : Type} [PyFloat F]

def Event.IsMessage : Event F → Prop
  | .proposal _ _ => True
  | .vote _ _ => True
  | _ => False

/-- The ways a node reacts to a message, in terms of its proposals, pre-votes and cast votes. -/
inductive Reaction (n : ValidatorNode F) : Event F → ValidatorNode F → Prop
  | ignored {event : Event F} {n' : ValidatorNode F}
      (rejected : ∀ proposal time, event = .proposal proposal time →
        ∃ e, n.consensus.checkProposal proposal = .error e)
      (proposals : n'.consensus.receivedProposals = n.consensus.receivedProposals)
      (preVotes : n'.consensus.preVotes = n.consensus.preVotes)
      (choices : n'.consensus.preVoteChoices = n.consensus.preVoteChoices)
      (votes : n'.votesCast = n.votesCast) : Reaction n event n'
  | proposal {proposal : ConsensusProposal F} {time : F} {hash : Bytes} {n' : ValidatorNode F}
      (valid : n.consensus.checkProposal proposal = .ok hash)
      (proposals : n'.consensus.receivedProposals =
        n.consensus.receivedProposals.set hash proposal)
      (preVotes : n'.consensus.preVotes =
        n.consensus.preVotes.add (n.consensus.ownVote .preVote hash time))
      (choices : n'.consensus.preVoteChoices = n.consensus.preVoteChoices)
      (votes : n'.votesCast = n.votesCast ++ [n.consensus.ownVote .preVote hash time]) :
      Reaction n (.proposal proposal time) n'
  | preVote {vote : ConsensusVote} {time : F} {n' : ValidatorNode F}
      (admits : n.consensus.Admits .preVote n.consensus.preVoteChoices vote)
      (proposals : n'.consensus.receivedProposals = n.consensus.receivedProposals)
      (preVotes : n'.consensus.preVotes =
        n.consensus.preVotes.add (n.consensus.withRegisteredStake vote))
      (choices : n'.consensus.preVoteChoices =
        n.consensus.preVoteChoices.set vote.voterId vote.proposalHash)
      (votes : n'.votesCast = n.votesCast ∨
        n'.votesCast = n.votesCast ++ [n.consensus.ownVote .preCommit vote.proposalHash time] ∧
          (n'.consensus.checkPreVoteThreshold vote.proposalHash).1 = true) :
      Reaction n (.vote vote time) n'

theorem reaction_proposal (n : ValidatorNode F) (proposal : ConsensusProposal F) (time : F) :
    Reaction n (.proposal proposal time) (n.handle (.proposal proposal time)) := by
  cases hcheck : n.consensus.checkProposal proposal with
  | error e =>
    have hsame : n.handle (.proposal proposal time) = n := by
      simp [handle, receiveProposal, BFTConsensus.receiveProposal, hcheck]
    rw [hsame]
    refine .ignored ?_ rfl rfl rfl rfl
    intro proposal' time' heq
    obtain ⟨rfl, rfl⟩ := Event.proposal.inj heq
    exact ⟨e, hcheck⟩
  | ok hash =>
    have hhash := BFTConsensus.proposalHash_of_checkProposal hcheck
    have hreceive := BFTConsensus.receiveProposal_of_checkProposal hcheck
    simp only [handle, receiveProposal, hreceive, hhash]
    exact .proposal hcheck rfl rfl rfl rfl

theorem reaction_vote (n : ValidatorNode F) (vote : ConsensusVote) (time : F) :
    Reaction n (.vote vote time) (n.handle (.vote vote time)) := by
  have hproposal : ∀ (proposal : ConsensusProposal F) (time' : F),
      Event.vote vote time = .proposal proposal time' →
        ∃ e, n.consensus.checkProposal proposal = .error e := by
    intro proposal time' heq
    cases heq
  cases htype : vote.voteType with
  | preVote =>
    rcases n.consensus.receivePreVote_cases vote with ⟨e, h⟩ | ⟨hadmits, h⟩
    · simp only [handle, receiveVote, htype, h]
      exact .ignored hproposal rfl rfl rfl rfl
    · simp only [handle, receiveVote, htype, h, afterPreVote]
      split_ifs with hthreshold
      · simp only [BFTConsensus.createPreCommit, hthreshold, if_true]
        exact .preVote hadmits rfl rfl rfl (Or.inr ⟨rfl, hthreshold⟩)
      · exact .preVote hadmits rfl rfl rfl (Or.inl rfl)
  | preCommit =>
    rcases n.consensus.receivePreCommit_cases vote with ⟨e, h⟩ | ⟨hadmits, h⟩
    · simp only [handle, receiveVote, htype, h]
      exact .ignored hproposal rfl rfl rfl rfl
    · simp only [handle, receiveVote, htype, h, afterPreCommit]
      split_ifs with hthreshold
      · have hkeeps := BFTConsensus.tryFinalize_keeps vote.proposalHash time
          (n.consensus.receivePreCommit vote).2
        rw [h] at hkeeps
        split
        all_goals
          next heq =>
            rw [heq] at hkeeps
            exact .ignored hproposal hkeeps.1 hkeeps.2.1 hkeeps.2.2 rfl
      · exact .ignored hproposal rfl rfl rfl rfl

theorem reaction_handle (n : ValidatorNode F) {event : Event F} (hevent : event.IsMessage) :
    Reaction n event (n.handle event) := by
  cases event with
  | start | propose => exact absurd hevent id
  | proposal proposal time => exact n.reaction_proposal proposal time
  | vote vote time => exact n.reaction_vote vote time

variable {n n' : ValidatorNode F} {event : Event F}

theorem Reaction.mem_votesCast (h : Reaction n event n') {v : ConsensusVote}
    (htype : v.voteType = .preVote) :
    v ∈ n'.votesCast ↔ v ∈ n.votesCast ∨
      ∃ proposal time hash, event = .proposal proposal time ∧
        n.consensus.checkProposal proposal = .ok hash ∧
        v = n.consensus.ownVote .preVote hash time := by
  cases h with
  | ignored rejected _ _ _ votes =>
    rw [votes]
    constructor
    · exact Or.inl
    · rintro (hv | ⟨proposal, time, hash, rfl, hvalid, -⟩)
      · exact hv
      · obtain ⟨e, he⟩ := rejected proposal time rfl
        rw [he] at hvalid
        cases hvalid
  | proposal valid _ _ _ votes =>
    rw [votes, List.mem_append, List.mem_singleton]
    constructor
    · rintro (hv | rfl)
      · exact Or.inl hv
      · exact Or.inr ⟨_, _, _, rfl, valid, rfl⟩
    · rintro (hv | ⟨proposal, time, hash, heq, hvalid, rfl⟩)
      · exact Or.inl hv
      · obtain ⟨rfl, rfl⟩ := Event.proposal.inj heq
        rw [Except.ok.inj (valid.symm.trans hvalid)]
        exact Or.inr rfl
  | preVote _ _ _ _ votes =>
    constructor
    · intro hv
      left
      rcases votes with votes | ⟨votes, -⟩
      · rwa [votes] at hv
      · rw [votes, List.mem_append, List.mem_singleton] at hv
        rcases hv with hv | rfl
        · exact hv
        · cases htype
    · rintro (hv | ⟨proposal, time, hash, heq, -⟩)
      · rcases votes with votes | ⟨votes, -⟩
        · rwa [votes]
        · rw [votes]
          exact List.mem_append_left _ hv
      · cases heq

theorem Reaction.accepted_iff (h : Reaction n event n') (hash : Bytes) :
    (n'.consensus.receivedProposals.get? hash).isSome ↔
      (n.consensus.receivedProposals.get? hash).isSome ∨
        ∃ proposal time, event = .proposal proposal time ∧
          n.consensus.checkProposal proposal = .ok hash := by
  cases h with
  | ignored rejected proposals _ _ _ =>
    rw [proposals]
    constructor
    · exact Or.inl
    · rintro (hsome | ⟨proposal, time, rfl, hvalid⟩)
      · exact hsome
      · obtain ⟨e, he⟩ := rejected proposal time rfl
        rw [he] at hvalid
        cases hvalid
  | proposal valid proposals _ _ _ =>
    rw [proposals, OrderedDict.get?_set]
    split_ifs with hhash
    · subst hhash
      exact iff_of_true rfl (Or.inr ⟨_, _, rfl, valid⟩)
    · constructor
      · exact Or.inl
      · rintro (hsome | ⟨proposal, time, heq, hvalid⟩)
        · exact hsome
        · obtain ⟨rfl, rfl⟩ := Event.proposal.inj heq
          exact absurd (Except.ok.inj (hvalid.symm.trans valid)) hhash
  | preVote _ proposals _ _ _ =>
    rw [proposals]
    constructor
    · exact Or.inl
    · rintro (hsome | ⟨proposal, time, heq, -⟩)
      · exact hsome
      · cases heq

theorem Reaction.votesCast_subset (h : Reaction n event n') : n.votesCast ⊆ n'.votesCast := by
  cases h with
  | ignored _ _ _ _ votes =>
    rw [votes]
    exact List.Subset.refl _
  | proposal _ _ _ _ votes =>
    rw [votes]
    exact List.subset_append_left _ _
  | preVote _ _ _ _ votes =>
    rcases votes with votes | ⟨votes, -⟩
    · rw [votes]
      exact List.Subset.refl _
    · rw [votes]
      exact List.subset_append_left _ _

theorem Reaction.voters_subset (h : Reaction n event n') (hash : Bytes) :
    n.consensus.preVotes.voters hash ⊆ n'.consensus.preVotes.voters hash := by
  cases h with
  | ignored _ _ preVotes _ _ => rw [preVotes]
  | proposal _ _ preVotes _ _ =>
    rw [preVotes]
    exact VoteTable.voters_subset_add _ _ hash
  | preVote _ _ preVotes _ _ =>
    rw [preVotes]
    exact VoteTable.voters_subset_add _ _ hash

def handleAll (n : ValidatorNode F) (events : List (Event F)) : ValidatorNode F :=
  events.foldl handle n

theorem votesCast_subset_handleAll (n : ValidatorNode F) {events : List (Event F)}
    (hevents : ∀ event ∈ events, event.IsMessage) :
    n.votesCast ⊆ (n.handleAll events).votesCast := by
  induction events generalizing n with
  | nil => exact List.Subset.refl _
  | cons event events ih =>
    obtain ⟨hevent, hevents⟩ := List.forall_mem_cons.mp hevents
    exact List.Subset.trans (n.reaction_handle hevent).votesCast_subset
      (ih (n.handle event) hevents)

end ValidatorNode

end Qrtb
