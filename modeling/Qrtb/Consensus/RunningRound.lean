import Qrtb.Consensus.Finality
import Qrtb.Consensus.Voting

/-!
# The round of the recorded votes

A proposal is checked against the running epoch and the running round, a received
vote against the epoch alone. The tables of a new round start empty and the own
votes are cast in it, so the received votes decide whether everything a threshold
counts belongs to the running round.
-/

namespace Qrtb

open PyFloat Transition

/-- All votes of the table were cast in one round. -/
def VoteTable.CastIn (epoch roundNum : ℤ) (votes : VoteTable) : Prop :=
  ∀ hash, ∀ vote ∈ votes.getD hash [], vote.epoch = epoch ∧ vote.round = roundNum

theorem VoteTable.castIn_add {epoch roundNum : ℤ} {votes : VoteTable} {v : ConsensusVote} :
    (votes.add v).CastIn epoch roundNum ↔
      votes.CastIn epoch roundNum ∧ v.epoch = epoch ∧ v.round = roundNum := by
  constructor
  · intro h
    refine ⟨?_, h v.proposalHash v (VoteTable.mem_getD_add.mpr (Or.inr ⟨rfl, rfl⟩))⟩
    intro hash vote hvote
    exact h hash vote (VoteTable.mem_getD_add.mpr (Or.inl hvote))
  · intro h hash vote hvote
    rcases VoteTable.mem_getD_add.mp hvote with hold | ⟨-, rfl⟩
    · exact h.1 hash vote hold
    · exact h.2

namespace BFTConsensus

variable {F : Type}

/-- Every recorded vote carries the running epoch and round. -/
structure HoldsRunning (c : BFTConsensus F) : Prop where
  preVotes : c.preVotes.CastIn c.currentEpoch c.currentRound
  preCommits : c.preCommits.CastIn c.currentEpoch c.currentRound

/-- The calls that keep it: a received vote that passes the checks was cast in the running
round. -/
def KeepsRound (c : BFTConsensus F) : Operation F → Prop
  | .receivePreVote vote => c.Admits .preVote c.preVoteChoices vote → vote.round = c.currentRound
  | .receivePreCommit vote =>
    c.Admits .preCommit c.preCommitChoices vote → vote.round = c.currentRound
  | _ => True

theorem holdsRunning_startRound (epoch roundNum : ℤ) (c : BFTConsensus F) :
    (c.startRound epoch roundNum).HoldsRunning := by
  constructor
  · intro hash vote hvote
    cases hvote
  · intro hash vote hvote
    cases hvote

theorem holdsRunning_init (validatorId : Bytes) (stake : ℤ) :
    (init validatorId stake : BFTConsensus F).HoldsRunning := by
  constructor
  · intro hash vote hvote
    cases hvote
  · intro hash vote hvote
    cases hvote

theorem holdsRunning_receivePreVote_iff {c : BFTConsensus F} (hc : c.HoldsRunning)
    (vote : ConsensusVote) :
    (c.receivePreVote vote).2.HoldsRunning ↔
      (c.Admits .preVote c.preVoteChoices vote → vote.round = c.currentRound) := by
  by_cases hadmits : c.Admits .preVote c.preVoteChoices vote
  · rw [receivePreVote_of_admits hadmits]
    constructor
    · intro hnext _
      exact (VoteTable.castIn_add.mp hnext.preVotes).2.2
    · intro hround
      exact ⟨VoteTable.castIn_add.mpr ⟨hc.preVotes, hadmits.epoch, hround hadmits⟩, hc.preCommits⟩
  · rw [receivePreVote_of_not_admits hadmits]
    exact iff_of_true hc fun h => absurd h hadmits

theorem holdsRunning_receivePreCommit_iff {c : BFTConsensus F} (hc : c.HoldsRunning)
    (vote : ConsensusVote) :
    (c.receivePreCommit vote).2.HoldsRunning ↔
      (c.Admits .preCommit c.preCommitChoices vote → vote.round = c.currentRound) := by
  by_cases hadmits : c.Admits .preCommit c.preCommitChoices vote
  · rw [receivePreCommit_of_admits hadmits]
    constructor
    · intro hnext _
      exact (VoteTable.castIn_add.mp hnext.preCommits).2.2
    · intro hround
      exact ⟨hc.preVotes, VoteTable.castIn_add.mpr ⟨hc.preCommits, hadmits.epoch, hround hadmits⟩⟩
  · rw [receivePreCommit_of_not_admits hadmits]
    exact iff_of_true hc fun h => absurd h hadmits

variable [PyFloat F]

theorem holdsRunning_next_iff {c : BFTConsensus F} (hc : c.HoldsRunning) (op : Operation F) :
    (c.next op).HoldsRunning ↔ c.KeepsRound op := by
  cases op with
  | registerValidator validatorId stake => exact iff_of_true ⟨hc.preVotes, hc.preCommits⟩ trivial
  | startRound epoch roundNum =>
    exact iff_of_true (c.holdsRunning_startRound epoch roundNum) trivial
  | createProposal measurements transactionRoot stateRoot time =>
    apply iff_of_true _ trivial
    rcases c.createProposal_cases measurements transactionRoot stateRoot time with
      ⟨e, current, h⟩ | ⟨root, hash, proposal, -, -, -, h⟩
    · rw [next, h]
      exact ⟨hc.preVotes, hc.preCommits⟩
    · rw [next, h]
      exact ⟨hc.preVotes, hc.preCommits⟩
  | receiveProposal proposal =>
    apply iff_of_true _ trivial
    rcases c.receiveProposal_cases proposal with ⟨e, h⟩ | ⟨hash, -, -, h⟩
    · rwa [next, h]
    · rw [next, h]
      exact ⟨hc.preVotes, hc.preCommits⟩
  | createPreVote proposalHash time =>
    exact iff_of_true ⟨VoteTable.castIn_add.mpr ⟨hc.preVotes, rfl, rfl⟩, hc.preCommits⟩ trivial
  | receivePreVote vote => exact holdsRunning_receivePreVote_iff hc vote
  | createPreCommit proposalHash time =>
    apply iff_of_true _ trivial
    rcases c.createPreCommit_cases proposalHash time with ⟨-, h⟩ | ⟨-, h⟩
    · rwa [next, h]
    · rw [next, h]
      exact ⟨hc.preVotes, VoteTable.castIn_add.mpr ⟨hc.preCommits, rfl, rfl⟩⟩
  | receivePreCommit vote => exact holdsRunning_receivePreCommit_iff hc vote
  | tryFinalize proposalHash time =>
    apply iff_of_true _ trivial
    rcases c.tryFinalize_cases proposalHash time with ⟨r, h, -⟩ | ⟨proposal, block, -, -, -, h⟩
    · rwa [next, h]
    · rw [next, h]
      exact ⟨hc.preVotes, hc.preCommits⟩

/-- A new engine holds votes of the running round alone, through a whole run, exactly when every
received vote that passes the checks was cast in the round it arrives in. -/
theorem holdsRunning_iff (validatorId : Bytes) (stake : ℤ) (ops : List (Operation F)) :
    (∀ earlier later, ops = earlier ++ later →
        ((init validatorId stake).after earlier).HoldsRunning) ↔
      ∀ earlier op later, ops = earlier ++ op :: later →
        ((init validatorId stake).after earlier).KeepsRound op :=
  throughout_iff (fun op c => next c op) (I := HoldsRunning) (J := fun _ => True)
    (K := fun op c => c.KeepsRound op) (s := init validatorId stake) (fun _ _ _ => trivial)
    (fun op _ _ hc => holdsRunning_next_iff hc op) trivial (holdsRunning_init validatorId stake) ops

/-- A pre-vote of round 0 that arrives in round 1. -/
def staleVote : ConsensusVote :=
  { voterId := proposerId, epoch := 0, round := 0, proposalHash := roundHash, voteType := .preVote,
    stake := 70, timestamp := 0 }

/-- The stale vote is recorded and meets the threshold of the new round by itself. -/
theorem staleVote_recorded :
    let c := (init voterId 30 : BFTConsensus ℚ).after
      [.registerValidator proposerId 70, .startRound 0 1, .receivePreVote staleVote]
    ¬ c.HoldsRunning ∧ c.currentRound = 1 ∧ c.preVotes.getD roundHash [] = [staleVote] ∧
      (c.checkPreVoteThreshold roundHash).1 = true := by
  have hstate : ∀ c : BFTConsensus ℚ, c.currentRound = 1 →
      c.preVotes.getD roundHash [] = [staleVote] → ¬ c.HoldsRunning := by
    intro c hround hvotes h
    have hheld : staleVote ∈ c.preVotes.getD roundHash [] := by
      rw [hvotes]
      exact List.mem_singleton_self _
    have hcast := (h.preVotes roundHash staleVote hheld).2
    rw [hround] at hcast
    exact absurd hcast (by decide)
  have hfacts :
      let c := (init voterId 30 : BFTConsensus ℚ).after
        [.registerValidator proposerId 70, .startRound 0 1, .receivePreVote staleVote]
      c.currentRound = 1 ∧ c.preVotes.getD roundHash [] = [staleVote] ∧
        (c.checkPreVoteThreshold roundHash).1 = true := by
    decide +kernel
  exact ⟨hstate _ hfacts.1 hfacts.2.1, hfacts⟩

end BFTConsensus

end Qrtb
