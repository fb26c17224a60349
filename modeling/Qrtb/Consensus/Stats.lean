import Qrtb.Consensus.Support
import Qrtb.Lib.Scan
import Mathlib.Data.Fintype.EquivFin

/-!
# The statistics of the engine (`src/consensus.py`)

The report adds up the registered stake over the recorded pre-commits of each
proposal and keeps the best sum. It adds a voter as often as a vote of his is
recorded, the threshold counts him once. The two agree as long as no pre-commit
is recorded of a voter who has one for the same proposal.
-/

namespace Qrtb

open PyFloat Transition

def ConsensusPhase.name : ConsensusPhase → String
  | .idle => "IDLE"
  | .propose => "PROPOSE"
  | .preVote => "PRE_VOTE"
  | .preCommit => "PRE_COMMIT"
  | .commit => "COMMIT"
  | .finalized => "FINALIZED"

structure ConsensusStats (F : Type) where
  epoch : ℤ
  round : ℤ
  phase : String
  proposalsReceived : ℕ
  totalStake : ℤ
  bestProposalSupport : ℤ
  supportRatio : F
  finalized : Bool

namespace BFTConsensus

variable {F : Type}

/-- The registered stake over a list of votes, repeated votes included. -/
def recordedStake (votes : List ConsensusVote) (c : BFTConsensus F) : ℤ :=
  (votes.map fun v => c.validators.getD v.voterId 0).sum

/-- Which proposal is the best one is kept by the loop and not reported. -/
def getConsensusStats [PyFloat F] (c : BFTConsensus F) : ConsensusStats F :=
  let bestSupport := Scan.best (fun entry => c.recordedStake entry.2) 0 c.preCommits.items
  { epoch := c.currentEpoch
    round := c.currentRound
    phase := c.phase.name
    proposalsReceived := c.receivedProposals.items.length
    totalStake := c.totalStake
    bestProposalSupport := bestSupport
    supportRatio := if c.totalStake > 0 then divInt bestSupport c.totalStake else literal 0
    finalized := c.phase = .finalized }

/-- Where nobody has two votes, the sum over the votes is the sum over the voters. -/
theorem recordedStake_eq_votedStake {votes : List ConsensusVote} (c : BFTConsensus F)
    (h : (votes.map ConsensusVote.voterId).Nodup) : c.recordedStake votes = c.votedStake votes := by
  rw [votedStake_eq_registeredStake, registeredStake, List.sum_toFinset _ h, List.map_map]
  rfl

/-- No proposal has two recorded pre-commits of one voter. -/
def Unrepeated (c : BFTConsensus F) : Prop :=
  ∀ hash, ((c.preCommits.getD hash []).map ConsensusVote.voterId).Nodup

/-- A call that would record a pre-commit finds none of the voter for the proposal. -/
def Fresh [PyFloat F] (c : BFTConsensus F) : Operation F → Prop
  | .createPreCommit proposalHash _ =>
    (c.checkPreVoteThreshold proposalHash).1 = true →
      c.validatorId ∉ c.preCommits.voters proposalHash
  | .receivePreCommit vote =>
    c.Admits .preCommit c.preCommitChoices vote →
      vote.voterId ∉ c.preCommits.voters vote.proposalHash
  | _ => True

theorem unrepeated_init (validatorId : Bytes) (stake : ℤ) :
    (init validatorId stake : BFTConsensus F).Unrepeated :=
  fun _ => List.nodup_nil

theorem nodup_add {votes : VoteTable} {v : ConsensusVote}
    (hvotes : ∀ hash, ((votes.getD hash []).map ConsensusVote.voterId).Nodup)
    (hnew : v.voterId ∉ votes.voters v.proposalHash) (hash : Bytes) :
    (((votes.add v).getD hash []).map ConsensusVote.voterId).Nodup := by
  rw [VoteTable.getD_add]
  split_ifs with h
  · subst h
    rw [List.map_append, List.map_singleton, ← List.concat_eq_append]
    exact (hvotes _).concat fun hmem => hnew (List.mem_toFinset.mpr hmem)
  · exact hvotes hash

variable [PyFloat F]

theorem Unrepeated.effect {c c' : BFTConsensus F} {op : Operation F} (hc : c.Unrepeated)
    (hop : c.Fresh op) (h : Effect c op c') : c'.Unrepeated := by
  cases h with
  | start epoch roundNum => exact fun _ => List.nodup_nil
  | quiet same none =>
    intro hash
    rw [same.preCommits]
    exact hc hash
  | ownPreCommit proposalHash time threshold => exact nodup_add hc (hop threshold)
  | preCommit received admits => exact nodup_add hc (hop admits)
  | register | ownPreVote | preVote => exact hc

theorem unrepeated_of_run {validatorId : Bytes} {stake : ℤ} {ops : List (Operation F)}
    {c : BFTConsensus F}
    (h : Run (fun c op c' => Step c op c' ∧ c.Fresh op) (init validatorId stake) ops c) :
    c.Unrepeated := by
  refine h.invariant (I := Unrepeated) ?_ (unrepeated_init validatorId stake)
  intro c op c' hc hstep
  obtain ⟨rfl, hop⟩ := hstep
  exact hc.effect hop (effect_next c op)

/-- The reported support is the greatest support that the threshold check counts, and within the
total stake. -/
def ReportsCounted (c : BFTConsensus F) : Prop :=
  IsGreatest (Set.range fun hash => c.votedStake (c.preCommits.getD hash []))
    c.getConsensusStats.bestProposalSupport ∧
  c.getConsensusStats.bestProposalSupport ≤ c.getConsensusStats.totalStake

omit [PyFloat F] in
theorem recordedStake_of_mem {c : BFTConsensus F} (hc : c.Unrepeated)
    {entry : Bytes × List ConsensusVote} (hentry : entry ∈ c.preCommits.items) :
    c.recordedStake entry.2 = c.votedStake (c.preCommits.getD entry.1 []) := by
  have hget : c.preCommits.getD entry.1 [] = entry.2 := by
    rw [OrderedDict.getD, (OrderedDict.mem_items_iff _ _ _).mp hentry, Option.getD_some]
  have hnodup := hc entry.1
  rw [hget] at hnodup ⊢
  exact c.recordedStake_eq_votedStake hnodup

omit [PyFloat F] in
theorem exists_votedStake_eq_zero (c : BFTConsensus F) :
    ∃ hash, c.votedStake (c.preCommits.getD hash []) = 0 := by
  obtain ⟨hash, hhash⟩ := Infinite.exists_notMem_finset c.preCommits.keys.toFinset
  refine ⟨hash, ?_⟩
  rw [OrderedDict.getD_of_notMem_keys _ hhash]
  rfl

theorem Unrepeated.isGreatest {c : BFTConsensus F} (hc : c.Unrepeated) :
    IsGreatest (Set.range fun hash => c.votedStake (c.preCommits.getD hash []))
      c.getConsensusStats.bestProposalSupport := by
  let score := fun entry : Bytes × List ConsensusVote => c.recordedStake entry.2
  constructor
  · rcases Scan.best_eq_floor_or_mem score 0 c.preCommits.items with hzero | ⟨entry, hmem, hbest⟩
    · obtain ⟨hash, hhash⟩ := c.exists_votedStake_eq_zero
      exact ⟨hash, hhash.trans hzero.symm⟩
    · exact ⟨entry.1, (recordedStake_of_mem hc hmem).symm.trans hbest⟩
  · rintro support ⟨hash, rfl⟩
    cases hget : c.preCommits.get? hash with
    | none =>
      have hzero : c.votedStake (c.preCommits.getD hash []) = 0 := by
        rw [OrderedDict.getD, hget]
        rfl
      exact hzero.trans_le (Scan.floor_le_best score 0 c.preCommits.items)
    | some votes =>
      have hmem := (OrderedDict.mem_items_iff _ _ _).mpr hget
      exact (recordedStake_of_mem hc hmem).symm.trans_le (Scan.le_best score 0 hmem)

/-- In a run that records no voter twice for a proposal, the report is the count of the threshold
check, and with no negative stake it stays within the total. -/
theorem reportsCounted_of_run {validatorId : Bytes} {stake : ℤ} {ops : List (Operation F)}
    {c : BFTConsensus F}
    (h : Run (fun c op c' => Step c op c' ∧ c.Fresh op) (init validatorId stake) ops c)
    (hstake : ∀ v stake, c.validators.get? v = some stake → 0 ≤ stake) : c.ReportsCounted := by
  have hgreatest := (unrepeated_of_run h).isGreatest
  refine ⟨hgreatest, ?_⟩
  obtain ⟨hash, hhash⟩ := hgreatest.1
  have hinv : c.Inv := Reachable.inv ⟨validatorId, stake, ops, h.mono fun _ _ _ hstep => hstep.1⟩
  rw [← hhash]
  dsimp only
  rw [votedStake_eq_registeredStake]
  exact registeredStake_le_total hinv (getD_nonneg hstake) _

def voteFor (voteType : VoteType) (voterId proposalHash : Bytes) : ConsensusVote :=
  { voterId := voterId
    epoch := 0
    round := 0
    proposalHash := proposalHash
    voteType := voteType
    stake := 0
    timestamp := 0 }

/-- Validator 1 among three, before the first pre-commit reaches it. -/
def preVoted : BFTConsensus ℚ :=
  ((((init [1] 40).next (.registerValidator [2] 35)).next (.registerValidator [3] 25)).next
    (.createPreVote [7] 0)).next (.receivePreVote (voteFor .preVote [2] [7]))

/-- Two pre-commits for one proposal and one for another, the engine's own in between. -/
def splitVotes : List (Operation ℚ) :=
  [.receivePreCommit (voteFor .preCommit [3] [8]), .createPreCommit [7] 0,
    .receivePreCommit (voteFor .preCommit [2] [7])]

def threeVoters : BFTConsensus ℚ := splitVotes.foldl next preVoted

theorem reportsCounted_threeVoters :
    threeVoters.getConsensusStats.bestProposalSupport = 75 ∧ threeVoters.ReportsCounted := by
  have hpreVoted : Run (fun c op c' => Step c op c' ∧ c.Fresh op) (init [1] 40 : BFTConsensus ℚ)
      [.registerValidator [2] 35, .registerValidator [3] 25, .createPreVote [7] 0,
        .receivePreVote (voteFor .preVote [2] [7])] preVoted :=
    .cons ⟨rfl, trivial⟩ (.cons ⟨rfl, trivial⟩ (.cons ⟨rfl, trivial⟩ (.single ⟨rfl, trivial⟩)))
  have hsplit : Run (fun c op c' => Step c op c' ∧ c.Fresh op) preVoted splitVotes threeVoters := by
    refine .cons ⟨rfl, fun _ => ?_⟩ (.cons ⟨rfl, fun _ => ?_⟩ (.single ⟨rfl, fun _ => ?_⟩))
    · decide +kernel
    · decide +kernel
    · decide +kernel
  refine ⟨by decide +kernel, reportsCounted_of_run (hpreVoted.append hsplit) ?_⟩
  intro v stake hget
  have hmem := (OrderedDict.mem_items_iff _ v stake).mpr hget
  have hstakes : ∀ entry ∈ threeVoters.validators.items, 0 ≤ entry.2 := by decide +kernel
  exact hstakes _ hmem

/-- A validator alone on its registry, after its pre-vote and its pre-commit. -/
def soleVoter : BFTConsensus ℚ :=
  ((init [1] 100).next (.createPreVote [7] 0)).next (.createPreCommit [7] 0)

/-- Its pre-commit made a second time is reported with twice its stake. -/
theorem repeated_preCommit_reported :
    (soleVoter.next (.createPreCommit [7] 0)).Reachable ∧
    (soleVoter.next (.createPreCommit [7] 0)).getConsensusStats.bestProposalSupport = 200 ∧
    ¬ ∀ c : BFTConsensus ℚ, c.Reachable → c.ReportsCounted := by
  have hreach : (soleVoter.next (.createPreCommit [7] 0)).Reachable :=
    (((reachable_init [1] 100).next _).next _).next _
  have hbest : (soleVoter.next (.createPreCommit [7] 0)).getConsensusStats.bestProposalSupport =
      200 := by
    decide +kernel
  have htotal : (soleVoter.next (.createPreCommit [7] 0)).getConsensusStats.totalStake = 100 := by
    decide +kernel
  refine ⟨hreach, hbest, ?_⟩
  intro h
  have hle := (h _ hreach).2
  rw [hbest, htotal] at hle
  omega

end BFTConsensus

end Qrtb
