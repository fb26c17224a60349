import Qrtb.Simulation.RoutedVoting
import Qrtb.Simulation.Voting

/-!
# What a message does to the voting of a node in a round

The nodes of a network take part in round zero of an epoch and hold one registry.
A node rejects no proposal of the selected validator and no vote for it by a
registered voter, whatever it has got before and in whatever order. It pre-votes with
the proposal; it pre-commits with every pre-vote once the threshold is met; and, when
it has the proposal, it finalizes with every pre-commit once the threshold is met.
-/

namespace Qrtb.Routed

open PyFloat BFTConsensus
open Testnet (EngineOf Heard Cast Selected Proposed)

/-- A supporting stake of 67/100 of the total passes, whatever is rounded. -/
def ThresholdReached (F : Type) [PyFloat F] : Prop :=
  ∀ supporting total : ℤ, 0 < total → 67 * total ≤ 100 * supporting →
    le (BFT_THRESHOLD : F) (divInt supporting total) = true

theorem thresholdReached_rat : ThresholdReached ℚ :=
  fun supporting total htotal => (thresholdExact_rat supporting total htotal).mpr

/-- A round among the members of a network. Without the proposer and any one other member the rest
holds 67/100 of the stake, and what is packed fits its eight bytes. -/
structure Round where
  registry : OrderedDict Bytes ℤ
  epoch : ℤ
  proposer : Bytes
  members : Finset Bytes
  packed : 0 ≤ epoch ∧ epoch < 256 ^ 8
  total : 0 < registry.values.sum ∧ registry.values.sum < 256 ^ 8
  nonneg : ∀ v, 0 ≤ registry.getD v 0
  selected : Selected registry epoch proposer
  proposes : proposer ∈ members
  known : ∀ v ∈ members, registry.contains v = true
  enough : ∀ w ∈ members, 67 * registry.values.sum ≤
    100 * ∑ v ∈ (members.erase proposer).erase w, registry.getD v 0

variable {F : Type} {R : Round} {hash vid : Bytes}

/-- An engine in the round whose table has no choice for another proposal. -/
structure Listening (R : Round) (hash vid : Bytes) (c : BFTConsensus F) : Prop where
  engine : EngineOf R.registry vid c
  epoch : c.currentEpoch = R.epoch
  round : c.currentRound = 0
  filed : ∀ p, c.receivedProposals.get? hash = some p → p.proposalHash = .ok hash
  preVotes : Heard hash [] c.preVotes c.preVoteChoices
  preCommits : Heard hash [] c.preCommits c.preCommitChoices

def informed (hash : Bytes) (c : BFTConsensus F) : Prop :=
  (c.receivedProposals.get? hash).isSome = true

def preVoters (hash : Bytes) (c : BFTConsensus F) : Finset Bytes := c.preVotes.voters hash

def preCommitters (hash : Bytes) (c : BFTConsensus F) : Finset Bytes := c.preCommits.voters hash

/-- The node has a block of the epoch over the proposal. -/
def Decided (R : Round) (hash : Bytes) (blocks : List (ConsensusBlock F)) : Prop :=
  ∃ b ∈ blocks, b.epoch = R.epoch ∧ b.proposal.proposalHash = .ok hash

/-- The engine listens on and has forgotten nothing. -/
structure Advances (R : Round) (hash vid : Bytes) (c c' : BFTConsensus F) : Prop where
  listening : Listening R hash vid c'
  informed : informed hash c → informed hash c'
  preVoters : preVoters hash c ⊆ preVoters hash c'
  preCommitters : preCommitters hash c ⊆ preCommitters hash c'

theorem mem_voters_add (votes : VoteTable) (vote : ConsensusVote)
    (h : vote.proposalHash = hash) (v : Bytes) :
    v ∈ (votes.add vote).voters hash ↔ v ∈ votes.voters hash ∨ v = vote.voterId := by
  simp only [VoteTable.mem_voters, VoteTable.mem_getD_add, h]
  constructor
  · rintro ⟨u, hu | ⟨-, rfl⟩, rfl⟩
    · exact Or.inl ⟨u, hu, rfl⟩
    · exact Or.inr rfl
  · rintro (⟨u, hu, rfl⟩ | rfl)
    · exact ⟨u, Or.inl hu, rfl⟩
    · exact ⟨vote, Or.inr ⟨trivial, rfl⟩, rfl⟩

theorem heard_add {votes : VoteTable} {choices : OrderedDict Bytes Bytes}
    (h : Heard hash [] votes choices) (vote : ConsensusVote) (hvote : vote.proposalHash = hash) :
    Heard hash [] (votes.add vote) choices :=
  (h.add vote hvote).subset (List.forall_mem_nil _)

namespace Listening

variable {c : BFTConsensus F}

theorem selectedProposer (hc : Listening R hash vid c) :
    c.selectedProposer = .ok (some R.proposer) := by
  have hround : 0 ≤ (0 : ℤ) ∧ (0 : ℤ) < 256 ^ 8 := ⟨le_rfl, by decide⟩
  rw [(hc.engine.holds hc.epoch hc.round).selectedProposer R.total.1 R.packed hround]
  exact congrArg Except.ok R.selected

theorem checkProposal (hc : Listening R hash vid c) {p : ConsensusProposal F}
    (hp : Proposed R.epoch R.proposer hash p) : c.checkProposal p = .ok hash := by
  have hexpected : c.expectedProposer = .ok (some R.proposer) :=
    ((hc.engine.holds hc.epoch hc.round).expectedProposer R.total.1).trans hc.selectedProposer
  have hknown : R.registry.contains R.proposer = true := R.known _ R.proposes
  simp only [BFTConsensus.checkProposal, Except.bind_eq_ok, Check.rejectIf_eq_ok, Check.lift_eq_ok,
    exists_const, not_not, hexpected, Except.ok.injEq]
  exact ⟨hp.epoch.trans hc.epoch.symm, hp.round.trans hc.round.symm,
    by simpa [hp.proposerId, hc.engine.contains] using hknown, _, rfl, by simp [hp.proposerId],
    hp.proposalHash⟩

variable [PyFloat F]

theorem checkThreshold (hc : Listening R hash vid c) (hreached : ThresholdReached F)
    {votes : VoteTable}
    (hstake : 67 * R.registry.values.sum ≤ 100 * ∑ v ∈ votes.voters hash, R.registry.getD v 0) :
    (c.checkThreshold (votes.getD hash [])).1 = true := by
  have hvoted : c.votedStake (votes.getD hash []) =
      ∑ v ∈ votes.voters hash, R.registry.getD v 0 := by
    rw [votedStake_eq_registeredStake]
    refine Finset.sum_congr rfl fun v _ => ?_
    rw [OrderedDict.getD, OrderedDict.getD, hc.engine.validators]
  simp only [BFTConsensus.checkThreshold, hc.engine.totalStake, gt_iff_lt, R.total.1, if_true,
    hvoted]
  exact hreached _ _ R.total.1 hstake

theorem ownVote (hc : Listening R hash vid c) (voteType : VoteType) (time : F) :
    Cast R.registry R.epoch hash voteType vid (c.ownVote voteType hash time) :=
  ⟨hc.engine.validatorId, hc.engine.known, hc.epoch, rfl, rfl⟩

/-- A proposal that is filed with the threshold met is finalized, when the time can be packed. -/
theorem tryFinalize (hc : Listening R hash vid c) (hreached : ThresholdReached F)
    (hinformed : informed hash c)
    (hstake : 67 * R.registry.values.sum ≤
      100 * ∑ v ∈ preCommitters hash c, R.registry.getD v 0) {time : F}
    (htime : 0 ≤ milliseconds time ∧ milliseconds time < 256 ^ 8) :
    ∃ block, (c.tryFinalize hash time).1 = .ok (some block) ∧ Decided R hash [block] := by
  obtain ⟨proposal, hget⟩ := Option.isSome_iff_exists.mp hinformed
  have hthreshold : (c.checkPreCommitThreshold hash).1 = true := hc.checkThreshold hreached hstake
  have hsupport : (c.blockOver hash proposal time).supportingStake =
      ∑ v ∈ preCommitters hash c, R.registry.getD v 0 := by
    rw [supportingStake_blockOver]
    refine Finset.sum_congr rfl fun v _ => ?_
    rw [OrderedDict.getD, OrderedDict.getD, hc.engine.validators]
  have hbound : ∑ v ∈ preCommitters hash c, R.registry.getD v 0 ≤ R.registry.values.sum := by
    have hsum := R.registry.sumBy_id_eq_sum_getD
    rw [OrderedDict.sumBy, List.map_id] at hsum
    rw [hsum]
    exact Quorum.sum_le_total R.nonneg (fun v hv => R.registry.getD_of_notMem_keys hv 0) _
  have hbytes := (c.blockOver hash proposal time).hashedBytes_eq_ok.mpr
    ⟨hash, hc.filed _ hget, by
      rw [show (c.blockOver hash proposal time).totalStake = R.registry.values.sum from
        hc.engine.totalStake]
      exact ⟨R.total.1.le, R.total.2⟩, by
      rw [hsupport]
      exact ⟨Finset.sum_nonneg fun v _ => R.nonneg v, hbound.trans_lt R.total.2⟩, htime, rfl⟩
  obtain ⟨block, hblock, hepoch, rfl⟩ : ∃ block, (c.blockOver hash proposal time).postInit =
      .ok block ∧ block.epoch = c.currentEpoch ∧ block.proposal = proposal :=
    ⟨_, (ConsensusBlock.postInit_eq_ok _).mpr ⟨_, hbytes, rfl⟩, rfl, rfl⟩
  refine ⟨block, ?_, block, List.mem_singleton_self _, hepoch.trans hc.epoch, hc.filed _ hget⟩
  simp only [BFTConsensus.tryFinalize, hthreshold, hget, Bool.true_eq_false, if_false, hblock]

end Listening

section

variable {c c' c'' : BFTConsensus F}

theorem Advances.trans (h : Advances R hash vid c c') (h' : Advances R hash vid c' c'') :
    Advances R hash vid c c'' :=
  ⟨h'.listening, fun hi => h'.informed (h.informed hi), fun _ hv => h'.preVoters (h.preVoters hv),
    fun _ hv => h'.preCommitters (h.preCommitters hv)⟩

theorem Listening.same (hc : Listening R hash vid c) (hid : c'.validatorId = c.validatorId)
    (hvalidators : c'.validators = c.validators) (htotal : c'.totalStake = c.totalStake)
    (hepoch : c'.currentEpoch = c.currentEpoch) (hround : c'.currentRound = c.currentRound)
    (hproposals : c'.receivedProposals = c.receivedProposals)
    (hpreVotes : c'.preVotes = c.preVotes ∧ c'.preVoteChoices = c.preVoteChoices)
    (hpreCommits : c'.preCommits = c.preCommits ∧ c'.preCommitChoices = c.preCommitChoices) :
    Advances R hash vid c c' := by
  refine ⟨⟨hc.engine.congr hid hvalidators htotal, hepoch.trans hc.epoch, hround.trans hc.round,
    hproposals ▸ hc.filed, ?_, ?_⟩, ?_, ?_, ?_⟩
  · rw [hpreVotes.1, hpreVotes.2]
    exact hc.preVotes
  · rw [hpreCommits.1, hpreCommits.2]
    exact hc.preCommits
  · rw [informed, informed, hproposals]
    exact fun h => h
  · rw [preVoters, preVoters, hpreVotes.1]
  · rw [preCommitters, preCommitters, hpreCommits.1]

theorem Listening.refl (hc : Listening R hash vid c) : Advances R hash vid c c :=
  hc.same rfl rfl rfl rfl rfl rfl ⟨rfl, rfl⟩ ⟨rfl, rfl⟩

theorem Listening.file (hc : Listening R hash vid c) {p : ConsensusProposal F}
    (hp : p.proposalHash = .ok hash) :
    Advances R hash vid c { c with receivedProposals := c.receivedProposals.set hash p } := by
  refine ⟨⟨hc.engine.congr rfl rfl rfl, hc.epoch, hc.round, ?_, hc.preVotes, hc.preCommits⟩,
    fun _ => ?_, fun _ h => h, fun _ h => h⟩
  · intro p' hp'
    rw [OrderedDict.get?_set_self] at hp'
    obtain rfl := Option.some.inj hp'
    exact hp
  · rw [informed, OrderedDict.get?_set_self, Option.isSome_some]

/-- A pre-vote for the proposal is recorded, with a choice or, being the own one, without. -/
theorem Listening.addPreVote (hc : Listening R hash vid c) (vote : ConsensusVote)
    (hvote : vote.proposalHash = hash) {choices : OrderedDict Bytes Bytes}
    (hchoices : choices = c.preVoteChoices ∨ ∃ voter, choices = c.preVoteChoices.set voter hash) :
    Advances R hash vid c
      { c with preVoteChoices := choices, preVotes := c.preVotes.add vote } := by
  have hheard : Heard hash [] (c.preVotes.add vote) choices := by
    rcases hchoices with rfl | ⟨voter, rfl⟩
    · exact heard_add hc.preVotes vote hvote
    · exact (heard_add hc.preVotes vote hvote).choose voter
  exact ⟨⟨hc.engine.congr rfl rfl rfl, hc.epoch, hc.round, hc.filed, hheard, hc.preCommits⟩,
    fun h => h, VoteTable.voters_subset_add .., fun _ h => h⟩

theorem Listening.addPreCommit (hc : Listening R hash vid c) (vote : ConsensusVote)
    (hvote : vote.proposalHash = hash) (phase : ConsensusPhase) {choices : OrderedDict Bytes Bytes}
    (hchoices : choices = c.preCommitChoices ∨ ∃ voter, choices = c.preCommitChoices.set voter hash) :
    Advances R hash vid c
      { c with preCommitChoices := choices, preCommits := c.preCommits.add vote, phase := phase } := by
  have hheard : Heard hash [] (c.preCommits.add vote) choices := by
    rcases hchoices with rfl | ⟨voter, rfl⟩
    · exact heard_add hc.preCommits vote hvote
    · exact (heard_add hc.preCommits vote hvote).choose voter
  exact ⟨⟨hc.engine.congr rfl rfl rfl, hc.epoch, hc.round, hc.filed, hc.preVotes, hheard⟩,
    fun h => h, fun _ h => h, VoteTable.voters_subset_add ..⟩

end

/-- A vote of the node goes to all its peers. -/
def Announced (R : Round) (hash vid : Bytes) (voteType : VoteType)
    (n n' : Qrtb.ValidatorNode F) : Prop :=
  ∃ vote, Cast R.registry R.epoch hash voteType vid vote ∧
    n'.outbox = n.outbox ++ n.peers.map fun peer => (peer, .vote vote)

/-- What the proposal does: of the pre-votes it adds the own one. -/
structure AfterProposal (R : Round) (hash vid : Bytes) (n n' : Qrtb.ValidatorNode F) : Prop where
  advances : Advances R hash vid n.consensus n'.consensus
  informed : informed hash n'.consensus
  preVoters : ∀ v ∈ preVoters hash n'.consensus, v = vid ∨ v ∈ preVoters hash n.consensus
  blocks : n'.blocksFinalized = n.blocksFinalized
  peers : n'.peers = n.peers
  announced : Announced R hash vid .preVote n n'

/-- What a pre-vote does. -/
structure AfterPreVote (R : Round) (hash vid voter : Bytes) (n n' : Qrtb.ValidatorNode F) :
    Prop where
  advances : Advances R hash vid n.consensus n'.consensus
  proposals : n'.consensus.receivedProposals = n.consensus.receivedProposals
  recorded : voter ∈ preVoters hash n'.consensus
  blocks : n'.blocksFinalized = n.blocksFinalized
  peers : n'.peers = n.peers
  out : n'.outbox = n.outbox ∨ Announced R hash vid .preCommit n n'
  enough : 67 * R.registry.values.sum ≤
    100 * ∑ v ∈ Routed.preVoters hash n'.consensus, R.registry.getD v 0 →
      Announced R hash vid .preCommit n n'

/-- What a pre-commit does. -/
structure AfterPreCommit (R : Round) (hash vid voter : Bytes) (n n' : Qrtb.ValidatorNode F) :
    Prop where
  advances : Advances R hash vid n.consensus n'.consensus
  proposals : n'.consensus.receivedProposals = n.consensus.receivedProposals
  preVotes : n'.consensus.preVotes = n.consensus.preVotes
  recorded : voter ∈ preCommitters hash n'.consensus
  blocks : n.blocksFinalized ⊆ n'.blocksFinalized
  peers : n'.peers = n.peers
  out : n'.outbox = n.outbox
  enough : Routed.informed hash n.consensus → 67 * R.registry.values.sum ≤
    100 * ∑ v ∈ preCommitters hash n'.consensus, R.registry.getD v 0 →
      Decided R hash n'.blocksFinalized

variable [PyFloat F] {n : Qrtb.ValidatorNode F}

theorem proposal_effect (hn : Listening R hash vid n.consensus) {p : ConsensusProposal F}
    (hp : Proposed R.epoch R.proposer hash p) (time : F) :
    AfterProposal R hash vid n (n.receiveProposal p time).2 := by
  have hfile := hn.file hp.proposalHash
  have hvote := hfile.listening.ownVote .preVote time
  have hresult : (n.receiveProposal p time).2 =
      { n with consensus := (createPreVote hash time { n.consensus with
          receivedProposals := n.consensus.receivedProposals.set hash p }).2 }.castVote
        (ownVote .preVote hash time { n.consensus with
          receivedProposals := n.consensus.receivedProposals.set hash p }) := by
    simp only [Qrtb.ValidatorNode.receiveProposal,
      receiveProposal_of_checkProposal (hn.checkProposal hp), hp.proposalHash, createPreVote]
  rw [hresult]
  constructor
  · exact hfile.trans (hfile.listening.addPreVote _ rfl (Or.inl rfl))
  · have hget := OrderedDict.get?_set_self n.consensus.receivedProposals hash p
    exact Option.isSome_iff_exists.mpr ⟨p, hget⟩
  · intro v hv
    rcases (mem_voters_add _ _ rfl v).mp hv with hold | rfl
    · exact Or.inr hold
    · exact Or.inl hvote.voterId
  · rfl
  · rfl
  · exact ⟨_, hvote, rfl⟩

theorem preCommits_of_enough (hn : Listening R hash vid n.consensus) (hreached : ThresholdReached F)
    (time : F) :
    let n' := Qrtb.ValidatorNode.afterPreVote hash time n
    Advances R hash vid n.consensus n'.consensus ∧
      n'.consensus.receivedProposals = n.consensus.receivedProposals ∧
      n'.consensus.preVotes = n.consensus.preVotes ∧
      n'.blocksFinalized = n.blocksFinalized ∧ n'.peers = n.peers ∧
      (n'.outbox = n.outbox ∨ Announced R hash vid .preCommit n n') ∧
      (67 * R.registry.values.sum ≤
        100 * ∑ v ∈ preVoters hash n.consensus, R.registry.getD v 0 →
          Announced R hash vid .preCommit n n') := by
  intro n'
  rcases n.consensus.createPreCommit_cases hash time with
    ⟨hthreshold, -⟩ | ⟨hthreshold, hcreate⟩
  · have hsame : n' = n := by
      simp only [n', Qrtb.ValidatorNode.afterPreVote, hthreshold, Bool.false_eq_true, if_false]
    rw [hsame]
    refine ⟨hn.refl, rfl, rfl, rfl, rfl, Or.inl rfl, fun hstake => ?_⟩
    have hmet : (n.consensus.checkPreVoteThreshold hash).1 = true :=
      hn.checkThreshold hreached hstake
    rw [hthreshold] at hmet
    cases hmet
  · have hcast : n' = { n with consensus := (n.consensus.createPreCommit hash time).2 }.castVote
        (n.consensus.ownVote .preCommit hash time) := by
      simp only [n', Qrtb.ValidatorNode.afterPreVote, hthreshold, if_true, hcreate]
    have hannounced : Announced R hash vid .preCommit n n' := by
      rw [hcast]
      exact ⟨_, hn.ownVote .preCommit time, rfl⟩
    have hconsensus : n'.consensus = { n.consensus with
        preCommits := n.consensus.preCommits.add (n.consensus.ownVote .preCommit hash time)
        phase := .preCommit } := by
      rw [hcast, hcreate]
      rfl
    refine ⟨?_, ?_, ?_, ?_, ?_, Or.inr hannounced, fun _ => hannounced⟩
    · rw [hconsensus]
      exact hn.addPreCommit _ rfl _ (Or.inl rfl)
    · rw [hconsensus]
    · rw [hconsensus]
    · rw [hcast]
      rfl
    · rw [hcast]
      rfl

theorem preVote_effect (hn : Listening R hash vid n.consensus) (hreached : ThresholdReached F)
    {vote : ConsensusVote} {voter : Bytes} (hvote : Cast R.registry R.epoch hash .preVote voter vote)
    (time : F) : AfterPreVote R hash vid voter n (n.receiveVote vote time).2 := by
  obtain ⟨c, hadd, hrecorded, hfiled, hresult⟩ : ∃ c, Advances R hash vid n.consensus c ∧
      voter ∈ preVoters hash c ∧ c.receivedProposals = n.consensus.receivedProposals ∧
      (n.receiveVote vote time).2 =
        Qrtb.ValidatorNode.afterPreVote hash time { n with consensus := c } := by
    have hadmits := hvote.admits hn.engine hn.epoch hn.preVotes.choices
    refine ⟨_, hn.addPreVote (n.consensus.withRegisteredStake vote) hvote.proposalHash
      (Or.inr ⟨vote.voterId, rfl⟩), ?_, rfl, ?_⟩
    · exact (mem_voters_add n.consensus.preVotes (n.consensus.withRegisteredStake vote)
        hvote.proposalHash voter).mpr (Or.inr hvote.voterId.symm)
    · simp only [Qrtb.ValidatorNode.receiveVote, hvote.voteType, receivePreVote_of_admits hadmits,
        hvote.proposalHash]
  obtain ⟨hadvances, hproposals, hpreVotes, hblocks, hpeers, hout, henough⟩ :=
    preCommits_of_enough (n := { n with consensus := c }) hadd.listening hreached time
  rw [hresult]
  refine ⟨hadd.trans hadvances, hproposals.trans hfiled, hadvances.preVoters hrecorded, hblocks,
    hpeers, hout, fun hstake => henough ?_⟩
  rw [preVoters, hpreVotes] at hstake
  exact hstake

theorem finalizes_of_enough (hn : Listening R hash vid n.consensus) (hreached : ThresholdReached F)
    {time : F} (htime : 0 ≤ milliseconds time ∧ milliseconds time < 256 ^ 8) :
    let n' := (n.afterPreCommit hash time).2
    Advances R hash vid n.consensus n'.consensus ∧
      n'.consensus.receivedProposals = n.consensus.receivedProposals ∧
      n'.consensus.preVotes = n.consensus.preVotes ∧
      n'.consensus.preCommits = n.consensus.preCommits ∧
      n.blocksFinalized ⊆ n'.blocksFinalized ∧ n'.peers = n.peers ∧ n'.outbox = n.outbox ∧
      (informed hash n.consensus → 67 * R.registry.values.sum ≤
        100 * ∑ v ∈ preCommitters hash n.consensus, R.registry.getD v 0 →
          Decided R hash n'.blocksFinalized) := by
  intro n'
  cases hthreshold : (n.consensus.checkPreCommitThreshold hash).1 with
  | false =>
    have hsame : n' = n := by
      simp only [n', Qrtb.ValidatorNode.afterPreCommit, hthreshold, Bool.false_eq_true, if_false]
    rw [hsame]
    refine ⟨hn.refl, rfl, rfl, rfl, fun _ h => h, rfl, rfl, fun _ hstake => ?_⟩
    have hmet : (n.consensus.checkPreCommitThreshold hash).1 = true :=
      hn.checkThreshold hreached hstake
    rw [hthreshold] at hmet
    cases hmet
  | true =>
    rcases n.consensus.tryFinalize_cases hash time with
      ⟨r, hfinalize, hnone⟩ | ⟨proposal, block, -, -, -, hfinalize⟩
    · have hsame : n' = n := by
        simp only [n', Qrtb.ValidatorNode.afterPreCommit, hthreshold, if_true, hfinalize]
        rcases r with e | _ | block
        · rfl
        · rfl
        · exact absurd rfl (hnone block)
      rw [hsame]
      refine ⟨hn.refl, rfl, rfl, rfl, fun _ h => h, rfl, rfl, fun hinformed hstake => ?_⟩
      obtain ⟨block, hblock, -⟩ := hn.tryFinalize hreached hinformed hstake htime
      rw [hfinalize] at hblock
      exact absurd hblock (hnone block)
    · have hresult : n' = { n with consensus := (n.consensus.tryFinalize hash time).2
          }.onBlockFinalized block := by
        simp only [n', Qrtb.ValidatorNode.afterPreCommit, hthreshold, if_true, hfinalize]
      have hconsensus : n'.consensus = (n.consensus.tryFinalize hash time).2 := by
        rw [hresult]
        rfl
      have hblocks : n'.blocksFinalized = n.blocksFinalized ++ [block] := by
        rw [hresult]
        rfl
      rw [hfinalize] at hconsensus
      refine ⟨?_, ?_, ?_, ?_, ?_, ?_, ?_, fun hinformed hstake => ?_⟩
      · rw [hconsensus]
        exact hn.same rfl rfl rfl rfl rfl rfl ⟨rfl, rfl⟩ ⟨rfl, rfl⟩
      · rw [hconsensus]
      · rw [hconsensus]
      · rw [hconsensus]
      · rw [hblocks]
        exact fun _ h => List.mem_append_left _ h
      · rw [hresult]
        rfl
      · rw [hresult]
        rfl
      · obtain ⟨block', hblock', b, hb, hdecided⟩ := hn.tryFinalize hreached hinformed hstake htime
        rw [hfinalize] at hblock'
        obtain rfl := Option.some.inj (Except.ok.inj hblock')
        rw [hblocks]
        exact ⟨b, List.mem_append_right _ hb, hdecided⟩

theorem preCommit_effect (hn : Listening R hash vid n.consensus) (hreached : ThresholdReached F)
    {vote : ConsensusVote} {voter : Bytes}
    (hvote : Cast R.registry R.epoch hash .preCommit voter vote) {time : F}
    (htime : 0 ≤ milliseconds time ∧ milliseconds time < 256 ^ 8) :
    AfterPreCommit R hash vid voter n (n.receiveVote vote time).2 := by
  obtain ⟨c, hadd, hrecorded, hfiled, hvotes, hresult⟩ : ∃ c, Advances R hash vid n.consensus c ∧
      voter ∈ preCommitters hash c ∧ c.receivedProposals = n.consensus.receivedProposals ∧
      c.preVotes = n.consensus.preVotes ∧ (n.receiveVote vote time).2 =
        (Qrtb.ValidatorNode.afterPreCommit hash time { n with consensus := c }).2 := by
    have hadmits := hvote.admits hn.engine hn.epoch hn.preCommits.choices
    refine ⟨_, hn.addPreCommit (n.consensus.withRegisteredStake vote) hvote.proposalHash
      n.consensus.phase (Or.inr ⟨vote.voterId, rfl⟩), ?_, rfl, rfl, ?_⟩
    · exact (mem_voters_add n.consensus.preCommits (n.consensus.withRegisteredStake vote)
        hvote.proposalHash voter).mpr (Or.inr hvote.voterId.symm)
    · simp only [Qrtb.ValidatorNode.receiveVote, hvote.voteType, receivePreCommit_of_admits hadmits,
        hvote.proposalHash]
  obtain ⟨hadvances, hproposals, hpreVotes, hpreCommits, hblocks, hpeers, hout, henough⟩ :=
    finalizes_of_enough (n := { n with consensus := c }) hadd.listening hreached htime
  rw [hresult]
  refine ⟨hadd.trans hadvances, hproposals.trans hfiled, hpreVotes.trans hvotes,
    hadvances.preCommitters hrecorded, hblocks, hpeers, hout, fun hinformed hstake =>
      henough ?_ ?_⟩
  · rw [informed, hfiled]
    exact hinformed
  · rw [preCommitters, hpreCommits] at hstake
    exact hstake

end Qrtb.Routed
