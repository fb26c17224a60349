import Qrtb.Consensus.ValidatorNode
import Qrtb.Lib.Quorum

/-!
# Honest parties among Byzantine voters

Parties with one registry make any calls in any order; the votes they receive in
the name of an honest party are votes of that party. A party may pre-vote for as
many proposals as it likes, so agreement does not rest on one vote for each
honest voter. It rests on the pre-commits: a party that pre-committed to two
proposals would have counted two sets of pre-votes with nobody in common but
itself. Two finalized proposals then share an honest pre-commit.
-/

namespace Qrtb

open PyFloat Transition

/-- A registry with the honest validators among it. The Byzantine ones hold less than a third of
the stake, and no honest one holds 34/100 alone. -/
structure Committee where
  registry : OrderedDict Bytes ℤ
  honest : Finset Bytes
  nonneg : ∀ v, 0 ≤ registry.getD v 0
  total_pos : 0 < registry.sumBy id
  byzantine : 3 * ∑ v ∈ registry.keys.toFinset \ honest, registry.getD v 0 < registry.sumBy id
  ownStake : ∀ v ∈ honest, 100 * registry.getD v 0 < 34 * registry.sumBy id

namespace Committee

variable (K : Committee)

def stake (v : Bytes) : ℤ := K.registry.getD v 0

def total : ℤ := K.registry.sumBy id

def members : Finset Bytes := K.registry.keys.toFinset

def IsQuorum (S : Finset Bytes) : Prop := 67 * K.total ≤ 100 * ∑ v ∈ S, K.stake v

theorem stake_eq_zero : ∀ v ∉ K.members, K.stake v = 0 :=
  fun _ hv => K.registry.getD_of_notMem_keys hv 0

theorem total_eq : K.total = ∑ v ∈ K.members, K.stake v := K.registry.sumBy_id_eq_sum_getD

variable {K} {S T : Finset Bytes}

theorem IsQuorum.mono (h : K.IsQuorum S) (hsub : S ⊆ T) : K.IsQuorum T := by
  have hle : ∑ v ∈ S, K.stake v ≤ ∑ v ∈ T, K.stake v :=
    Finset.sum_le_sum_of_subset_of_nonneg hsub fun v _ _ => K.nonneg v
  unfold IsQuorum at h ⊢
  omega

theorem IsQuorum.exists_honest (hS : K.IsQuorum S) (hT : K.IsQuorum T) :
    ∃ v ∈ K.honest, v ∈ S ∧ v ∈ T := by
  apply Quorum.exists_good_mem_inter (U := K.members) K.nonneg K.stake_eq_zero
  have hpos : 0 < K.total := K.total_pos
  have hbyzantine : 3 * ∑ v ∈ K.members \ K.honest, K.stake v < K.total := K.byzantine
  change ∑ v ∈ K.members, K.stake v + ∑ v ∈ K.members \ K.honest, K.stake v <
    ∑ v ∈ S, K.stake v + ∑ v ∈ T, K.stake v
  rw [← K.total_eq]
  unfold IsQuorum at hS hT
  omega

theorem IsQuorum.not_single (hS : K.IsQuorum S) (hT : K.IsQuorum T) {h : Bytes}
    (hh : h ∈ K.honest) : ¬ ∀ v ∈ S, v ∈ T → v = h := by
  intro hone
  have hle := Quorum.add_le_total_add_single (U := K.members) K.nonneg K.stake_eq_zero hone
  change ∑ v ∈ S, K.stake v + ∑ v ∈ T, K.stake v ≤
    ∑ v ∈ K.members, K.stake v + K.stake h at hle
  rw [← K.total_eq] at hle
  have hown : 100 * K.stake h < 34 * K.total := K.ownStake h hh
  unfold IsQuorum at hS hT
  omega

end Committee

variable {F : Type} [PyFloat F]

/-- The honest parties by their identity. -/
abbrev Network (F : Type) := Bytes → Party F

namespace Network

variable (K : Committee) (epoch : ℤ)

/-- A vote of the epoch that names an honest voter repeats one that the voter made. -/
def Authentic (N : Network F) (vote : ConsensusVote) : Prop :=
  vote.voterId ∈ K.honest → vote.epoch = epoch →
    ∃ own ∈ (N vote.voterId).votes, own.epoch = vote.epoch ∧ own.voteType = vote.voteType ∧
      own.proposalHash = vote.proposalHash

/-- The calls an honest party makes: the registry stands, the epoch is not started again, and
votes are authentic. -/
def Permitted (N : Network F) : BFTConsensus.Operation F → Prop
  | .registerValidator _ _ => False
  | .startRound epoch' _ => epoch' ≠ epoch
  | .receivePreVote vote => Authentic K epoch N vote
  | .receivePreCommit vote => Authentic K epoch N vote
  | _ => True

def Step (N : Network F) (label : Bytes × BFTConsensus.Operation F) (N' : Network F) : Prop :=
  label.1 ∈ K.honest ∧ Permitted K epoch N label.2 ∧
    N' = Function.update N label.1 ((N label.1).next label.2)

/-- The party pre-committed to a proposal in the epoch. -/
def Committed (N : Network F) (v hash : Bytes) : Prop :=
  ∃ vote ∈ (N v).votes, vote.voteType = .preCommit ∧ vote.epoch = epoch ∧ vote.proposalHash = hash

/-- What holds of an honest party at any time. -/
structure Sound (N : Network F) (h : Bytes) : Prop where
  identity : (N h).engine.validatorId = h
  registry : ∀ v, (N h).engine.validators.get? v = K.registry.get? v
  inv : (N h).engine.Inv
  oneChoice : (N h).engine.OneChoice
  /-- During the epoch every own pre-commit has its quorum of pre-votes in the table. -/
  supported : (N h).engine.currentEpoch = epoch → ∀ hash, Committed epoch N h hash →
    K.IsQuorum ((N h).engine.preVotes.voters hash)
  /-- The party pre-commits to one proposal at most. -/
  unique : ∀ hash hash', Committed epoch N h hash → Committed epoch N h hash' → hash = hash'
  recorded : (N h).engine.currentEpoch = epoch →
    ∀ hash, ∀ vote ∈ (N h).engine.preCommits.getD hash [], vote.voterId ∈ K.honest →
      Committed epoch N vote.voterId hash
  /-- A block of the epoch has a quorum whose honest members pre-committed to its proposal. -/
  decided : ∀ block ∈ (N h).blocks, block.epoch = epoch →
    ∃ hash S, block.proposal.proposalHash = .ok hash ∧ K.IsQuorum S ∧
      ∀ v ∈ S, v ∈ K.honest → Committed epoch N v hash

variable {K epoch} {N N' : Network F}

theorem Step.votes_subset {label : Bytes × BFTConsensus.Operation F}
    (hstep : Step K epoch N label N') (v : Bytes) : (N v).votes ⊆ (N' v).votes := by
  intro vote hvote
  rw [hstep.2.2]
  by_cases hv : v = label.1
  · subst hv
    rw [Function.update_self]
    exact List.mem_append_left _ hvote
  · rwa [Function.update_of_ne hv]

theorem Step.committed {label : Bytes × BFTConsensus.Operation F} (hstep : Step K epoch N label N')
    {v hash : Bytes} (h : Committed epoch N v hash) : Committed epoch N' v hash := by
  obtain ⟨vote, hvote, hrest⟩ := h
  exact ⟨vote, hstep.votes_subset v hvote, hrest⟩

theorem Step.permitted {label : Bytes × BFTConsensus.Operation F} (hstep : Step K epoch N label N')
    {op : BFTConsensus.Operation F} (hop : Permitted K epoch N op) : Permitted K epoch N' op := by
  have hauthentic : ∀ vote, Authentic K epoch N vote → Authentic K epoch N' vote := by
    intro vote h hhonest hepoch
    obtain ⟨own, hown, hrest⟩ := h hhonest hepoch
    exact ⟨own, hstep.votes_subset _ hown, hrest⟩
  cases op with
  | receivePreVote vote => exact hauthentic vote hop
  | receivePreCommit vote => exact hauthentic vote hop
  | _ => exact hop

theorem Sound.frame {label : Bytes × BFTConsensus.Operation F} (hstep : Step K epoch N label N')
    {h : Bytes} (hne : h ≠ label.1) (hs : Sound K epoch N h) : Sound K epoch N' h := by
  have hsame : N' h = N h := by rw [hstep.2.2, Function.update_of_ne hne]
  have hcommitted : ∀ hash, Committed epoch N' h hash ↔ Committed epoch N h hash := by
    intro hash
    rw [Committed, Committed, hsame]
  constructor
  · rw [hsame]
    exact hs.identity
  · rw [hsame]
    exact hs.registry
  · rw [hsame]
    exact hs.inv
  · rw [hsame]
    exact hs.oneChoice
  · rw [hsame]
    intro hepoch hash hc
    exact hs.supported hepoch hash ((hcommitted hash).mp hc)
  · intro hash hash' hc hc'
    exact hs.unique hash hash' ((hcommitted hash).mp hc) ((hcommitted hash').mp hc')
  · rw [hsame]
    intro hepoch hash vote hvote hhonest
    exact hstep.committed (hs.recorded hepoch hash vote hvote hhonest)
  · rw [hsame]
    intro block hblock hepoch
    obtain ⟨hash, S, hhash, hquorum, hS⟩ := hs.decided block hblock hepoch
    exact ⟨hash, S, hhash, hquorum, fun v hv hhonest => hstep.committed (hS v hv hhonest)⟩

theorem Sound.isQuorum (hexact : ThresholdExact F) {h : Bytes} (hs : Sound K epoch N h)
    {votes : List ConsensusVote} (ht : ((N h).engine.checkThreshold votes).1 = true) :
    K.IsQuorum (votes.map ConsensusVote.voterId).toFinset := by
  have htotal : (N h).engine.totalStake = K.total :=
    hs.inv.totalStake_eq.trans (OrderedDict.sumBy_congr id hs.registry)
  have hpos : 0 < (N h).engine.totalStake := htotal ▸ K.total_pos
  have hstake : ∀ S, (N h).engine.registeredStake S = ∑ v ∈ S, K.stake v := by
    intro S
    simp only [BFTConsensus.registeredStake, Committee.stake, OrderedDict.getD, hs.registry]
  rw [BFTConsensus.checkThreshold_iff hexact hpos, htotal, hstake] at ht
  exact ht

section Move

variable {h : Bytes} {op : BFTConsensus.Operation F}

theorem committed_next (N : Network F) (h : Bytes) (op : BFTConsensus.Operation F) {hash : Bytes}
    (hc : Committed epoch (Function.update N h ((N h).next op)) h hash) :
    Committed epoch N h hash ∨ ∃ vote ∈ (N h).engine.created op, vote.voteType = .preCommit ∧
      vote.epoch = epoch ∧ vote.proposalHash = hash := by
  obtain ⟨vote, hvote, hrest⟩ := hc
  rw [Function.update_self] at hvote
  rcases List.mem_append.mp hvote with hold | hnew
  · exact Or.inl ⟨vote, hold, hrest⟩
  · exact Or.inr ⟨vote, hnew, hrest⟩

theorem Permitted.not_start (hop : Permitted K epoch N op)
    (hepoch : ((N h).engine.next op).currentEpoch = epoch) (epoch' roundNum : ℤ) :
    op ≠ .startRound epoch' roundNum := by
  rintro rfl
  exact hop hepoch

theorem Sound.supported_next (hexact : ThresholdExact F) (hs : Sound K epoch N h)
    (hop : Permitted K epoch N op) (hepoch : ((N h).engine.next op).currentEpoch = epoch)
    {hash : Bytes} (hc : Committed epoch (Function.update N h ((N h).next op)) h hash) :
    K.IsQuorum (((N h).engine.next op).preVotes.voters hash) := by
  have heffect := (N h).engine.effect_next op
  obtain ⟨hsame, hgrows⟩ := heffect.grows (hop.not_start hepoch)
  rcases committed_next N h op hc with hold | ⟨vote, hvote, htype, -, rfl⟩
  · exact (hs.supported (hsame ▸ hepoch) hash hold).mono (hgrows hash)
  · obtain ⟨-, -, hthreshold⟩ := heffect.of_mem_created hvote
    exact (hs.isQuorum hexact (hthreshold htype)).mono (hgrows _)

theorem Sound.unique_next (hexact : ThresholdExact F) (hh : h ∈ K.honest)
    (hs : Sound K epoch N h) (hop : Permitted K epoch N op) {hash hash' : Bytes}
    (hc : Committed epoch (Function.update N h ((N h).next op)) h hash)
    (hc' : Committed epoch (Function.update N h ((N h).next op)) h hash') : hash = hash' := by
  have heffect := (N h).engine.effect_next op
  by_cases hepoch : ((N h).engine.next op).currentEpoch = epoch
  · -- both have a quorum of pre-votes in the table of one engine
    by_contra hne
    have hid : ((N h).engine.next op).validatorId = h := by
      rw [(heffect.registry _).1]
      · exact hs.identity
      · rintro _ _ rfl
        exact hop
    have hone := (hs.oneChoice.effect heffect).eq_of_mem_voters hne
    rw [hid] at hone
    exact (hs.supported_next hexact hop hepoch hc).not_single
      (hs.supported_next hexact hop hepoch hc') hh hone
  · have hold : ∀ hash, Committed epoch (Function.update N h ((N h).next op)) h hash →
        Committed epoch N h hash := by
      intro hash hc
      rcases committed_next N h op hc with hold | ⟨vote, hvote, -, hvoteEpoch, -⟩
      · exact hold
      · exfalso
        have hcurrent := (heffect.of_mem_created hvote).2.1
        apply hepoch
        rw [(heffect.grows _).1, ← hcurrent, hvoteEpoch]
        rintro _ _ rfl
        cases hvote
    exact hs.unique hash hash' (hold hash hc) (hold hash' hc')

theorem Sound.recorded_next (hs : Sound K epoch N h) (hstep : Step K epoch N (h, op) N')
    (hepoch : ((N h).engine.next op).currentEpoch = epoch) {hash : Bytes} {vote : ConsensusVote}
    (hvote : vote ∈ ((N h).engine.next op).preCommits.getD hash [])
    (hhonest : vote.voterId ∈ K.honest) : Committed epoch N' vote.voterId hash := by
  obtain ⟨-, hop, hN'⟩ := id hstep
  have heffect := (N h).engine.effect_next op
  have hsame := (heffect.grows (hop.not_start hepoch)).1
  rw [hsame] at hepoch
  rcases heffect.of_mem_preCommits hvote with
    ⟨hold, -⟩ | ⟨hown, htype, hhash⟩ | ⟨received, rfl, hid, hhash, hreceived, htype⟩
  · exact hstep.committed (hs.recorded hepoch hash vote hold hhonest)
  · obtain ⟨hid, hvoteEpoch, -⟩ := heffect.of_mem_created hown
    rw [hid, hs.identity]
    refine ⟨vote, ?_, htype, hvoteEpoch.trans hepoch, hhash⟩
    rw [hN', Function.update_self]
    exact List.mem_append_right _ hown
  · have hauthentic : Authentic K epoch N received := hop
    rw [← hid] at hhonest ⊢
    obtain ⟨own, hmem, hownEpoch, hownType, hownHash⟩ :=
      hauthentic hhonest (hreceived.trans hepoch)
    exact hstep.committed ⟨own, hmem, hownType.trans htype,
      hownEpoch.trans (hreceived.trans hepoch), hownHash.trans hhash⟩

theorem Sound.decided_next (hexact : ThresholdExact F) (hs : Sound K epoch N h)
    (hstep : Step K epoch N (h, op) N') {block : ConsensusBlock F}
    (hblock : block ∈ (N h).engine.finalized op) (hepoch : block.epoch = epoch) :
    ∃ hash S, block.proposal.proposalHash = .ok hash ∧ K.IsQuorum S ∧
      ∀ v ∈ S, v ∈ K.honest → Committed epoch N' v hash := by
  obtain ⟨hash, time, rfl, hthreshold, hproposal, hcurrent⟩ :=
    BFTConsensus.of_mem_finalized hblock
  refine ⟨hash, _, hs.inv.filed hash _ hproposal, hs.isQuorum hexact hthreshold, ?_⟩
  intro v hv hhonest
  obtain ⟨vote, hvote, rfl⟩ := VoteTable.mem_voters.mp hv
  exact hstep.committed (hs.recorded (hcurrent.symm.trans hepoch) hash vote hvote hhonest)

theorem Sound.move (hexact : ThresholdExact F) (hs : Sound K epoch N h)
    (hstep : Step K epoch N (h, op) N') : Sound K epoch N' h := by
  obtain ⟨hh, hop, hN'⟩ := id hstep
  have hself : N' h = (N h).next op := by rw [hN', Function.update_self]
  have heffect := (N h).engine.effect_next op
  have hregistry := heffect.registry (by rintro _ _ rfl; exact hop)
  constructor
  · rw [hself]
    exact hregistry.1.trans hs.identity
  · rw [hself]
    intro v
    rw [Party.next, hregistry.2.1, hs.registry]
  · rw [hself]
    exact hs.inv.next op
  · rw [hself]
    exact hs.oneChoice.effect heffect
  · rw [hself]
    intro hepoch hash hc
    exact hs.supported_next hexact hop hepoch (hN' ▸ hc)
  · intro hash hash' hc hc'
    exact hs.unique_next hexact hh hop (hN' ▸ hc) (hN' ▸ hc')
  · rw [hself]
    intro hepoch hash vote hvote hhonest
    exact hs.recorded_next hstep hepoch hvote hhonest
  · rw [hself]
    intro block hblock hepoch
    rcases List.mem_append.mp hblock with hold | hnew
    · obtain ⟨hash, S, hhash, hquorum, hS⟩ := hs.decided block hold hepoch
      exact ⟨hash, S, hhash, hquorum, fun v hv hhonest => hstep.committed (hS v hv hhonest)⟩
    · exact hs.decided_next hexact hstep hnew hepoch

end Move

theorem Sound.step (hexact : ThresholdExact F) {label : Bytes × BFTConsensus.Operation F}
    (hstep : Step K epoch N label N') (hs : ∀ h ∈ K.honest, Sound K epoch N h) :
    ∀ h ∈ K.honest, Sound K epoch N' h := by
  intro h hh
  by_cases hne : h = label.1
  · subst hne
    exact (hs label.1 hh).move hexact hstep
  · exact (hs h hh).frame hstep hne

omit [PyFloat F] in
theorem agreement_of_sound (hs : ∀ h ∈ K.honest, Sound K epoch N h) {h₁ h₂ : Bytes}
    (hh₁ : h₁ ∈ K.honest) (hh₂ : h₂ ∈ K.honest) {b₁ b₂ : ConsensusBlock F}
    (hb₁ : b₁ ∈ (N h₁).blocks) (hb₂ : b₂ ∈ (N h₂).blocks) (he₁ : b₁.epoch = epoch)
    (he₂ : b₂.epoch = epoch) : ∃ hash, b₁.proposal.proposalHash = .ok hash ∧
      b₂.proposal.proposalHash = .ok hash := by
  obtain ⟨hash₁, S₁, hhash₁, hquorum₁, hS₁⟩ := (hs h₁ hh₁).decided b₁ hb₁ he₁
  obtain ⟨hash₂, S₂, hhash₂, hquorum₂, hS₂⟩ := (hs h₂ hh₂).decided b₂ hb₂ he₂
  obtain ⟨v, hhonest, hv₁, hv₂⟩ := hquorum₁.exists_honest hquorum₂
  have heq := (hs v hhonest).unique hash₁ hash₂ (hS₁ v hv₁ hhonest) (hS₂ v hv₂ hhonest)
  exact ⟨hash₁, hhash₁, heq ▸ hhash₂⟩

end Network

end Qrtb
