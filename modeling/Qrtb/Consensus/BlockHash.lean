import Qrtb.Consensus.BFT

/-!
# When finalizing nodes agree on the block hash

A block hash covers the proposal hash, the total stake, the stake behind the
recorded pre-commits and the millisecond of finalization. The first two are
common to nodes with one registry that finalize one proposal. The last two are
what a node happens to have received and when it looked.
-/

namespace Qrtb

open Keccak PyFloat

namespace BFTConsensus

variable {F : Type} [PyFloat F]

/-- The bytes under the hash of a block that a reachable engine finalizes. -/
theorem hashedBytes_of_tryFinalize {c : BFTConsensus F} (hc : c.Reachable) {hash : Bytes} {time : F}
    {b : ConsensusBlock F} (hb : (c.tryFinalize hash time).1 = .ok (some b)) :
    ∃ data, b.hashedBytes = .ok data ∧ b.blockHash = sha3_256 data ∧
      (0 ≤ c.registeredStake (c.supporters hash) ∧
        c.registeredStake (c.supporters hash) < 256 ^ 8) ∧
      (0 ≤ milliseconds time ∧ milliseconds time < 256 ^ 8) ∧
      data = hash ++ (Bytes.bigEndian 8 (c.validators.sumBy id).toNat ++
        (Bytes.bigEndian 8 (c.registeredStake (c.supporters hash)).toNat ++
          Bytes.bigEndian 8 (milliseconds time).toNat)) := by
  obtain ⟨proposal, -, hproposal, hblock⟩ := tryFinalize_eq_ok_some hb
  obtain ⟨data, hdata, rfl⟩ := (ConsensusBlock.postInit_eq_ok _).mp hblock
  obtain ⟨h, hh, -, hs, hm, hbytes⟩ := (ConsensusBlock.hashedBytes_eq_ok _).mp hdata
  have hfiled : proposal.proposalHash = .ok hash := hc.inv.filed hash proposal hproposal
  obtain rfl : h = hash := Except.ok.inj (hh.symm.trans hfiled)
  have htotal : (c.blockOver h proposal time).totalStake = c.validators.sumBy id :=
    hc.inv.totalStake_eq
  rw [supportingStake_blockOver] at hs hbytes
  rw [htotal] at hbytes
  exact ⟨data, hdata, rfl, hs, hm, hbytes⟩

/-- Threshold and proposal are enough, as long as the numbers of the block fit their width. -/
theorem exists_block_of_tryFinalize {c : BFTConsensus F} (hc : c.Reachable) {hash : Bytes} {time : F}
    (hthreshold : (c.checkPreCommitThreshold hash).1 = true)
    (hproposal : (c.receivedProposals.get? hash).isSome)
    (htotal : 0 ≤ c.validators.sumBy id ∧ c.validators.sumBy id < 256 ^ 8)
    (hstake : 0 ≤ c.registeredStake (c.supporters hash) ∧
      c.registeredStake (c.supporters hash) < 256 ^ 8)
    (htime : 0 ≤ milliseconds time ∧ milliseconds time < 256 ^ 8) :
    ∃ b, (c.tryFinalize hash time).1 = .ok (some b) := by
  obtain ⟨proposal, hproposal⟩ := Option.isSome_iff_exists.mp hproposal
  have hfiled := hc.inv.filed hash proposal hproposal
  rw [← hc.inv.totalStake_eq] at htotal
  rw [← supportingStake_blockOver hash proposal time] at hstake
  have hbytes := (c.blockOver hash proposal time).hashedBytes_eq_ok.mpr
    ⟨hash, hfiled, htotal, hstake, htime, rfl⟩
  have hblock := (ConsensusBlock.postInit_eq_ok _).mpr ⟨_, hbytes, rfl⟩
  simp [tryFinalize, hthreshold, hproposal, hblock]

/-- Two nodes with one registry that finalize one proposal agree on the block hash exactly when
their pre-commits carry the same stake and they finalize in the same millisecond, or else two
different byte strings collide. -/
theorem finalized_blockHash_eq_iff {c₁ c₂ : BFTConsensus F} (h₁ : c₁.Reachable) (h₂ : c₂.Reachable)
    (hregistry : ∀ v, c₁.validators.get? v = c₂.validators.get? v) {hash : Bytes}
    {time₁ time₂ : F} {b₁ b₂ : ConsensusBlock F}
    (hb₁ : (c₁.tryFinalize hash time₁).1 = .ok (some b₁))
    (hb₂ : (c₂.tryFinalize hash time₂).1 = .ok (some b₂)) :
    b₁.blockHash = b₂.blockHash ↔
      (c₁.registeredStake (c₁.supporters hash) = c₂.registeredStake (c₂.supporters hash) ∧
        milliseconds time₁ = milliseconds time₂) ∨
      ∃ m n, b₁.hashedBytes = .ok m ∧ b₂.hashedBytes = .ok n ∧ Collision m n := by
  obtain ⟨m, hm, hblock₁, hs₁, ht₁, em⟩ := hashedBytes_of_tryFinalize h₁ hb₁
  obtain ⟨n, hn, hblock₂, hs₂, ht₂, en⟩ := hashedBytes_of_tryFinalize h₂ hb₂
  have hsame : m = n ↔
      c₁.registeredStake (c₁.supporters hash) = c₂.registeredStake (c₂.supporters hash) ∧
        milliseconds time₁ = milliseconds time₂ := by
    rw [em, en, OrderedDict.sumBy_congr id hregistry, List.append_cancel_left_eq,
      List.append_cancel_left_eq]
    constructor
    · intro h
      obtain ⟨hs, ht⟩ := List.append_inj h (by simp)
      have hs' := Bytes.bigEndian_inj (by omega) (by omega) hs
      have ht' := Bytes.bigEndian_inj (by omega) (by omega) ht
      omega
    · intro h
      rw [h.1, h.2]
  have hcollides : (∃ m n, b₁.hashedBytes = .ok m ∧ b₂.hashedBytes = .ok n ∧ Collision m n) ↔
      Collision m n := by
    simp [hm, hn]
  rw [hblock₁, hblock₂, sha3_256_eq_iff, hsame, hcollides]

/-- With 70 of 100 units of stake the proposer pre-votes and pre-commits alone, which is enough; the
voter receives proposal and pre-commit. -/
def proposerId : Bytes := List.replicate 32 1
def voterId : Bytes := List.replicate 32 2

/-- The proposal of the proposer in round zero, over no measurements. -/
def roundProposal : ConsensusProposal ℚ :=
  (init proposerId 70).proposalOver ∅ (sha3_256 (ascii ['e', 'm', 'p', 't', 'y'])) [] [] 0

def roundHash : Bytes :=
  sha3_256 (proposerId ++ (Bytes.bigEndian 8 0 ++ (Bytes.bigEndian 8 0 ++
    (roundProposal.measurementRoot ++ ([] ++ [])))))

def proposerNode : BFTConsensus ℚ :=
  ((((init proposerId 70).next (.registerValidator voterId 30)).next
    (.createProposal ∅ [] [] 0)).next (.createPreVote roundHash 0)).next
      (.createPreCommit roundHash 0)

def voterNode : BFTConsensus ℚ :=
  (((init voterId 30).next (.registerValidator proposerId 70)).next
    (.receiveProposal roundProposal)).next
      (.receivePreCommit ((init proposerId 70).ownVote .preCommit roundHash (0 : ℚ)))

theorem reachable_proposerNode : proposerNode.Reachable :=
  ((((reachable_init _ _).next _).next _).next _).next _

theorem reachable_voterNode : voterNode.Reachable :=
  (((reachable_init _ _).next _).next _).next _

/-- A node of the running round zero that can finalize its proposal with 70 of 100 units. -/
def Decided (c : BFTConsensus ℚ) : Prop :=
  (c.currentEpoch = 0 ∧ c.currentRound = 0) ∧
    (c.checkPreCommitThreshold roundHash).1 = true ∧
    c.receivedProposals.get? roundHash = some roundProposal ∧
    c.validators.sumBy id = 100 ∧
    c.registeredStake (c.supporters roundHash) = 70

instance (c : BFTConsensus ℚ) : Decidable c.Decided := inferInstanceAs (Decidable (_ ∧ _))

theorem proposerNode_decided :
    proposerNode.Decided ∧ proposerNode.validators.items = [(proposerId, 70), (voterId, 30)] := by
  decide +kernel

theorem voterNode_decided :
    voterNode.Decided ∧ voterNode.validators.items = [(voterId, 30), (proposerId, 70)] := by
  decide +kernel

theorem registry_nodes (v : Bytes) :
    proposerNode.validators.get? v = voterNode.validators.get? v := by
  have hne : proposerId ≠ voterId := by decide
  simp only [OrderedDict.get?, proposerNode_decided.2, voterNode_decided.2,
    OrderedDict.lookupItems]
  split_ifs with hp hv
  · exact absurd (hp.trans hv.symm) hne
  · rfl
  · rfl
  · rfl

theorem Decided.exists_block {c : BFTConsensus ℚ} (hc : c.Reachable) (h : c.Decided) {time : ℚ}
    (htime : 0 ≤ milliseconds time ∧ milliseconds time < 256 ^ 8) :
    ∃ b, (c.tryFinalize roundHash time).1 = .ok (some b) ∧
      b.blockHash = sha3_256 (roundHash ++ (Bytes.bigEndian 8 100 ++
        (Bytes.bigEndian 8 70 ++ Bytes.bigEndian 8 (milliseconds time).toNat))) ∧
      b.proposal = roundProposal ∧ b.epoch = 0 ∧ b.round = 0 := by
  obtain ⟨⟨hepoch, hround⟩, hthreshold, hproposal, htotal, hstake⟩ := h
  obtain ⟨b, hb⟩ := exists_block_of_tryFinalize hc hthreshold (by simp [hproposal])
    (by simp [htotal]) (by simp [hstake]) htime
  obtain ⟨data, -, hblock, -, -, rfl⟩ := hashedBytes_of_tryFinalize hc hb
  rw [htotal, hstake] at hblock
  obtain ⟨proposal, -, hget, hpost⟩ := tryFinalize_eq_ok_some hb
  obtain rfl := Option.some.inj (hproposal.symm.trans hget)
  obtain ⟨_, -, rfl⟩ := (ConsensusBlock.postInit_eq_ok _).mp hpost
  exact ⟨_, hb, hblock, rfl, hepoch, hround⟩

theorem milliseconds_one : 0 ≤ milliseconds (1 : ℚ) ∧ milliseconds (1 : ℚ) < 256 ^ 8 := by
  decide +kernel

theorem milliseconds_two : 0 ≤ milliseconds (2 : ℚ) ∧ milliseconds (2 : ℚ) < 256 ^ 8 := by
  decide +kernel

theorem finalized_blockHash_eq_same_time :
    ∃ b₁ b₂, (proposerNode.tryFinalize roundHash 1).1 = .ok (some b₁) ∧
      (voterNode.tryFinalize roundHash 1).1 = .ok (some b₂) ∧ b₁.blockHash = b₂.blockHash := by
  obtain ⟨b₁, hb₁, -⟩ :=
    proposerNode_decided.1.exists_block reachable_proposerNode milliseconds_one
  obtain ⟨b₂, hb₂, -⟩ := voterNode_decided.1.exists_block reachable_voterNode milliseconds_one
  obtain ⟨⟨-, -, -, -, hs₁⟩, -⟩ := proposerNode_decided
  obtain ⟨⟨-, -, -, -, hs₂⟩, -⟩ := voterNode_decided
  refine ⟨b₁, b₂, hb₁, hb₂, ?_⟩
  rw [finalized_blockHash_eq_iff reachable_proposerNode reachable_voterNode registry_nodes hb₁ hb₂,
    hs₁, hs₂]
  exact Or.inl ⟨rfl, rfl⟩

theorem blockHash_one_second_apart :
    sha3_256 (roundHash ++ (Bytes.bigEndian 8 100 ++
      (Bytes.bigEndian 8 70 ++ Bytes.bigEndian 8 (milliseconds (1 : ℚ)).toNat))) ≠
    sha3_256 (roundHash ++ (Bytes.bigEndian 8 100 ++
      (Bytes.bigEndian 8 70 ++ Bytes.bigEndian 8 (milliseconds (2 : ℚ)).toNat))) := by
  decide +kernel

/-- One second apart they do not, over the same proposal and the same votes. -/
theorem finalized_blockHash_ne_other_time :
    proposerNode.Reachable ∧ voterNode.Reachable ∧
      (∀ v, proposerNode.validators.get? v = voterNode.validators.get? v) ∧
      ∃ b₁ b₂, (proposerNode.tryFinalize roundHash 1).1 = .ok (some b₁) ∧
        (voterNode.tryFinalize roundHash 2).1 = .ok (some b₂) ∧
        b₁.proposal = b₂.proposal ∧ b₁.epoch = b₂.epoch ∧ b₁.round = b₂.round ∧
        b₁.blockHash ≠ b₂.blockHash := by
  obtain ⟨b₁, hb₁, hash₁, hprop₁, hepoch₁, hround₁⟩ :=
    proposerNode_decided.1.exists_block reachable_proposerNode milliseconds_one
  obtain ⟨b₂, hb₂, hash₂, hprop₂, hepoch₂, hround₂⟩ :=
    voterNode_decided.1.exists_block reachable_voterNode milliseconds_two
  refine ⟨reachable_proposerNode, reachable_voterNode, registry_nodes, b₁, b₂, hb₁, hb₂,
    hprop₁.trans hprop₂.symm, hepoch₁.trans hepoch₂.symm, hround₁.trans hround₂.symm, ?_⟩
  rw [hash₁, hash₂]
  exact blockHash_one_second_apart

end BFTConsensus

end Qrtb
