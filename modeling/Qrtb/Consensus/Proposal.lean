import Qrtb.Blocks.Producer
import Qrtb.Consensus.Detection

/-!
# Proposals, votes and blocks of the consensus (`src/consensus.py`)

A proposal is named by its hash: votes and finalized blocks carry nothing else
of it. Proposals are made by the consensus engine from measurements and by the
block producer from a template. The second attaches its transactions to the
proposal object and leaves the root fields at their defaults.
-/

namespace Qrtb

open Keccak PyFloat

/-- The time stamp of a proposal: milliseconds, or seconds as a float. -/
inductive Timestamp (F : Type) where
  | int (milliseconds : ℤ)
  | float (seconds : F)
  deriving DecidableEq

/-- What the block producer attaches to a proposal. -/
structure ProposalBody where
  txMerkleRoot : Bytes
  txCount : ℕ
  transactions : List Transaction
  deriving DecidableEq

structure ConsensusProposal (F : Type) where
  proposerId : Bytes
  epoch : ℤ
  round : ℤ
  measurementRoot : Bytes
  detectionResults : OrderedDict Bytes (DetectionResult F) := ∅
  transactionRoot : Bytes := []
  stateRoot : Bytes := []
  timestamp : Timestamp F := .int 0
  signature : Bytes := []
  body : Option ProposalBody := none
  deriving DecidableEq

namespace ConsensusProposal

variable {F : Type} (p : ConsensusProposal F)

def hashedBytes : Except PyError Bytes :=
  concat [.bytes p.proposerId, .int p.epoch, .int p.round, .bytes p.measurementRoot,
    .bytes p.transactionRoot, .bytes p.stateRoot]

def proposalHash : Except PyError Bytes := do return sha3_256 (← p.hashedBytes)

theorem hashedBytes_eq_ok {data : Bytes} :
    p.hashedBytes = .ok data ↔
      ((0 ≤ p.epoch ∧ p.epoch < 256 ^ 8) ∧ (0 ≤ p.round ∧ p.round < 256 ^ 8)) ∧
      data = p.proposerId ++ (Bytes.bigEndian 8 p.epoch.toNat ++
        (Bytes.bigEndian 8 p.round.toNat ++
          (p.measurementRoot ++ (p.transactionRoot ++ p.stateRoot)))) := by
  simp [hashedBytes, concat_bytes_cons_eq_ok, concat_int_cons_eq_ok, and_assoc]

theorem proposalHash_eq_ok {h : Bytes} :
    p.proposalHash = .ok h ↔ ∃ data, p.hashedBytes = .ok data ∧ h = sha3_256 data :=
  Except.bind_return_eq_ok

theorem length_proposalHash {h : Bytes} (hh : p.proposalHash = .ok h) : h.length = 32 := by
  obtain ⟨data, -, rfl⟩ := p.proposalHash_eq_ok.mp hh
  exact length_sha3_256 data

/-- The hashes of the attached transactions; none when there is no attachment. -/
def txHashes : Except PyError (Option (List Bytes)) :=
  p.body.mapM fun b => b.transactions.mapM Transaction.txHash

end ConsensusProposal

/-- The two kinds of votes. -/
inductive VoteType where
  | preVote
  | preCommit
  deriving DecidableEq, Repr

structure ConsensusVote where
  voterId : Bytes
  epoch : ℤ
  round : ℤ
  proposalHash : Bytes
  voteType : VoteType
  stake : ℤ
  timestamp : ℤ
  signature : Bytes := []
  deriving DecidableEq

structure ConsensusBlock (F : Type) where
  epoch : ℤ
  round : ℤ
  proposal : ConsensusProposal F
  votes : List ConsensusVote
  totalStake : ℤ
  supportingStake : ℤ
  finalizationTime : F
  blockHash : Bytes := []

namespace ConsensusBlock

variable {F : Type} [PyFloat F] (b : ConsensusBlock F)

def hashedBytes : Except PyError Bytes := do
  concat [.bytes (← b.proposal.proposalHash), .int b.totalStake, .int b.supportingStake,
    .int (milliseconds b.finalizationTime)]

/-- `__post_init__`: the block with its hash filled in. -/
def postInit : Except PyError (ConsensusBlock F) := do
  return { b with blockHash := sha3_256 (← b.hashedBytes) }

theorem hashedBytes_eq_ok {data : Bytes} :
    b.hashedBytes = .ok data ↔
      ∃ h, b.proposal.proposalHash = .ok h ∧
        (0 ≤ b.totalStake ∧ b.totalStake < 256 ^ 8) ∧
        (0 ≤ b.supportingStake ∧ b.supportingStake < 256 ^ 8) ∧
        (0 ≤ milliseconds b.finalizationTime ∧ milliseconds b.finalizationTime < 256 ^ 8) ∧
        data = h ++ (Bytes.bigEndian 8 b.totalStake.toNat ++
          (Bytes.bigEndian 8 b.supportingStake.toNat ++
            Bytes.bigEndian 8 (milliseconds b.finalizationTime).toNat)) := by
  simp [hashedBytes, Except.bind_eq_ok, concat_bytes_cons_eq_ok, concat_int_cons_eq_ok, and_assoc]

theorem postInit_eq_ok {b' : ConsensusBlock F} :
    b.postInit = .ok b' ↔
      ∃ data, b.hashedBytes = .ok data ∧ b' = { b with blockHash := sha3_256 data } :=
  Except.bind_return_eq_ok

/-- The bytes of two blocks agree when the four things they are made of do. -/
theorem hashedBytes_inj {b b' : ConsensusBlock F} {m n : Bytes} (hm : b.hashedBytes = .ok m)
    (hn : b'.hashedBytes = .ok n) :
    m = n ↔ b.proposal.proposalHash = b'.proposal.proposalHash ∧ b.totalStake = b'.totalStake ∧
      b.supportingStake = b'.supportingStake ∧
      milliseconds b.finalizationTime = milliseconds b'.finalizationTime := by
  obtain ⟨h, hh, ht, hs, hms, rfl⟩ := b.hashedBytes_eq_ok.mp hm
  obtain ⟨h', hh', ht', hs', hms', rfl⟩ := b'.hashedBytes_eq_ok.mp hn
  rw [hh, hh']
  constructor
  · intro heq
    obtain ⟨heq₁, heq⟩ := List.append_inj heq
      ((b.proposal.length_proposalHash hh).trans (b'.proposal.length_proposalHash hh').symm)
    obtain ⟨heq₂, heq⟩ := List.append_inj heq (by simp)
    obtain ⟨heq₃, heq₄⟩ := List.append_inj heq (by simp)
    have heq₂ := Bytes.bigEndian_inj (by omega) (by omega) heq₂
    have heq₃ := Bytes.bigEndian_inj (by omega) (by omega) heq₃
    have heq₄ := Bytes.bigEndian_inj (by omega) (by omega) heq₄
    exact ⟨by rw [heq₁], by omega, by omega, by omega⟩
  · intro heq
    obtain ⟨heq₁, heq₂, heq₃, heq₄⟩ := heq
    rw [Except.ok.inj heq₁, heq₂, heq₃, heq₄]

end ConsensusBlock

namespace BlockProducer

variable {F : Type} [PyFloat F]

/-- A proposal from a template, the coinbase first. The clock is read once for the coinbase and
once for the proposal. -/
def buildBlock (p : BlockProducer) (t : BlockTemplate) (measurementRoot rewardAddress : Bytes)
    (coinbaseTime time : F) (nonce : Bytes) : Except PyError (ConsensusProposal F) := do
  let coinbase := createCoinbase t rewardAddress (milliseconds coinbaseTime) nonce
  let allTxs := coinbase :: t.transactions
  let txHashes ← allTxs.mapM Transaction.txHash
  return {
    epoch := t.epoch
    proposerId := p.validatorId
    round := 0
    measurementRoot := measurementRoot
    timestamp := .float time
    body := some {
      txMerkleRoot := MerkleTree.root txHashes
      txCount := allTxs.length
      transactions := allTxs } }

theorem createCoinbase_packable_iff (t : BlockTemplate) (rewardAddress : Bytes) (timestamp : ℤ)
    (nonce : Bytes) :
    (createCoinbase t rewardAddress timestamp nonce).Packable ↔
      (0 ≤ COINBASE_REWARD + t.totalFees ∧ COINBASE_REWARD + t.totalFees < 256 ^ 8) ∧
      (0 ≤ t.epoch ∧ t.epoch + 100 < 256 ^ 8) ∧ (0 ≤ timestamp ∧ timestamp < 256 ^ 8) := by
  constructor
  · intro h
    have hvalue := h.value _ (List.mem_singleton.mpr rfl)
    have hlock := h.lockEpoch _ (List.mem_singleton.mpr rfl)
    exact ⟨hvalue, ⟨h.epoch.1, hlock.2⟩, h.timestamp⟩
  · intro h
    obtain ⟨hvalue, hepoch, htime⟩ := h
    have hlock : 0 ≤ t.epoch + 100 ∧ t.epoch + 100 < 256 ^ 8 := ⟨by omega, hepoch.2⟩
    have hrange : 0 ≤ t.epoch ∧ t.epoch < 256 ^ 8 := ⟨hepoch.1, by omega⟩
    constructor <;> simp_all [createCoinbase]

theorem buildBlock_eq_ok {p : BlockProducer} {t : BlockTemplate}
    {measurementRoot rewardAddress : Bytes} {coinbaseTime time : F} {nonce : Bytes}
    {q : ConsensusProposal F} :
    p.buildBlock t measurementRoot rewardAddress coinbaseTime time nonce = .ok q ↔
      ∃ hashes, (createCoinbase t rewardAddress (milliseconds coinbaseTime) nonce ::
          t.transactions).mapM Transaction.txHash = .ok hashes ∧
        q =
          { epoch := t.epoch
            proposerId := p.validatorId
            round := 0
            measurementRoot := measurementRoot
            timestamp := .float time
            body := some
              { txMerkleRoot := MerkleTree.root hashes
                txCount := t.transactions.length + 1
                transactions :=
                  createCoinbase t rewardAddress (milliseconds coinbaseTime) nonce ::
                    t.transactions } } :=
  Except.bind_return_eq_ok

/-- A block is built when the coinbase and the transactions of the template can be hashed. -/
theorem buildBlock_returns (p : BlockProducer) (t : BlockTemplate)
    (measurementRoot rewardAddress : Bytes) (coinbaseTime time : F) (nonce : Bytes) :
    (p.buildBlock t measurementRoot rewardAddress coinbaseTime time nonce).Returns ↔
      (createCoinbase t rewardAddress (milliseconds coinbaseTime) nonce).Packable ∧
        ∀ tx ∈ t.transactions, tx.Packable := by
  have hall : ((createCoinbase t rewardAddress (milliseconds coinbaseTime) nonce ::
      t.transactions).mapM Transaction.txHash).Returns ↔
      (createCoinbase t rewardAddress (milliseconds coinbaseTime) nonce).Packable ∧
        ∀ tx ∈ t.transactions, tx.Packable := by
    simp only [Except.returns_mapM, List.forall_mem_cons, Transaction.txHash_returns]
  rw [← hall]
  constructor
  · intro h
    obtain ⟨q, hq⟩ := h
    obtain ⟨hashes, hh, -⟩ := buildBlock_eq_ok.mp hq
    exact ⟨hashes, hh⟩
  · intro h
    obtain ⟨hashes, hh⟩ := h
    exact ⟨_, buildBlock_eq_ok.mpr ⟨hashes, hh, rfl⟩⟩

end BlockProducer

end Qrtb
