import Qrtb.Consensus.BFT
import Mathlib.Data.Fintype.EquivFin

/-!
# What the proposal hash covers

The hash covers proposer, epoch, round and three roots. The engine keeps the
transaction root it is given and derives the measurement root from the
commitments alone, without the validators they were filed under. The producer
never fills the transaction root in. So neither the transactions nor the
detection results of a proposal follow from the bytes it is voted on by.
-/

namespace Qrtb

open PyFloat

variable {F : Type} [PyFloat F]

namespace ConsensusProposal

/-- Returned by one of the two builders. -/
inductive Built : ConsensusProposal F → Prop
  | ofTemplate {p : ConsensusProposal F} (producer : BlockProducer) (t : BlockTemplate)
      (measurementRoot rewardAddress : Bytes) (coinbaseTime time : F) (nonce : Bytes)
      (h : producer.buildBlock t measurementRoot rewardAddress coinbaseTime time nonce = .ok p) :
      Built p
  | ofMeasurements {p : ConsensusProposal F} (c : BFTConsensus F) (hc : c.Reachable)
      (measurements : MeasurementGraph F) (transactionRoot stateRoot : Bytes) (time : F)
      (h : (c.createProposal measurements transactionRoot stateRoot time).1 = .ok p) : Built p

/-- The same list of transaction hashes, and detection results equal as dictionaries. -/
def SameContents (p q : ConsensusProposal F) : Prop :=
  p.txHashes = q.txHashes ∧ ∀ v, p.detectionResults.get? v = q.detectionResults.get? v

/-- No other contents can be built over the bytes this proposal is hashed from. -/
def HashBinds (p : ConsensusProposal F) : Prop :=
  ∀ q data, Built q → p.hashedBytes = .ok data → q.hashedBytes = .ok data → SameContents p q

end ConsensusProposal

open ConsensusProposal

namespace BlockProducer

variable {producer : BlockProducer} {t : BlockTemplate} {measurementRoot rewardAddress : Bytes}
  {coinbaseTime time : F} {nonce : Bytes} {p : ConsensusProposal F}

theorem hashedBytes_of_buildBlock
    (h : producer.buildBlock t measurementRoot rewardAddress coinbaseTime time nonce = .ok p) :
    p.hashedBytes = .ok (producer.validatorId ++ (Bytes.bigEndian 8 t.epoch.toNat ++
      (Bytes.bigEndian 8 0 ++ measurementRoot))) := by
  have hpack := ((buildBlock_returns ..).mp ⟨p, h⟩).1
  obtain ⟨hashes, -, rfl⟩ := buildBlock_eq_ok.mp h
  rw [hashedBytes_eq_ok]
  exact ⟨⟨hpack.epoch, by simp⟩, by simp⟩

/-- One hash for the coinbase and one for each transaction of the template. -/
theorem txHashes_of_buildBlock
    (h : producer.buildBlock t measurementRoot rewardAddress coinbaseTime time nonce = .ok p) :
    ∃ hashes, p.txHashes = .ok (some hashes) ∧ hashes.length = t.transactions.length + 1 := by
  obtain ⟨hashes, hh, rfl⟩ := buildBlock_eq_ok.mp h
  refine ⟨hashes, ?_, ?_⟩
  · simp only [txHashes, Option.mapM_some, hh]
    rfl
  · simpa using Except.length_of_mapM hh

/-- A template of another length for the same epoch, filled by `add_transaction`. -/
theorem exists_other_template (producer : BlockProducer) (t : BlockTemplate) (coinbase : Transaction)
    (hsize : coinbase.size ≤ MAX_BLOCK_SIZE) (hfee : coinbase.fee = 0)
    (hpack : coinbase.Packable) :
    ∃ t' : BlockTemplate, t'.epoch = t.epoch ∧ t'.totalFees = 0 ∧
      t'.transactions.length ≠ t.transactions.length ∧ ∀ tx ∈ t'.transactions, tx.Packable := by
  by_cases ht : t.transactions = []
  · refine ⟨((producer.createTemplate t.epoch).addTransaction coinbase).2, ?_⟩
    have hfits : ¬ MAX_BLOCK_SIZE < coinbase.size := by omega
    simp [BlockTemplate.addTransaction, createTemplate, MAX_TXS_PER_BLOCK, hfits, hfee, ht, hpack]
  · refine ⟨producer.createTemplate t.epoch, rfl, rfl, ?_, by simp [createTemplate]⟩
    simpa [createTemplate, eq_comm] using ht

theorem not_hashBinds_of_buildBlock
    (h : producer.buildBlock t measurementRoot rewardAddress coinbaseTime time nonce = .ok p) :
    ¬ p.HashBinds := by
  intro hbinds
  have hpack := ((buildBlock_returns ..).mp ⟨p, h⟩).1
  have hsize : (createCoinbase t rewardAddress (milliseconds coinbaseTime) nonce).size ≤
      MAX_BLOCK_SIZE := by
    simp [createCoinbase, Transaction.size, TxOutput.size, MAX_BLOCK_SIZE]
  obtain ⟨t', hepoch, hfees, hlen, htxs⟩ := exists_other_template producer t _ hsize rfl hpack
  have hpack' : (createCoinbase t' rewardAddress (milliseconds coinbaseTime) nonce).Packable := by
    rw [createCoinbase_packable_iff] at hpack ⊢
    rw [hepoch, hfees]
    exact ⟨by decide, hpack.2⟩
  obtain ⟨q, hq⟩ := (buildBlock_returns producer t' measurementRoot rewardAddress coinbaseTime time
    nonce).mpr ⟨hpack', htxs⟩
  have hbytes := hashedBytes_of_buildBlock hq
  rw [hepoch] at hbytes
  obtain ⟨hsame, -⟩ := hbinds q _ (.ofTemplate _ _ _ _ _ _ _ hq) (hashedBytes_of_buildBlock h) hbytes
  obtain ⟨l, hl, hlenl⟩ := txHashes_of_buildBlock h
  obtain ⟨l', hl', hlenl'⟩ := txHashes_of_buildBlock hq
  rw [hl, hl'] at hsame
  obtain rfl := Option.some.inj (Except.ok.inj hsame)
  omega

end BlockProducer

namespace BFTConsensus

theorem measurementRoot_set_nil {measurements : MeasurementGraph F} {v : Bytes}
    (hv : v ∉ measurements.keys) :
    measurementRoot (measurements.set v []) = measurementRoot measurements := by
  have hvalues : (measurements.set v []).values = measurements.values ++ [[]] :=
    measurements.values_set_of_not_mem hv []
  rw [measurementRoot, measurementRoot, hvalues]
  simp

theorem not_sameContents_set_nil {measurements : MeasurementGraph F} {v : Bytes}
    (hv : v ∉ measurements.keys) (root transactionRoot stateRoot : Bytes) (time : F)
    (c : BFTConsensus F) :
    ¬ SameContents (c.proposalOver measurements root transactionRoot stateRoot time)
      (c.proposalOver (measurements.set v []) root transactionRoot stateRoot time) := by
  intro hsame
  have hmem : v ∈ (measurements.set v []).keys :=
    (OrderedDict.mem_keys_iff _ v).mpr ⟨[], by simp⟩
  have hresult := hsame.2 v
  simp only [proposalOver, DetectionEngine.get?_analyzeAll, hv, if_false] at hresult
  rw [if_pos hmem] at hresult
  cases hresult

theorem not_hashBinds_of_createProposal {c : BFTConsensus F} (hc : c.Reachable)
    {measurements : MeasurementGraph F} {transactionRoot stateRoot : Bytes} {time : F}
    {p : ConsensusProposal F}
    (h : (c.createProposal measurements transactionRoot stateRoot time).1 = .ok p) :
    ¬ p.HashBinds := by
  intro hbinds
  obtain ⟨root, hash, hroot, rfl, hhash⟩ := createProposal_eq_ok.mp h
  obtain ⟨data, hdata, -⟩ := (proposalHash_eq_ok _).mp hhash
  obtain ⟨v, hv⟩ := Infinite.exists_notMem_finset measurements.keys.toFinset
  rw [List.mem_toFinset] at hv
  have hq : (c.createProposal (measurements.set v []) transactionRoot stateRoot time).1 =
      .ok (c.proposalOver (measurements.set v []) root transactionRoot stateRoot time) :=
    createProposal_eq_ok.mpr ⟨root, hash, (measurementRoot_set_nil hv).trans hroot, rfl, hhash⟩
  have hsame := hbinds _ data (.ofMeasurements c hc _ _ _ _ hq) hdata hdata
  exact not_sameContents_set_nil hv root transactionRoot stateRoot time c hsame

end BFTConsensus

/-- No proposal is bound by the bytes it is voted on by. -/
theorem ConsensusProposal.not_hashBinds {p : ConsensusProposal F} (hp : p.Built) :
    ¬ p.HashBinds := by
  cases hp with
  | ofTemplate producer t measurementRoot rewardAddress coinbaseTime time nonce h =>
    exact BlockProducer.not_hashBinds_of_buildBlock h
  | ofMeasurements c hc measurements transactionRoot stateRoot time h =>
    exact BFTConsensus.not_hashBinds_of_createProposal hc h

open BFTConsensus in
theorem ConsensusProposal.not_hashBinds_init :
    ∃ p : ConsensusProposal ℚ, p.Built ∧ ¬ p.HashBinds := by
  obtain ⟨p, data, hp, -⟩ := createProposal_init (F := ℚ) [1] 100 ∅ [] [] rfl 0
  have hbuilt : p.Built := .ofMeasurements _ (reachable_init [1] 100) _ _ _ _ hp
  exact ⟨p, hbuilt, not_hashBinds hbuilt⟩

open BFTConsensus in
/-- An engine proposes over no measurements, and over a validator that measured nothing. -/
theorem ConsensusProposal.equal_bytes_other_contents :
    ∃ (c : BFTConsensus ℚ) (p q : ConsensusProposal ℚ) (data : Bytes), c.Reachable ∧
      (c.createProposal ∅ [] [] 0).1 = .ok p ∧
      (c.createProposal ((∅ : MeasurementGraph ℚ).set [2] []) [] [] 0).1 = .ok q ∧
      p.hashedBytes = .ok data ∧ q.hashedBytes = .ok data ∧ ¬ SameContents p q := by
  have hv : [2] ∉ (∅ : MeasurementGraph ℚ).keys := by decide
  obtain ⟨p, data, hp, hover, hdata, hbytes⟩ :=
    createProposal_init (F := ℚ) [1] 100 ∅ [] [] rfl 0
  obtain ⟨q, data', hq, hover', hdata', hbytes'⟩ :=
    createProposal_init (F := ℚ) [1] 100 _ [] [] (measurementRoot_set_nil hv) 0
  refine ⟨init [1] 100, p, q, data, reachable_init [1] 100, hp, hq, hdata, ?_, ?_⟩
  · rw [hbytes, hdata', hbytes']
  · rw [hover, hover']
    exact not_sameContents_set_nil hv _ _ _ _ _

end Qrtb
