import Qrtb.Blocks.Issuance
import Qrtb.Blocks.Selection
import Qrtb.Ledger.Signing
import Mathlib.Tactic.IntervalCases

/-!
# What a produced block may exceed (`src/block_producer.py`)

The template keeps to the limits of a block, and then the coinbase is put in front
of it. Its reward adds all fees of the template to the subsidy, while the validator
accepts twice the subsidy at most.
-/

namespace Qrtb

open PyFloat Transition

namespace BlockProducer

/-- The validator looks at the value of a coinbase only: no dust, and at most the ceiling. -/
theorem accepts_createCoinbase_iff (L : Ledger) (t : BlockTemplate) (rewardAddress : Bytes)
    (timestamp : ℤ) (nonce : Bytes) :
    L.Accepts (createCoinbase t rewardAddress timestamp nonce) t.epoch ↔
      (DUST_THRESHOLD ≤ COINBASE_REWARD + t.totalFees ∨ COINBASE_REWARD + t.totalFees = 0) ∧
        COINBASE_REWARD + t.totalFees ≤ MAX_COINBASE_VALUE := by
  have htotal : (createCoinbase t rewardAddress timestamp nonce).totalOutput =
      COINBASE_REWARD + t.totalFees := by
    simp [createCoinbase, Transaction.totalOutput]
  rw [Ledger.accepts_iff]
  constructor
  · rintro ⟨hadmissible, htype⟩
    refine ⟨hadmissible.wellFormed.noDust _ (List.mem_singleton_self _), ?_⟩
    change Ledger.validateCoinbase _ = .ok () at htype
    simp only [Ledger.validateCoinbase, Except.bind_eq_ok, Check.rejectIf_eq_ok, exists_const,
      gt_iff_lt, not_lt, htotal] at htype
    exact htype.2.2
  · rintro ⟨hdust, hvalue⟩
    refine ⟨⟨?_, le_rfl, sub_le_self _ zero_le_one⟩, ?_⟩
    · exact
        { version := rfl
          hasInputs := fun h => absurd rfl h
          maxInputs := Nat.zero_le _
          hasOutputs := List.cons_ne_nil _ _
          maxOutputs := by simp [createCoinbase, MAX_OUTPUTS]
          maxSize := by simp [Transaction.size, createCoinbase, TxOutput.size, MAX_TX_SIZE]
          noDust := by simpa [createCoinbase] using hdust
          minFee := fun h => absurd rfl h }
    · change Ledger.validateCoinbase _ = .ok ()
      simp only [Ledger.validateCoinbase, Except.bind_eq_ok, Check.rejectIf_eq_ok, exists_const,
        gt_iff_lt, not_lt, htotal]
      exact ⟨by simp [createCoinbase], by simp [createCoinbase], hvalue⟩

variable {p p' : BlockProducer} {epoch : ℤ} {n : ℕ} {t : BlockTemplate}

theorem sum_fee_selected_nonneg (hpool : p.mempool.Reachable) (epoch : ℤ) :
    0 ≤ ((p.selected epoch).map Transaction.fee).sum := by
  apply List.sum_nonneg
  intro fee hfee
  obtain ⟨tx, htx, rfl⟩ := List.mem_map.mp hfee
  have hcandidate := List.mem_of_mem_filter (List.mem_of_mem_take htx)
  exact ((hpool.inv.candidates MAX_BLOCK_SIZE).2 tx hcandidate).fee.1

/-- The coinbase of a filled template validates exactly when the fees of the selected transactions
are at most the ceiling without the subsidy. -/
theorem createCoinbase_accepted_iff (hpool : p.mempool.Reachable)
    (hfill : p.fillTemplate (p.createTemplate epoch) = (.ok n, t, p')) (rewardAddress : Bytes)
    (timestamp : ℤ) (nonce : Bytes) :
    p'.ledger.Accepts (createCoinbase t rewardAddress timestamp nonce) t.epoch ↔
      ((p.selected epoch).map Transaction.fee).sum ≤ MAX_COINBASE_VALUE - COINBASE_REWARD := by
  have hfees : t.totalFees = ((p.selected epoch).map Transaction.fee).sum :=
    (fillTemplate_extends hfill).totalFees.trans (zero_add _)
  have hnonneg := sum_fee_selected_nonneg hpool epoch
  rw [accepts_createCoinbase_iff, hfees]
  simp only [DUST_THRESHOLD, COINBASE_REWARD, MAX_COINBASE_VALUE]
  omega

theorem createCoinbase_accepted_registrar : ∃ t,
    registrar.fillTemplate (registrar.createTemplate 0) = (.ok 2, t, registrar) ∧
      t.totalFees = 200000 ∧
      registrar.ledger.Accepts
        (createCoinbase t (List.replicate 64 1) 1000 (List.replicate 8 0)) t.epoch := by
  obtain ⟨t, hfill, -, hfees, -⟩ := exists_fillTemplate_registrar
  refine ⟨t, hfill, hfees, (createCoinbase_accepted_iff reachable_registrar.2 hfill
    (List.replicate 64 1) 1000 (List.replicate 8 0)).mpr ?_⟩
  rw [selected_registrar]
  simp [registration, penalty, MAX_COINBASE_VALUE, COINBASE_REWARD]

def purseHash (i : ℕ) : Bytes := List.replicate 31 0 ++ [UInt8.ofNat i]

def purseOutput : TxOutput := { value := 6000001000, address := List.replicate 64 1 }

/-- The first outputs of 64 transactions, for an address that is not registered. -/
def purse : Ledger where
  utxoSet := (List.range 64).foldl (fun s i => s.addUtxo (purseHash i) 0 purseOutput 0) {}

theorem get?_addUtxos {is : List ℕ} {i : ℕ} (hi : i ∈ is) (s : UtxoSet) :
    (is.foldl (fun s i => s.addUtxo (purseHash i) 0 purseOutput 0) s).utxos.get? (purseHash i, 0) =
      some { txHash := purseHash i, outputIndex := 0, output := purseOutput, epochCreated := 0 } := by
  induction is using List.reverseRecOn with
  | nil => cases hi
  | append_singleton is j ih =>
    rw [List.foldl_append, List.foldl_cons, List.foldl_nil, UtxoSet.get?_addUtxo]
    split_ifs with hkey
    · rw [(Prod.mk.inj hkey).1]
    · rcases List.mem_append.mp hi with hi | hi
      · exact ih hi
      · rw [List.mem_singleton.mp hi] at hkey
        exact absurd rfl hkey

/-- A payment from the purse before it is signed. An owner that is not registered needs no proof,
so there may be any number of entries, each of which counts two bytes. -/
def payment (entries : ℕ) (fee : ℤ) (i : ℕ) : Transaction where
  version := 1
  txType := .transfer
  inputs := [{
    prevTxHash := purseHash i
    outputIndex := 0
    signature := []
    publicKey := []
    authProof := some (List.replicate entries ([], 0)) }]
  outputs := [{ value := 1000, address := List.replicate 64 2 }]
  epoch := 0
  timestamp := 0
  fee := fee
  nonce := List.replicate 8 0

section Payment

variable {entries i : ℕ} {fee : ℤ}

theorem size_payment : (payment entries fee i).size = 158 + 2 * entries := by
  have hproof : ((List.replicate entries (([], 0) : ProofEntry)).map fun _ => 2).sum =
      2 * entries := by
    simp [mul_comm]
  simp only [payment, Transaction.size, TxInput.size, TxInput.proofSize, TxOutput.size,
    Option.getD_some, hproof, List.map_cons, List.map_nil, List.sum_cons, List.sum_nil,
    List.length_nil]
  omega

theorem readyToSign_payment (hsize : 4446 + 2 * entries ≤ MAX_TX_SIZE)
    (hfee : ((4446 + 2 * entries : ℕ) : ℤ) ≤ fee) (hlt : fee < 256 ^ 8) :
    (payment entries fee i).ReadyToSign := by
  have hnonneg : 0 ≤ fee := by omega
  refine ⟨?_, rfl, List.cons_ne_nil _ _, by simp [payment, MAX_INPUTS], ?_, List.cons_ne_nil _ _,
    by simp [payment, MAX_OUTPUTS], ?_, ?_, ?_⟩
  · constructor <;> simp [payment, hnonneg]
    exact hlt
  · simp [payment]
  · simp [payment, DUST_THRESHOLD]
  · rw [size_payment]
    change 158 + 2 * entries + 4288 * 1 ≤ MAX_TX_SIZE
    omega
  · rw [size_payment, MIN_FEE_PER_BYTE, mul_one]
    change ((158 + 2 * entries + 4288 * 1 : ℕ) : ℤ) ≤ fee
    omega

theorem size_signedBy_payment (hready : (payment entries fee i).ReadyToSign) :
    ((payment entries fee i).signedBy []).size = 4446 + 2 * entries := by
  rw [hready.size_signedBy, size_payment]
  change 158 + 2 * entries + 4288 * 1 = _
  omega

theorem accepts_payment (hready : (payment entries fee i).ReadyToSign) (hi : i < 64)
    (hfee : fee ≤ 6000000000) : purse.Accepts ((payment entries fee i).signedBy []) 0 := by
  have hget := get?_addUtxos (List.mem_range.mpr hi) {}
  refine Ledger.accepts_transfer_signedBy [] rfl hready le_rfl (by simp [payment]) ?_ ?_
  · intro inp hinp
    obtain rfl := List.mem_singleton.mp hinp
    exact ⟨_, ⟨hget, rfl⟩, le_rfl, Ledger.ownerProved_of_unregistered _ rfl⟩
  · have hvalue : purse.utxoSet.valueAt (purseHash i, 0) = 6000001000 := by
      rw [UtxoSet.valueAt, purse, hget]
      rfl
    have hinputs : ((payment entries fee i).inputs.map purse.valueOf).sum = 6000001000 := by
      change purse.utxoSet.valueAt (purseHash i, 0) + 0 = 6000001000
      rw [hvalue]
      rfl
    rw [Ledger.Conserves, hinputs]
    change 1000 + fee ≤ 6000001000
    omega

end Payment

/-- A fee of six billions pays more than the subsidy once again. -/
theorem coinbase_over_ceiling : ∃ (p p' : BlockProducer) (t : BlockTemplate),
    p.ledger = purse ∧
      p.mempool = (Mempool.addTransaction ((payment 0 6000000000 0).signedBy []) {}).2 ∧
      p.fillTemplate (p.createTemplate 0) = (.ok 1, t, p') ∧
      ¬ p'.ledger.Accepts (createCoinbase t (List.replicate 64 1) 1000 (List.replicate 8 0))
        t.epoch := by
  have hready : (payment 0 6000000000 0).ReadyToSign :=
    readyToSign_payment (by decide) (by decide) (by decide)
  have hsize := size_signedBy_payment hready
  have hpackable := ((payment 0 6000000000 0).packable_signedBy []).mpr hready.1
  have haccepts := accepts_payment hready (by decide) le_rfl
  have hfee : ((payment 0 6000000000 0).signedBy []).fee = 6000000000 :=
    Transaction.fee_signedBy _ _
  generalize (payment 0 6000000000 0).signedBy [] = tx at hsize hpackable haccepts hfee ⊢
  let p : BlockProducer :=
    { validatorId := [], ledger := purse, mempool := (Mempool.addTransaction tx {}).2 }
  have hcandidates : p.mempool.getTransactionsForBlock MAX_BLOCK_SIZE = [tx] :=
    getTransactionsForBlock_singleton hpackable (by rw [hsize]; decide)
  have hfill := p.fillTemplate_accepted _ (by simpa [hcandidates] using haccepts)
    (by rw [hcandidates, List.length_singleton]; decide)
  rw [hcandidates] at hfill
  refine ⟨p, p, _, rfl, rfl, hfill, ?_⟩
  rw [accepts_createCoinbase_iff]
  simp only [List.map_singleton, List.sum_singleton, hfee]
  decide

/-- At most as many transactions and bytes as a block may have. -/
def WithinLimits (txs : List Transaction) : Prop :=
  txs.length ≤ MAX_TXS_PER_BLOCK ∧ (txs.map Transaction.size).sum ≤ MAX_BLOCK_SIZE

theorem size_createCoinbase (t : BlockTemplate) (rewardAddress : Bytes) (timestamp : ℤ)
    (nonce : Bytes) : (createCoinbase t rewardAddress timestamp nonce).size = 118 := rfl

theorem withinLimits_cons_iff {t : BlockTemplate} {rewardAddress nonce : Bytes} {timestamp : ℤ}
    {txs : List Transaction} :
    WithinLimits (createCoinbase t rewardAddress timestamp nonce :: txs) ↔
      txs.length < MAX_TXS_PER_BLOCK ∧ (txs.map Transaction.size).sum + 118 ≤ MAX_BLOCK_SIZE := by
  rw [WithinLimits, List.length_cons, List.map_cons, List.sum_cons, size_createCoinbase]
  omega

section

variable {F : Type} [PyFloat F] {measurementRoot rewardAddress nonce : Bytes} {coinbaseTime time : F}
  {q : ConsensusProposal F}

/-- A built block keeps the limits exactly when the selected transactions leave room for one more
of 118 bytes. -/
theorem buildBlock_withinLimits_iff
    (hfill : p.fillTemplate (p.createTemplate epoch) = (.ok n, t, p'))
    (hbuild : p'.buildBlock t measurementRoot rewardAddress coinbaseTime time nonce = .ok q) :
    (∃ body, q.body = some body ∧ WithinLimits body.transactions) ↔
      (p.selected epoch).length < MAX_TXS_PER_BLOCK ∧
        ((p.selected epoch).map Transaction.size).sum + 118 ≤ MAX_BLOCK_SIZE := by
  have htxs : t.transactions = p.selected epoch := (fillTemplate_extends hfill).transactions
  obtain ⟨hashes, -, rfl⟩ := buildBlock_eq_ok.mp hbuild
  simp only [Option.some.injEq, exists_eq_left', withinLimits_cons_iff, htxs]

end

theorem buildBlock_withinLimits_registrar : ∃ (t : BlockTemplate) (q : ConsensusProposal ℚ)
    (body : ProposalBody),
    registrar.fillTemplate (registrar.createTemplate 0) = (.ok 2, t, registrar) ∧
      registrar.buildBlock t [] [] 0 0 (List.replicate 8 0) = .ok q ∧
      ((registrar.selected 0).map Transaction.size).sum = 9116 ∧ q.body = some body ∧
      WithinLimits body.transactions := by
  obtain ⟨t, q, hfill, hq⟩ := exists_buildBlock_registrar
  have hsizes : ((registrar.selected 0).map Transaction.size).sum = 9116 := by
    rw [selected_registrar]
    simp [size_registration, size_penalty]
  obtain ⟨body, hbody, hlimits⟩ := (buildBlock_withinLimits_iff hfill hq).mpr
    ⟨by rw [selected_registrar]; simp [MAX_TXS_PER_BLOCK], by rw [hsizes]; decide⟩
  exact ⟨t, q, body, hfill, hq, hsizes, hbody, hlimits⟩

def heavyPayments : List Transaction :=
  (List.range 64).map fun i => (payment 30545 65536 i).signedBy []

theorem readyToSign_heavy (i : ℕ) : (payment 30545 65536 i).ReadyToSign :=
  readyToSign_payment (by decide) (by decide) (by decide)

theorem heavyPayments_spec {tx : Transaction} (h : tx ∈ heavyPayments) :
    tx.size = 65536 ∧ tx.fee = 65536 ∧ tx.Packable ∧ purse.Accepts tx 0 := by
  obtain ⟨i, hi, rfl⟩ := List.mem_map.mp h
  have hready := readyToSign_heavy i
  exact ⟨size_signedBy_payment hready, Transaction.fee_signedBy _ _,
    (Transaction.packable_signedBy _ _).mpr hready.1,
    accepts_payment hready (List.mem_range.mp hi) (by decide)⟩

/-- The first two bytes of a hash, as a number. -/
def digestHead (hash : Except PyError Bytes) : ℕ :=
  match hash with
  | .ok h => Bytes.toNat (h.take 2)
  | .error _ => 0

def heavyHeads : List ℕ :=
  [53856, 13342, 38414, 37759, 33687, 61129, 60711, 36092, 30594, 27253, 2986, 15299, 41190, 11836,
    40609, 55613, 34554, 13680, 56309, 28763, 1813, 13348, 59825, 27010, 434, 35797, 17274, 35471,
    54925, 47531, 45149, 33048, 739, 38317, 41123, 38130, 45587, 55965, 19404, 55364, 12253, 58545,
    49161, 5305, 44833, 3427, 25074, 21641, 25283, 24118, 60233, 17054, 2324, 44002, 39840, 17066,
    4215, 35177, 49245, 46528, 30290, 18310, 16752, 26750]

-- one hash at a time: the kernel keeps all that it computes for one goal
theorem digestHead_payment (i : ℕ) (hi : i < 64) :
    digestHead (payment 30545 65536 i).txHash = heavyHeads.getD i 0 := by
  interval_cases i <;> decide +kernel

theorem nodup_txHash_payment :
    ((List.range 64).map fun i => (payment 30545 65536 i).txHash).Nodup := by
  apply List.Nodup.of_map digestHead
  have hheads : ((List.range 64).map fun i => (payment 30545 65536 i).txHash).map digestHead =
      (List.range 64).map fun i => heavyHeads.getD i 0 := by
    rw [List.map_map]
    apply List.map_congr_left
    intro i hi
    rw [Function.comp_apply, digestHead_payment i (List.mem_range.mp hi)]
  rw [hheads]
  decide +kernel

theorem purseHash_inj {i j : ℕ} (hi : i < 64) (hj : j < 64) (h : purseHash i = purseHash j) :
    i = j := by
  have hbyte : UInt8.ofNat i = UInt8.ofNat j := List.singleton_inj.mp (List.append_cancel_left h)
  have hnat := congrArg UInt8.toNat hbyte
  rw [UInt8.toNat_ofNat', UInt8.toNat_ofNat'] at hnat
  omega

theorem unrelated_heavyPayments : heavyPayments.Pairwise Mempool.Unrelated := by
  have hhashes := List.pairwise_map.mp nodup_txHash_payment
  rw [heavyPayments, List.pairwise_map]
  refine (hhashes.and List.pairwise_lt_range).imp_of_mem ?_
  rintro i j hi hj ⟨hne, hlt⟩
  rw [List.mem_range] at hi hj
  refine ⟨?_, ?_⟩
  · rw [Transaction.txHash_signedBy, Transaction.txHash_signedBy]
    exact hne
  · rw [Mempool.SpendApart, Transaction.refs_signedBy, Transaction.refs_signedBy]
    intro k hk hk'
    have hsame : purseHash i = purseHash j :=
      (Prod.mk.inj ((List.mem_singleton.mp hk).symm.trans (List.mem_singleton.mp hk'))).1
    exact hlt.ne (purseHash_inj hi hj hsame)

/-- The 64 payments leave no byte for the coinbase. -/
theorem block_over_limits : ∃ (p p' : BlockProducer) (n : ℕ) (t : BlockTemplate)
    (q : ConsensusProposal ℚ) (body : ProposalBody),
    p.ledger = purse ∧
      p.mempool = runs (Mempool.Command.act Mempool.floatRate)
        (heavyPayments.map Mempool.Command.add) { maxSize := 100 * 1024 * 1024 } ∧
      p.fillTemplate (p.createTemplate 0) = (.ok n, t, p') ∧
      p'.buildBlock t [] (List.replicate 64 1) 0 0 (List.replicate 8 0) = .ok q ∧
      q.body = some body ∧ ¬ WithinLimits body.transactions := by
  have hlength : heavyPayments.length = 64 := by
    rw [heavyPayments, List.length_map, List.length_range]
  have hspec : ∀ tx ∈ heavyPayments, tx.size = 65536 ∧ tx.fee = 65536 ∧ tx.Packable ∧
      purse.Accepts tx 0 := fun tx htx => heavyPayments_spec htx
  have hunrelated := unrelated_heavyPayments
  generalize heavyPayments = txs at hlength hspec hunrelated ⊢
  have hsizes : txs.map Transaction.size = List.replicate 64 65536 := by
    rw [← hlength]
    exact List.map_eq_replicate_iff.mpr fun tx htx => (hspec tx htx).1
  have hfees : txs.map Transaction.fee = List.replicate 64 65536 := by
    rw [← hlength]
    exact List.map_eq_replicate_iff.mpr fun tx htx => (hspec tx htx).2.1
  have hsum : (txs.map fun tx => (tx.size : ℤ)).sum = 4194304 := by
    have hcast : (txs.map fun tx => (tx.size : ℤ)) = (txs.map Transaction.size).map Nat.cast :=
      List.map_map.symm
    rw [hcast, hsizes]
    decide
  obtain ⟨p, hledger, hmempool⟩ : ∃ p : BlockProducer, p.ledger = purse ∧
      p.mempool = runs (Mempool.Command.act Mempool.floatRate) (txs.map Mempool.Command.add)
        { maxSize := 100 * 1024 * 1024 } :=
    ⟨{ validatorId := [], ledger := purse, mempool := _ }, rfl, rfl⟩
  have hperm : (p.mempool.getTransactionsForBlock MAX_BLOCK_SIZE).Perm txs := by
    rw [hmempool]
    exact Mempool.perm_getTransactionsForBlock_runs _ (fun tx htx => (hspec tx htx).2.2.1) hunrelated
      (by rw [hsum]; decide) (by rw [hsum]; decide)
  obtain ⟨n, t, hfill, htxs, htotal, hepoch⟩ : ∃ n t,
      p.fillTemplate (p.createTemplate 0) = (.ok n, t, p) ∧
        t.transactions = p.mempool.getTransactionsForBlock MAX_BLOCK_SIZE ∧
        t.totalFees = 4194304 ∧ t.epoch = 0 := by
    refine ⟨_, _, p.fillTemplate_accepted _ ?_ ?_, rfl, ?_, rfl⟩
    · intro tx htx
      rw [hledger]
      exact (hspec tx (hperm.mem_iff.mp htx)).2.2.2
    · rw [hperm.length_eq, hlength]
      decide
    · simp only [(hperm.map Transaction.fee).sum_eq, hfees]
      decide
  obtain ⟨q, hq⟩ := (p.buildBlock_returns t [] (List.replicate 64 1) (0 : ℚ) 0
    (List.replicate 8 0)).mpr ⟨by
      rw [createCoinbase_packable_iff, htotal, hepoch]
      decide +kernel, fun tx htx => (hspec tx (hperm.mem_iff.mp (htxs ▸ htx))).2.2.1⟩
  obtain ⟨hashes, -, rfl⟩ := buildBlock_eq_ok.mp hq
  refine ⟨p, p, n, t, _, _, hledger, hmempool, hfill, hq, rfl, ?_⟩
  rw [withinLimits_cons_iff, htxs, (hperm.map Transaction.size).sum_eq, hsizes]
  rintro ⟨-, hbytes⟩
  exact absurd hbytes (by decide)

end BlockProducer

end Qrtb
