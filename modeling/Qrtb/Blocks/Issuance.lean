import Qrtb.Blocks.Template
import Qrtb.Consensus.Proposal

/-!
# What a block issues

The producer puts a coinbase of its own before the transactions of its template.
It pays the subsidy and the fees of the template. Coinbases need no signature and
no pool refuses one, so the template can bring further ones along.
-/

namespace Qrtb

open PyFloat

/-- The value of the coinbases that applying a list of transactions applies. -/
def Ledger.issuance : List Transaction → Ledger → ℤ
  | [], _ => 0
  | tx :: txs, L =>
    match applyTransaction tx L with
    | (.ok true, L') => (if tx.txType = .coinbase then tx.totalOutput else 0) + issuance txs L'
    | _ => 0

theorem Ledger.issuance_of_no_coinbase {txs : List Transaction}
    (h : ∀ tx ∈ txs, tx.txType ≠ .coinbase) (L : Ledger) : L.issuance txs = 0 := by
  induction txs generalizing L with
  | nil => rfl
  | cons tx txs ih =>
    rw [List.forall_mem_cons] at h
    rw [issuance]
    split
    next L' _ => rw [if_neg h.1, ih h.2 L', add_zero]
    next => rfl

theorem Ledger.issuance_cons_coinbase {tx : Transaction} (htype : tx.txType = .coinbase)
    (hinputs : tx.inputs = []) (hpack : tx.Packable) (txs : List Transaction) (L : Ledger) :
    L.issuance (tx :: txs) = tx.totalOutput + (applyTransaction tx L).2.issuance txs := by
  have happly : (applyTransaction tx L).1 = .ok true := by
    obtain ⟨h, hh⟩ : ∃ h, hashWhenUsed tx = .ok h := by
      rw [hashWhenUsed]
      split_ifs
      · exact ⟨[], rfl⟩
      · exact tx.txHash_returns.mpr hpack
    simp [applyTransaction, hh, hinputs, UtxoSet.spendInputs, applyRegistry, htype]
  rw [issuance]
  split
  next L' heq => rw [if_pos htype, heq]
  next hne => exact (hne _ (Prod.ext happly rfl)).elim

/-- The fees of all transactions but the coinbases. -/
def feesOfOthers (txs : List Transaction) : ℤ :=
  ((txs.filter fun tx => tx.txType ≠ .coinbase).map Transaction.fee).sum

/-- The block has one coinbase and issues, on any ledger, at most the subsidy and the fees of the
rest. -/
structure IssuesOnce (txs : List Transaction) : Prop where
  one : txs.countP (fun tx => tx.txType = .coinbase) = 1
  bound : ∀ L : Ledger, L.issuance txs ≤ COINBASE_REWARD + feesOfOthers txs

namespace BlockProducer

section

variable {F : Type} [PyFloat F] {p p' : BlockProducer} {epoch : ℤ} {n : ℕ} {t : BlockTemplate}
  {measurementRoot rewardAddress nonce : Bytes} {coinbaseTime time : F} {q : ConsensusProposal F}

/-- The own coinbase is the one issuance exactly when the template brings none. -/
theorem issuesOnce_cons_iff {coinbase : Transaction} {txs : List Transaction}
    (htype : coinbase.txType = .coinbase) (hnonneg : 0 ≤ coinbase.totalOutput)
    (hvalue : coinbase.totalOutput = COINBASE_REWARD + (txs.map Transaction.fee).sum) :
    IssuesOnce (coinbase :: txs) ↔ ∀ tx ∈ txs, tx.txType ≠ .coinbase := by
  constructor
  · intro h tx htx hc
    have hone := h.one
    rw [List.countP_cons_of_pos (by simpa using htype)] at hone
    have hpos : 0 < txs.countP fun tx => tx.txType = .coinbase :=
      List.countP_pos_iff.mpr ⟨tx, htx, by simpa using hc⟩
    omega
  · intro h
    have hothers : feesOfOthers (coinbase :: txs) = (txs.map Transaction.fee).sum := by
      rw [feesOfOthers, List.filter_cons_of_neg (by simpa using htype),
        List.filter_eq_self.mpr (by simpa using h)]
    constructor
    · rw [List.countP_cons_of_pos (by simpa using htype),
        List.countP_eq_zero.mpr (by simpa using h)]
    · intro L
      rw [hothers, ← hvalue, Ledger.issuance]
      split
      next L' _ => rw [if_pos htype, Ledger.issuance_of_no_coinbase h, add_zero]
      next => exact hnonneg

/-- A built block issues once exactly when none of the candidates selected for it is a coinbase. -/
theorem buildBlock_issuesOnce_iff
    (hfill : p.fillTemplate (p.createTemplate epoch) = (.ok n, t, p'))
    (hbuild : p'.buildBlock t measurementRoot rewardAddress coinbaseTime time nonce = .ok q) :
    (∃ body, q.body = some body ∧ IssuesOnce body.transactions) ↔
      ∀ tx ∈ p.selected epoch, tx.txType ≠ .coinbase := by
  have hextends := fillTemplate_extends hfill
  have htxs : t.transactions = p.selected epoch := hextends.transactions
  have hfees : t.totalFees = ((p.selected epoch).map Transaction.fee).sum :=
    hextends.totalFees.trans (zero_add _)
  have hpack := ((p'.buildBlock_returns t measurementRoot rewardAddress coinbaseTime time
    nonce).mp ⟨q, hbuild⟩).1
  have hvalue := ((createCoinbase_packable_iff _ _ _ _).mp hpack).1.1
  obtain ⟨hashes, -, rfl⟩ := buildBlock_eq_ok.mp hbuild
  have htotal : (createCoinbase t rewardAddress (milliseconds coinbaseTime) nonce).totalOutput =
      COINBASE_REWARD + t.totalFees := by
    simp [createCoinbase, Transaction.totalOutput]
  simp only [Option.some.injEq, exists_eq_left']
  rw [issuesOnce_cons_iff rfl (by rw [htotal]; exact hvalue) (by rw [htotal, hfees, htxs]), htxs]

end

theorem exists_buildBlock_registrar : ∃ (t : BlockTemplate) (q : ConsensusProposal ℚ),
    registrar.fillTemplate (registrar.createTemplate 0) = (.ok 2, t, registrar) ∧
      registrar.buildBlock t [] [] 0 0 (List.replicate 8 0) = .ok q := by
  obtain ⟨t, hfill, htxs, hfees, hepoch⟩ := exists_fillTemplate_registrar
  obtain ⟨q, hq⟩ := (registrar.buildBlock_returns t [] [] (0 : ℚ) 0 (List.replicate 8 0)).mpr
    ⟨by rw [createCoinbase_packable_iff, hfees, hepoch]; decide +kernel, by
      rw [htxs]
      simpa [Transaction.packable_signedBy] using
        ⟨readyToSign_registration.1, readyToSign_penalty.1⟩⟩
  exact ⟨t, q, hfill, hq⟩

/-- With two transactions that are no coinbases filled in, the block issues once. -/
theorem buildBlock_issuesOnce_registrar : ∃ (t : BlockTemplate) (q : ConsensusProposal ℚ),
    registrar.fillTemplate (registrar.createTemplate 0) = (.ok 2, t, registrar) ∧
      registrar.buildBlock t [] [] 0 0 (List.replicate 8 0) = .ok q ∧
      (registrar.selected 0).length = 2 ∧
      ∃ body, q.body = some body ∧ IssuesOnce body.transactions := by
  obtain ⟨t, q, hfill, hq⟩ := exists_buildBlock_registrar
  refine ⟨t, q, hfill, hq, ?_, (buildBlock_issuesOnce_iff hfill hq).mpr ?_⟩
  · rw [selected_registrar]
    rfl
  · rw [selected_registrar]
    simp [registration, penalty]

/-- A coinbase handed to the pool comes on top of the one of the producer. -/
theorem pooled_coinbase_issues_again : ∃ (p p' : BlockProducer) (t : BlockTemplate)
    (q : ConsensusProposal ℚ) (body : ProposalBody),
    p.ledger.Reachable ∧ p.mempool = (Mempool.addTransaction (Ledger.funding [] 0) {}).2 ∧
      p.fillTemplate (p.createTemplate 0) = (.ok 1, t, p') ∧
      p'.buildBlock t [] [] 0 0 (List.replicate 8 0) = .ok q ∧ q.body = some body ∧
      body.transactions.countP (fun tx => tx.txType = .coinbase) = 2 ∧
      COINBASE_REWARD + feesOfOthers body.transactions < p.ledger.issuance body.transactions := by
  have hpool : (Ledger.funding [] 0).Packable :=
    Ledger.packable_funding [] (by decide) (by decide)
  have haccepts : ({} : Ledger).Accepts (Ledger.funding [] 0) 0 := Ledger.accepts_funding [] 0 {}
  let p : BlockProducer :=
    { validatorId := [], mempool := (Mempool.addTransaction (Ledger.funding [] 0) {}).2 }
  let t : BlockTemplate :=
    { epoch := 0, proposerId := [], transactions := [Ledger.funding [] 0],
      totalSize := (Ledger.funding [] 0).size }
  have hcand : p.mempool.getTransactionsForBlock MAX_BLOCK_SIZE = [Ledger.funding [] 0] :=
    getTransactionsForBlock_singleton hpool (by decide)
  have hfill : p.fillTemplate (p.createTemplate 0) = (.ok 1, t, p) := by
    rw [fillTemplate_accepted _ (by simpa [hcand] using haccepts) (by rw [hcand]; decide), hcand]
    rfl
  have hpack : (createCoinbase t [] (milliseconds (0 : ℚ)) (List.replicate 8 0)).Packable := by
    rw [createCoinbase_packable_iff]
    decide +kernel
  obtain ⟨q, hq⟩ := (p.buildBlock_returns t [] [] (0 : ℚ) 0 (List.replicate 8 0)).mpr
    ⟨hpack, by simpa [t] using hpool⟩
  obtain ⟨hashes, -, rfl⟩ := buildBlock_eq_ok.mp hq
  refine ⟨p, p, t, _, _, ⟨[], .nil _⟩, rfl, hfill, hq, rfl, rfl, ?_⟩
  have hfees : feesOfOthers (createCoinbase t [] (milliseconds (0 : ℚ)) (List.replicate 8 0) ::
      [Ledger.funding [] 0]) = 0 := by
    simp [feesOfOthers, createCoinbase, Ledger.funding]
  change COINBASE_REWARD + feesOfOthers (createCoinbase t [] (milliseconds (0 : ℚ))
    (List.replicate 8 0) :: [Ledger.funding [] 0]) < ({} : Ledger).issuance (_ :: [_])
  rw [hfees, Ledger.issuance_cons_coinbase rfl rfl hpack,
    Ledger.issuance_cons_coinbase rfl rfl hpool]
  decide

end BlockProducer

end Qrtb
