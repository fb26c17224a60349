import Qrtb.Blocks.Producer
import Qrtb.Blocks.Selection
import Qrtb.Ledger.Runs

/-!
# The filled template (`fill_template` in `src/block_producer.py`)

Candidates that do not validate are dropped from the pool, and every other one is
added as long as there is a place left for it. Its size needs no second look: the
candidates fit into a block together.
-/

namespace Qrtb

namespace Mempool

theorem sum_size_selectForBlock (m : Mempool) {maxSize totalSize : ℕ} (h : totalSize ≤ maxSize)
    (entries : List PriorityEntry) :
    totalSize + ((m.selectForBlock maxSize totalSize entries).map Transaction.size).sum ≤
      maxSize := by
  induction entries generalizing totalSize with
  | nil => simpa [selectForBlock] using h
  | cons entry entries ih =>
    rw [selectForBlock]
    split
    next => exact ih h
    next tx _ =>
      split_ifs with hfits
      · exact ih h
      · have hrest := @ih (totalSize + tx.size) (by omega)
        rw [List.map_cons, List.sum_cons]
        omega

end Mempool

namespace BlockTemplate

/-- With room for its size, a transaction is refused only by a template of full length. -/
theorem addTransaction_of_fits {tx : Transaction} {t : BlockTemplate}
    (hsize : t.totalSize + tx.size ≤ MAX_BLOCK_SIZE) :
    t.addTransaction tx =
      if t.transactions.length ≥ MAX_TXS_PER_BLOCK then (false, t)
      else
        (true,
          { t with
            transactions := t.transactions ++ [tx]
            totalFees := t.totalFees + tx.fee
            totalSize := t.totalSize + tx.size }) := by
  rw [addTransaction, if_neg (not_lt.mpr hsize)]

end BlockTemplate

namespace BlockProducer

/-- The template and the fees it has collected, after some more transactions. -/
structure Extends (t t' : BlockTemplate) (picked : List Transaction) : Prop where
  epoch : t'.epoch = t.epoch
  transactions : t'.transactions = t.transactions ++ picked
  totalFees : t'.totalFees = t.totalFees + (picked.map Transaction.fee).sum

theorem Extends.refl (t : BlockTemplate) : Extends t t [] := ⟨rfl, by simp, by simp⟩

/-- A loop that returns has added the first accepted candidates, as many as there is room for. -/
theorem fillLoop_extends {L : Ledger} {txs : List Transaction} {added n : ℕ}
    {t t' : BlockTemplate} {m m' : Mempool} (h : fillLoop L txs added t m = (.ok n, t', m'))
    (hsize : t.totalSize + (txs.map Transaction.size).sum ≤ MAX_BLOCK_SIZE) :
    Extends t t' ((txs.filter fun tx => L.Accepts tx t.epoch).take
      (MAX_TXS_PER_BLOCK - t.transactions.length)) := by
  induction txs generalizing added t m with
  | nil =>
    obtain rfl : t = t' := (Prod.mk.inj (Prod.mk.inj h).2).1
    simpa using Extends.refl t
  | cons tx txs ih =>
    rw [List.map_cons, List.sum_cons] at hsize
    rw [fillLoop] at h
    split at h
    next hok =>
      have haccepts : L.Accepts tx t.epoch := hok
      rw [List.filter_cons_of_pos (by simpa using haccepts)]
      rw [BlockTemplate.addTransaction_of_fits (by omega)] at h
      split_ifs at h with hfull
      · obtain rfl : t = t' := (Prod.mk.inj (Prod.mk.inj h).2).1
        rw [Nat.sub_eq_zero_of_le hfull, List.take_zero]
        exact Extends.refl t
      · have hrest := ih h (by simp only; omega)
        have hroom : MAX_TXS_PER_BLOCK - t.transactions.length =
            MAX_TXS_PER_BLOCK - (t.transactions ++ [tx]).length + 1 := by
          rw [List.length_append, List.length_singleton]
          omega
        rw [hroom, List.take_succ_cons]
        refine ⟨hrest.epoch, ?_, ?_⟩
        · rw [hrest.transactions, List.append_assoc, List.singleton_append]
        · rw [hrest.totalFees, List.map_cons, List.sum_cons, add_assoc]
    next => cases h
    next reason hreject =>
      have hrefused : ¬ L.Accepts tx t.epoch := by
        rw [Ledger.Accepts, hreject]
        simp
      rw [List.filter_cons_of_neg (by simpa using hrefused)]
      split at h
      next => cases h
      next => exact ih h (by omega)

/-- The candidates of the pool that validate against the ledger, as many as a block takes. -/
def selected (p : BlockProducer) (epoch : ℤ) : List Transaction :=
  ((p.mempool.getTransactionsForBlock MAX_BLOCK_SIZE).filter fun tx =>
    p.ledger.Accepts tx epoch).take MAX_TXS_PER_BLOCK

theorem fillTemplate_extends {p p' : BlockProducer} {epoch : ℤ} {n : ℕ} {t : BlockTemplate}
    (h : p.fillTemplate (p.createTemplate epoch) = (.ok n, t, p')) :
    Extends (p.createTemplate epoch) t (p.selected epoch) := by
  have hloop : fillLoop p.ledger (p.mempool.getTransactionsForBlock MAX_BLOCK_SIZE) 0
      (p.createTemplate epoch) p.mempool =
        (.ok n, t, (fillLoop p.ledger (p.mempool.getTransactionsForBlock MAX_BLOCK_SIZE) 0
          (p.createTemplate epoch) p.mempool).2.2) := by
    obtain ⟨hret, hrest⟩ := Prod.mk.inj h
    exact Prod.ext hret (Prod.ext (Prod.mk.inj hrest).1 rfl)
  exact fillLoop_extends hloop
    (p.mempool.sum_size_selectForBlock (Nat.zero_le MAX_BLOCK_SIZE) p.mempool.priority)

theorem fillLoop_accepted {L : Ledger} {txs : List Transaction} {added : ℕ} {t : BlockTemplate}
    {m : Mempool} (haccepts : ∀ tx ∈ txs, L.Accepts tx t.epoch)
    (hcount : t.transactions.length + txs.length ≤ MAX_TXS_PER_BLOCK)
    (hsize : t.totalSize + (txs.map Transaction.size).sum ≤ MAX_BLOCK_SIZE) :
    fillLoop L txs added t m =
      (.ok (added + txs.length),
        { t with
          transactions := t.transactions ++ txs
          totalFees := t.totalFees + (txs.map Transaction.fee).sum
          totalSize := t.totalSize + (txs.map Transaction.size).sum }, m) := by
  induction txs generalizing added t with
  | nil => simp [fillLoop]
  | cons tx txs ih =>
    rw [List.length_cons] at hcount
    rw [List.map_cons, List.sum_cons] at hsize
    have hok : L.validateTransaction tx t.epoch = .ok () := haccepts tx List.mem_cons_self
    have hroom : ¬ t.transactions.length ≥ MAX_TXS_PER_BLOCK := by omega
    have hrest := @ih (added + 1)
      { t with
        transactions := t.transactions ++ [tx]
        totalFees := t.totalFees + tx.fee
        totalSize := t.totalSize + tx.size }
      (fun tx' htx => haccepts tx' (List.mem_cons_of_mem _ htx))
      (by simp only [List.length_append, List.length_singleton]; omega) (by simp only; omega)
    rw [fillLoop, hok, BlockTemplate.addTransaction_of_fits (by omega), if_neg hroom]
    simp only [hrest, List.length_cons, List.map_cons, List.sum_cons, List.append_assoc,
      List.singleton_append, add_assoc, add_comm 1]

theorem fillTemplate_accepted {p : BlockProducer} (epoch : ℤ)
    (haccepts : ∀ tx ∈ p.mempool.getTransactionsForBlock MAX_BLOCK_SIZE, p.ledger.Accepts tx epoch)
    (hcount : (p.mempool.getTransactionsForBlock MAX_BLOCK_SIZE).length ≤ MAX_TXS_PER_BLOCK) :
    p.fillTemplate (p.createTemplate epoch) =
      (.ok (p.mempool.getTransactionsForBlock MAX_BLOCK_SIZE).length,
        { p.createTemplate epoch with
          transactions := p.mempool.getTransactionsForBlock MAX_BLOCK_SIZE
          totalFees := ((p.mempool.getTransactionsForBlock MAX_BLOCK_SIZE).map Transaction.fee).sum
          totalSize :=
            ((p.mempool.getTransactionsForBlock MAX_BLOCK_SIZE).map Transaction.size).sum }, p) := by
  have hsize := p.mempool.sum_size_selectForBlock (Nat.zero_le MAX_BLOCK_SIZE) p.mempool.priority
  rw [fillTemplate, fillLoop_accepted haccepts (by rwa [createTemplate, List.length_nil, zero_add])
    hsize]
  simp [createTemplate]

theorem getTransactionsForBlock_singleton {tx : Transaction} (hp : tx.Packable)
    (hsize : tx.size ≤ MAX_TX_SIZE) :
    (Mempool.addTransaction tx {}).2.getTransactionsForBlock MAX_BLOCK_SIZE = [tx] := by
  obtain ⟨h, hh⟩ := tx.txHash_returns.mpr hp
  rw [MAX_TX_SIZE] at hsize
  have hroom : ¬ 104857600 < tx.size := by omega
  have hblock : ¬ MAX_BLOCK_SIZE < tx.size := by
    rw [MAX_BLOCK_SIZE]
    omega
  simp [Mempool.addTransaction, hh, OrderedDict.contains, hroom, Mempool.getTransactionsForBlock,
    Mempool.enqueue, Mempool.selectForBlock, hblock]

/-- The pool that was given one transaction and then another. -/
def twoPooled (tx tx' : Transaction) : Mempool :=
  (Mempool.addTransaction tx' (Mempool.addTransaction tx {}).2).2

theorem reachable_twoPooled (tx tx' : Transaction) : (twoPooled tx tx').Reachable :=
  ⟨_, [.add tx, .add tx'], .cons rfl (.single rfl)⟩

theorem getTransactionsForBlock_twoPooled {tx tx' : Transaction} (hp : tx.Packable)
    (hp' : tx'.Packable) (hsize : tx.size ≤ MAX_TX_SIZE) (hsize' : tx'.size ≤ MAX_TX_SIZE)
    (hunrelated : Mempool.Unrelated tx tx')
    (hrate : Mempool.floatRate tx'.fee tx'.size < Mempool.floatRate tx.fee tx.size) :
    (twoPooled tx tx').getTransactionsForBlock MAX_BLOCK_SIZE = [tx, tx'] := by
  have hpool : twoPooled tx tx' = Transition.runs (Mempool.Command.act Mempool.floatRate)
      ([tx, tx'].map Mempool.Command.add) { maxSize := 100 * 1024 * 1024 } := rfl
  have hsum : ([tx, tx'].map fun tx => (tx.size : ℤ)).sum ≤ MAX_BLOCK_SIZE := by
    rw [MAX_TX_SIZE] at hsize hsize'
    simp only [List.map_cons, List.map_nil, List.sum_cons, List.sum_nil, MAX_BLOCK_SIZE]
    omega
  have hperm := Mempool.perm_getTransactionsForBlock_runs 100 (by simp [hp, hp'])
    (List.pairwise_pair.mpr hunrelated) (hsum.trans (by decide)) hsum
  have hordered := (Mempool.getTransactionsWithin_selects 100 ([tx, tx'].map Mempool.Command.add)
    MAX_BLOCK_SIZE).ordered
  rw [Mempool.getTransactionsWithin_natCast] at hordered
  rw [hpool]
  rcases List.perm_pair.mp hperm with hlist | hlist
  · exact hlist
  · rw [hlist, List.pairwise_pair] at hordered
    obtain ⟨h, h', -, -, hbelow⟩ := hordered
    rcases hbelow with hlt | ⟨heq, -⟩
    · exact absurd hlt hrate.not_gt
    · exact absurd heq hrate.ne'

theorem selected_accepted {p : BlockProducer} {epoch : ℤ} {txs : List Transaction}
    (hcand : p.mempool.getTransactionsForBlock MAX_BLOCK_SIZE = txs)
    (haccepts : ∀ tx ∈ txs, p.ledger.Accepts tx epoch) (hcount : txs.length ≤ MAX_TXS_PER_BLOCK) :
    p.selected epoch = txs := by
  rw [selected, hcand, List.filter_eq_self.mpr (by simpa using haccepts),
    List.take_of_length_le hcount]

section Registrar

open Ledger

def registrant : Bytes := deriveAddress (List.replicate 64 0)

/-- The hash of the coinbase that pays the registrant. -/
def paidHash : Bytes :=
  match (funding registrant 1).txHash with
  | .ok h => h
  | .error _ => []

/-- The registrant publishes a root, unsigned. -/
def registration : Transaction :=
  spending .register [(paidHash, 0)] none
    { value := 900000, address := [], data := List.replicate 96 0 } 0

/-- Somebody slashes the locked output of the registrant, unsigned. -/
def penalty : Transaction :=
  spending .slash [(paidHash, 1)] none
    { value := 900000, address := [], data := List.replicate 128 0 } 0

def registrar : BlockProducer where
  validatorId := []
  ledger := funded registrant 1
  mempool := twoPooled (registration.signedBy []) (penalty.signedBy [])

theorem reachable_registrar : registrar.ledger.Reachable ∧ registrar.mempool.Reachable := by
  simp only [registrar]
  exact ⟨reachable_funded registrant 1, reachable_twoPooled _ _⟩

theorem nodup_txHash_registrar :
    [(funding registrant 1).txHash, registration.txHash, penalty.txHash].Nodup := by
  decide +kernel

theorem get?_paidHash :
    (funding registrant 1).txHash = .ok paidHash ∧
    (funded registrant 1).utxoSet.utxos.get? (paidHash, 0) =
      some (UtxoSet.newUtxo 0 paidHash 0 { value := 1000000, address := registrant }) ∧
    (funded registrant 1).utxoSet.utxos.get? (paidHash, 1) =
      some (UtxoSet.newUtxo 0 paidHash 1
        { value := 1000000, address := registrant, lockEpoch := 1 }) := by
  obtain ⟨h, hh, hget⟩ := exists_funded registrant (by decide : (0 : ℤ) ≤ 1) (by decide)
  have hpaid : paidHash = h := by simp only [paidHash, hh]
  rw [hpaid]
  exact ⟨hh, hget⟩

theorem readyToSign_registration : registration.ReadyToSign :=
  readyToSign_spending (by simp) (by simp) (by simp) (by simp) (by simp) (by simp) (by simp)
    (by decide)

theorem readyToSign_penalty : penalty.ReadyToSign :=
  readyToSign_spending (by simp) (by simp) (by simp) (by simp) (by simp) (by simp) (by simp)
    (by decide)

theorem accepts_registration : (funded registrant 1).Accepts (registration.signedBy []) 0 := by
  obtain ⟨-, hfree, -⟩ := get?_paidHash
  refine accepts_register_signedBy [] rfl readyToSign_registration (by simp [registration])
    (by simp [registration]) rfl rfl (by simp) ⟨hfree, rfl⟩ ?_ ?_ ?_ ?_
  · simp [UtxoSet.newUtxo, registrant]
  · simp [UtxoSet.newUtxo]
  · simp [authRegistry_funded, AuthRegistry.isRegistered]
  · simp [registration, conserves_spending, UtxoSet.valueAt, hfree, UtxoSet.newUtxo]

theorem accepts_penalty : (funded registrant 1).Accepts (penalty.signedBy []) 0 :=
  accepts_slash_spending [] (by simp) get?_paidHash.2.2 rfl (by simp [UtxoSet.newUtxo])
    (by simp) rfl (by simp)

theorem size_registration : (registration.signedBy []).size = 4542 := by
  rw [readyToSign_registration.size_signedBy, registration, size_spending]
  simp [spending]

theorem size_penalty : (penalty.signedBy []).size = 4574 := by
  rw [readyToSign_penalty.size_signedBy, penalty, size_spending]
  simp [spending]

theorem candidates_registrar : registrar.mempool.getTransactionsForBlock MAX_BLOCK_SIZE =
    [registration.signedBy [], penalty.signedBy []] := by
  apply getTransactionsForBlock_twoPooled
  · exact (registration.packable_signedBy []).mpr readyToSign_registration.1
  · exact (penalty.packable_signedBy []).mpr readyToSign_penalty.1
  · rw [size_registration]
    decide
  · rw [size_penalty]
    decide
  · refine ⟨?_, ?_⟩
    · have hdistinct := (List.nodup_cons.mp (List.nodup_cons.mp nodup_txHash_registrar).2).1
      rw [Transaction.txHash_signedBy, Transaction.txHash_signedBy]
      simpa using hdistinct
    · simp [Mempool.SpendApart, Transaction.refs_signedBy, registration, penalty]
  · rw [size_registration, size_penalty, Transaction.fee_signedBy, Transaction.fee_signedBy,
      registration, penalty, fee_spending, fee_spending]
    decide +kernel

theorem accepts_registrar : ∀ tx ∈ [registration.signedBy [], penalty.signedBy []],
    registrar.ledger.Accepts tx 0 := by
  simp only [List.mem_cons, List.not_mem_nil, or_false, forall_eq_or_imp, forall_eq]
  exact ⟨accepts_registration, accepts_penalty⟩

theorem selected_registrar :
    registrar.selected 0 = [registration.signedBy [], penalty.signedBy []] :=
  selected_accepted candidates_registrar accepts_registrar (by simp [MAX_TXS_PER_BLOCK])

theorem exists_fillTemplate_registrar : ∃ t,
    registrar.fillTemplate (registrar.createTemplate 0) = (.ok 2, t, registrar) ∧
      t.transactions = [registration.signedBy [], penalty.signedBy []] ∧ t.totalFees = 200000 ∧
      t.epoch = 0 := by
  have hfill := registrar.fillTemplate_accepted 0
    (by rw [candidates_registrar]; exact accepts_registrar)
    (by rw [candidates_registrar]; simp [MAX_TXS_PER_BLOCK])
  rw [candidates_registrar] at hfill
  refine ⟨_, hfill, rfl, ?_, rfl⟩
  simp [registration, penalty]

end Registrar

end BlockProducer

end Qrtb
