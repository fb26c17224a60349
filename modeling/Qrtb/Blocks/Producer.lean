import Qrtb.Blocks.Mempool
import Qrtb.Ledger.Apply

/-!
# Block production (`src/block_producer.py`)

A producer works on a ledger and a mempool. Filling a template validates every
candidate against the ledger as it stands, applying a block changes the ledger
in place, transaction by transaction. The block that is stored on the way has
no influence on either, and storing it never raises.
-/

namespace Qrtb

def MAX_BLOCK_SIZE : ℕ := 4 * 1024 * 1024
def MAX_TXS_PER_BLOCK : ℕ := 1000
def COINBASE_REWARD : ℤ := 5000000000

structure BlockTemplate where
  epoch : ℤ
  proposerId : Bytes
  transactions : List Transaction := []
  txMerkleRoot : Bytes := List.replicate 32 0
  stateRoot : Bytes := List.replicate 32 0
  totalFees : ℤ := 0
  totalSize : ℕ := 0
  deriving DecidableEq

namespace BlockTemplate

def addTransaction (tx : Transaction) (t : BlockTemplate) : Bool × BlockTemplate :=
  if t.transactions.length ≥ MAX_TXS_PER_BLOCK then (false, t)
  else if t.totalSize + tx.size > MAX_BLOCK_SIZE then (false, t)
  else
    (true,
      { t with
        transactions := t.transactions ++ [tx]
        totalFees := t.totalFees + tx.fee
        totalSize := t.totalSize + tx.size })

theorem addTransaction_cases (tx : Transaction) (t : BlockTemplate) :
    t.addTransaction tx = (false, t) ∨
    ∃ t', t.addTransaction tx = (true, t') ∧ t'.epoch = t.epoch ∧
      t'.transactions = t.transactions ++ [tx] := by
  unfold addTransaction
  split_ifs
  · exact Or.inl rfl
  · exact Or.inl rfl
  · exact Or.inr ⟨_, rfl, rfl, rfl⟩

end BlockTemplate

structure BlockProducer where
  validatorId : Bytes
  ledger : Ledger := {}
  mempool : Mempool := {}
  deriving DecidableEq

namespace BlockProducer

def createTemplate (p : BlockProducer) (epoch : ℤ) : BlockTemplate :=
  { epoch, proposerId := p.validatorId }

/-- The loop of `fill_template`; it ends early when the block is full. -/
def fillLoop (L : Ledger) : List Transaction → ℕ → BlockTemplate → Mempool →
    Except PyError ℕ × BlockTemplate × Mempool
  | [], added, t, m => (.ok added, t, m)
  | tx :: txs, added, t, m =>
    match L.validateTransaction tx t.epoch with
    | .ok () =>
      match t.addTransaction tx with
      | (true, t') => fillLoop L txs (added + 1) t' m
      | (false, t') => (.ok added, t', m)
    | .error (.raised e) => (.error e, t, m)
    | .error (.reject _) =>
      match tx.txHash with
      | .error e => (.error e, t, m)
      | .ok txHash => fillLoop L txs added t (m.removeTransaction txHash).2

/-- Returns the number of transactions added, the filled template and the producer with the
rejected transactions taken out of its pool. -/
def fillTemplate (p : BlockProducer) (t : BlockTemplate) :
    Except PyError ℕ × BlockTemplate × BlockProducer :=
  let r := fillLoop p.ledger (p.mempool.getTransactionsForBlock MAX_BLOCK_SIZE) 0 t p.mempool
  (r.1, r.2.1, { p with mempool := r.2.2 })

/-- The coinbase of a block; time in milliseconds and the random nonce come from outside. -/
def createCoinbase (t : BlockTemplate) (rewardAddress : Bytes) (timestamp : ℤ) (nonce : Bytes) :
    Transaction :=
  { version := 1
    txType := .coinbase
    inputs := []
    outputs :=
      [{ value := COINBASE_REWARD + t.totalFees
         address := rewardAddress
         lockEpoch := t.epoch + 100 }]
    epoch := t.epoch
    timestamp := timestamp
    fee := 0
    nonce := nonce }

/-- The application loop of a block: the first failure ends it, an exception included. -/
def applyTransactions : List Transaction → Ledger → Bool × Ledger
  | [], L => (true, L)
  | tx :: txs, L =>
    match Ledger.applyTransaction tx L with
    | (.ok true, L') => applyTransactions txs L'
    | (_, L') => (false, L')

/-- The confirmed hashes form a set; by `Mempool.clearConfirmed_perm` their order does not matter. -/
def applyBlock (txs : List Transaction) (p : BlockProducer) : Bool × BlockProducer :=
  match applyTransactions txs p.ledger with
  | (false, L) => (false, { p with ledger := L })
  | (true, L) =>
    match txs.mapM Transaction.txHash with
    | .error _ => (false, { p with ledger := L })
    | .ok hashes =>
      (true, { p with ledger := L, mempool := (p.mempool.clearConfirmed hashes.dedup).2 })

theorem fillLoop_transactions (L : Ledger) (txs : List Transaction) (added : ℕ)
    (t : BlockTemplate) (m : Mempool) :
    ∃ picked, (fillLoop L txs added t m).2.1.transactions = t.transactions ++ picked ∧
      picked.Sublist txs ∧ ∀ tx ∈ picked, L.Accepts tx t.epoch := by
  induction txs generalizing added t m with
  | nil => exact ⟨[], by simp [fillLoop], List.Sublist.refl _, by simp⟩
  | cons tx txs ih =>
    have stop : ∃ picked, t.transactions = t.transactions ++ picked ∧ picked.Sublist (tx :: txs) ∧
        ∀ tx ∈ picked, L.Accepts tx t.epoch := ⟨[], by simp, List.nil_sublist _, by simp⟩
    rw [fillLoop]
    split
    next hok =>
      rcases t.addTransaction_cases tx with hfull | ⟨t', hadd, hepoch, htxs⟩
      · rw [hfull]
        exact stop
      · rw [hadd]
        obtain ⟨picked, hp, hsub, hacc⟩ := ih (added + 1) t' m
        refine ⟨tx :: picked, ?_, hsub.cons_cons tx, ?_⟩
        · simp only [hp, htxs, List.append_assoc, List.cons_append, List.nil_append]
        · rw [hepoch] at hacc
          intro tx' htx'
          rcases List.mem_cons.mp htx' with rfl | htx'
          · exact hok
          · exact hacc tx' htx'
    next => exact stop
    next =>
      split
      · exact stop
      · obtain ⟨picked, hp, hsub, hacc⟩ := ih added t _
        exact ⟨picked, hp, hsub.cons tx, hacc⟩

/-- A filled template holds accepted candidates of the pool, in the order of the queue. -/
theorem fillTemplate_transactions (p : BlockProducer) (epoch : ℤ) :
    ((p.fillTemplate (p.createTemplate epoch)).2.1.transactions.Sublist
      (p.mempool.getTransactionsForBlock MAX_BLOCK_SIZE)) ∧
    ∀ tx ∈ (p.fillTemplate (p.createTemplate epoch)).2.1.transactions,
      p.ledger.Accepts tx epoch := by
  obtain ⟨picked, hp, hsub, hacc⟩ := fillLoop_transactions p.ledger
    (p.mempool.getTransactionsForBlock MAX_BLOCK_SIZE) 0 (p.createTemplate epoch) p.mempool
  have htxs : (p.fillTemplate (p.createTemplate epoch)).2.1.transactions = picked := by
    simpa [fillTemplate, createTemplate] using hp
  rw [htxs]
  exact ⟨hsub, hacc⟩

end BlockProducer

end Qrtb
