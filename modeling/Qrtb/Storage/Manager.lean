import Qrtb.Storage.TransactionStore

/-!
# The storage manager (`src/storage.py`)

`store_block_with_transactions` makes many inner calls on three databases. Each
inner call commits by itself, and the ones that report failure by `False` are not
looked at. What fails by itself is given from outside, one flag for each inner
call.
-/

namespace Qrtb

open Transition PyFloat

/-- The table `chain_state` of the state database. -/
structure StateDB where
  chainState : OrderedDict String Bytes := ∅
  deriving DecidableEq

namespace StateDB

def setState (fault : Bool) (key : String) (value : Bytes) (s : StateDB) :
    Except PyError StateDB :=
  if fault then .error .operationalError else .ok { chainState := s.chainState.set key value }

def setCurrentEpoch (fault : Bool) (epoch : ℤ) (s : StateDB) : Except PyError StateDB := do
  setState fault "current_epoch" (← structPack 8 epoch) s

theorem setCurrentEpoch_returns (fault : Bool) (epoch : ℤ) (s : StateDB) :
    (s.setCurrentEpoch fault epoch).Returns ↔
      (0 ≤ epoch ∧ epoch < 256 ^ 8) ∧ fault = false := by
  rw [setCurrentEpoch, Except.returns_bind]
  simp only [structPack_eq_ok, setState]
  constructor
  · rintro ⟨_, ⟨he, rfl⟩, h⟩
    cases fault with
    | true => exact absurd h (by simp [Except.Returns])
    | false => exact ⟨he, rfl⟩
  · rintro ⟨he, rfl⟩
    exact ⟨_, ⟨he, rfl⟩, _, rfl⟩

end StateDB

/-- The inner calls of `store_block_with_transactions`; transactions and inputs by position. -/
inductive CallSite where
  | storeTransaction (i : ℕ)
  | markOutputSpent (i j : ℕ)
  | getLatestBlock
  | storeBlock
  | setState
  deriving DecidableEq

/-- The inner calls in which a statement fails by itself. -/
abbrev Faults := CallSite → Bool

def noFaults : Faults := fun _ => false

namespace TransactionStore

/-- The loop over the inputs of the transaction at position `i`. -/
def markInputs (faults : Faults) (i : ℕ) (txHash : Bytes) :
    ℕ → List TxInput → TransactionStore → TransactionStore
  | _, [], s => s
  | j, inp :: inps, s =>
    markInputs faults i txHash (j + 1) inps
      (s.markOutputSpent (faults (.markOutputSpent i j)) inp.ref txHash).2

/-- The loop over the transactions; a transaction without a hash ends it with an exception. -/
def storeTransactions (faults : Faults) :
    ℕ → List Transaction → TransactionStore → Except PyError (List Bytes) × TransactionStore
  | _, [], s => (.ok [], s)
  | i, tx :: txs, s =>
    let stored := (s.storeTransaction (faults (.storeTransaction i)) tx).2
    match tx.txHash with
    | .error e => (.error e, stored)
    | .ok txHash =>
      let rest := storeTransactions faults (i + 1) txs
        (markInputs faults i txHash 0 tx.inputs stored)
      (do return txHash :: (← rest.1), rest.2)

end TransactionStore

structure StorageManager where
  blocks : BlockStore := ∅
  transactions : TransactionStore := ∅
  state : StateDB := {}
  utxoSet : UtxoSet := {}

namespace StorageManager

instance : EmptyCollection StorageManager := ⟨{}⟩

variable {F : Type} [PyFloat F]

def storeBlockWithTransactions (faults : Faults) (block : ConsensusBlock F)
    (transactions : List Transaction) (m : StorageManager) : Bool × StorageManager :=
  let stored := m.transactions.storeTransactions faults 0 transactions
  let m := { m with transactions := stored.2 }
  match stored.1 with
  | .error _ => (false, m)
  | .ok txHashes =>
    if faults .getLatestBlock then (false, m)
    else
      let prevHash := m.blocks.getLatestBlock.map StoredBlock.blockHash
      let storedBlock := StoredBlock.fromConsensusBlock block txHashes prevHash
      let m := { m with blocks := (m.blocks.storeBlock (faults .storeBlock) storedBlock).2 }
      match m.state.setCurrentEpoch (faults .setState) block.epoch with
      | .error _ => (false, m)
      | .ok state => (true, { m with state := state })

end StorageManager

namespace TransactionStore

/-- A call that changes the transaction store. -/
inductive Call where
  | storeTransaction (fault : Bool) (tx : Transaction)
  | markOutputSpent (fault : Bool) (ref : OutRef) (spendingTx : Bytes)

def apply : Call → TransactionStore → TransactionStore
  | .storeTransaction fault tx, s => (s.storeTransaction fault tx).2
  | .markOutputSpent fault ref spendingTx, s => (s.markOutputSpent fault ref spendingTx).2

def markCalls (faults : Faults) (i : ℕ) (txHash : Bytes) : ℕ → List TxInput → List Call
  | _, [] => []
  | j, inp :: inps =>
    .markOutputSpent (faults (.markOutputSpent i j)) inp.ref txHash ::
      markCalls faults i txHash (j + 1) inps

/-- The calls of the loop over the transactions, in order. -/
def storeCalls (faults : Faults) : ℕ → List Transaction → List Call
  | _, [] => []
  | i, tx :: txs =>
    .storeTransaction (faults (.storeTransaction i)) tx ::
      match tx.txHash with
      | .error _ => []
      | .ok txHash => markCalls faults i txHash 0 tx.inputs ++ storeCalls faults (i + 1) txs

theorem markInputs_eq_runs (faults : Faults) (i j : ℕ) (txHash : Bytes) (inps : List TxInput)
    (s : TransactionStore) :
    s.markInputs faults i txHash j inps = runs apply (markCalls faults i txHash j inps) s := by
  induction inps generalizing j s with
  | nil => rfl
  | cons inp inps ih =>
    rw [markInputs, ih, markCalls, runs_cons]
    rfl

theorem storeTransactions_snd (faults : Faults) (i : ℕ) (txs : List Transaction)
    (s : TransactionStore) :
    (s.storeTransactions faults i txs).2 = runs apply (storeCalls faults i txs) s := by
  induction txs generalizing i s with
  | nil => rfl
  | cons tx txs ih =>
    rw [storeTransactions, storeCalls, runs_cons]
    cases hh : tx.txHash with
    | error e => rfl
    | ok txHash =>
      rw [runs_append, ← markInputs_eq_runs, ← ih]
      rfl

theorem storeTransactions_fst (faults : Faults) (i : ℕ) (txs : List Transaction)
    (s : TransactionStore) :
    (s.storeTransactions faults i txs).1 = txs.mapM Transaction.txHash := by
  induction txs generalizing i s with
  | nil => rfl
  | cons tx txs ih =>
    rw [storeTransactions, List.mapM_cons]
    cases hh : tx.txHash with
    | error e => rfl
    | ok txHash =>
      simp only [ih]
      rfl

end TransactionStore

namespace StorageManager

variable {F : Type} [PyFloat F]

/-- The block a call hands to the block store. -/
def linkedBlock (m : StorageManager) (block : ConsensusBlock F) (txHashes : List Bytes) :
    StoredBlock :=
  StoredBlock.fromConsensusBlock block txHashes (m.blocks.getLatestBlock.map StoredBlock.blockHash)

/-- The transaction store after the loop of a call. -/
def loopedTransactions (m : StorageManager) (faults : Faults) (txs : List Transaction) :
    TransactionStore :=
  runs TransactionStore.apply (TransactionStore.storeCalls faults 0 txs) m.transactions

theorem storeBlockWithTransactions_of_raise {faults : Faults} {txs : List Transaction}
    (h : ¬ ((txs.mapM Transaction.txHash).Returns ∧ faults .getLatestBlock = false))
    (block : ConsensusBlock F) (m : StorageManager) :
    m.storeBlockWithTransactions faults block txs =
      (false, { m with transactions := m.loopedTransactions faults txs }) := by
  rw [storeBlockWithTransactions, loopedTransactions, ← TransactionStore.storeTransactions_snd]
  simp only [TransactionStore.storeTransactions_fst]
  cases hh : txs.mapM Transaction.txHash with
  | error e => rfl
  | ok hashes =>
    cases hf : faults .getLatestBlock with
    | true => rfl
    | false => exact absurd ⟨⟨hashes, hh⟩, hf⟩ h

/-- Otherwise the block store is called, and the call succeeds when the epoch can be recorded. -/
theorem storeBlockWithTransactions_of_hashes {faults : Faults} {txs : List Transaction}
    {hashes : List Bytes} (hh : txs.mapM Transaction.txHash = .ok hashes)
    (hf : faults .getLatestBlock = false) (block : ConsensusBlock F) (m : StorageManager) :
    m.storeBlockWithTransactions faults block txs =
      (decide ((0 ≤ block.epoch ∧ block.epoch < 256 ^ 8) ∧ faults .setState = false),
        { m with
          transactions := m.loopedTransactions faults txs
          blocks := (m.blocks.storeBlock (faults .storeBlock) (m.linkedBlock block hashes)).2
          state := (m.state.setCurrentEpoch (faults .setState) block.epoch).toOption.getD
            m.state }) := by
  rw [storeBlockWithTransactions, loopedTransactions, ← TransactionStore.storeTransactions_snd]
  simp only [TransactionStore.storeTransactions_fst, hh, hf, Bool.false_eq_true, if_false]
  have hret := StateDB.setCurrentEpoch_returns (faults .setState) block.epoch m.state
  cases hs : m.state.setCurrentEpoch (faults .setState) block.epoch with
  | error e =>
    have hnot : ¬ ((0 ≤ block.epoch ∧ block.epoch < 256 ^ 8) ∧ faults .setState = false) := by
      rw [← hret, hs]
      rintro ⟨_, h⟩
      cases h
    rw [decide_eq_false hnot]
    rfl
  | ok state =>
    rw [decide_eq_true (hret.mp ⟨state, hs⟩)]
    rfl

theorem transactions_storeBlockWithTransactions (faults : Faults) (block : ConsensusBlock F)
    (txs : List Transaction) (m : StorageManager) :
    (m.storeBlockWithTransactions faults block txs).2.transactions =
      m.loopedTransactions faults txs := by
  by_cases h : (txs.mapM Transaction.txHash).Returns ∧ faults .getLatestBlock = false
  · obtain ⟨⟨hashes, hh⟩, hf⟩ := h
    rw [storeBlockWithTransactions_of_hashes hh hf]
  · rw [storeBlockWithTransactions_of_raise h]

/-- The block can be stored: its transactions have hashes and its integers fit the columns. -/
def Writable (p : ConsensusBlock F × List Transaction) : Prop :=
  (p.2.mapM Transaction.txHash).Returns ∧ FitsSql p.1.epoch ∧
    FitsSql (milliseconds p.1.finalizationTime) ∧ FitsSql p.2.length

instance (p : ConsensusBlock F × List Transaction) : Decidable (Writable p) :=
  decidable_of_iff
    ((∀ tx ∈ p.2, tx.Packable) ∧ FitsSql p.1.epoch ∧
      FitsSql (milliseconds p.1.finalizationTime) ∧ FitsSql p.2.length)
    (by simp only [Writable, Except.returns_mapM, Transaction.txHash_returns])

/-- The block store after the call that stores a block. -/
def blocksAfter (m : StorageManager) (p : ConsensusBlock F × List Transaction) : BlockStore :=
  (m.storeBlockWithTransactions noFaults p.1 p.2).2.blocks

theorem blocksAfter_of_not_writable {m : StorageManager}
    {p : ConsensusBlock F × List Transaction} (h : ¬ Writable p) :
    blocksAfter m p = m.blocks := by
  rw [blocksAfter]
  by_cases hret : (p.2.mapM Transaction.txHash).Returns
  · obtain ⟨hashes, hh⟩ := hret
    have hnot : ¬ m.blocks.Lands (noFaults .storeBlock) (m.linkedBlock p.1 hashes) := by
      intro hl
      have hcount : FitsSql hashes.length := hl.txCount
      rw [Except.length_of_mapM hh] at hcount
      exact h ⟨⟨hashes, hh⟩, hl.epoch, hl.timestamp, hcount⟩
    rw [storeBlockWithTransactions_of_hashes hh rfl,
      m.blocks.storeBlock_of_not_lands hnot]
  · rw [storeBlockWithTransactions_of_raise fun hc => hret hc.1]

/-- A writable block is merged into what stands at its epoch, unless another epoch has its
hash. -/
theorem blockAt_blocksAfter {m : StorageManager} {p : ConsensusBlock F × List Transaction}
    (h : Writable p)
    (hfresh : p.1.epoch ∉ m.blocks.blocks.keys → p.1.blockHash ∉ m.blocks.hashes) :
    ∃ hashes, p.2.mapM Transaction.txHash = .ok hashes ∧ ∀ e, (blocksAfter m p).blockAt e =
      if e = p.1.epoch then
        some (BlockStore.merge (m.linkedBlock p.1 hashes) (m.blocks.blockAt e))
      else m.blocks.blockAt e := by
  obtain ⟨⟨hashes, hh⟩, hepoch, htime, hcount⟩ := h
  have hlands : m.blocks.Lands (noFaults .storeBlock) (m.linkedBlock p.1 hashes) :=
    ⟨rfl, hepoch, htime, by
      show FitsSql hashes.length
      rwa [Except.length_of_mapM hh], hfresh⟩
  refine ⟨hashes, hh, fun e => ?_⟩
  rw [blocksAfter, storeBlockWithTransactions_of_hashes hh rfl]
  exact (m.blocks.storeBlock_of_lands hlands).2 e

end StorageManager

/-- A block without votes at the start of time. -/
def bareBlock (epoch : ℤ) : ConsensusBlock ℚ :=
  { epoch := epoch
    round := 0
    proposal := { proposerId := [], epoch := epoch, round := 0, measurementRoot := [] }
    votes := []
    totalStake := 0
    supportingStake := 0
    finalizationTime := 0 }

theorem bareBlock_postInit {epoch : ℤ} (h : 0 ≤ epoch ∧ epoch < 256 ^ 8) :
    ∃ blockHash, (bareBlock epoch).postInit = .ok { bareBlock epoch with blockHash } := by
  have hzero : 0 ≤ (0 : ℤ) ∧ (0 : ℤ) < 256 ^ 8 := by decide
  have hms : milliseconds (0 : ℚ) = 0 := by decide +kernel
  obtain ⟨proposalHash, hp⟩ : ∃ proposalHash,
      (bareBlock epoch).proposal.proposalHash = .ok proposalHash :=
    ⟨_, (ConsensusProposal.proposalHash_eq_ok _).mpr
      ⟨_, (ConsensusProposal.hashedBytes_eq_ok _).mpr ⟨⟨h, hzero⟩, rfl⟩, rfl⟩⟩
  have hdata := (ConsensusBlock.hashedBytes_eq_ok (bareBlock epoch)).mpr
    ⟨proposalHash, hp, hzero, hzero, hms ▸ hzero, rfl⟩
  exact ⟨_, (ConsensusBlock.postInit_eq_ok _).mpr ⟨_, hdata, rfl⟩⟩

def sealedBlock (epoch : ℤ) : ConsensusBlock ℚ :=
  match (bareBlock epoch).postInit with
  | .ok block => block
  | .error _ => bareBlock epoch

theorem sealedBlock_postInit {epoch : ℤ} (h : 0 ≤ epoch ∧ epoch < 256 ^ 8) :
    (bareBlock epoch).postInit = .ok (sealedBlock epoch) := by
  obtain ⟨blockHash, hb⟩ := bareBlock_postInit h
  rw [sealedBlock, hb]

end Qrtb
