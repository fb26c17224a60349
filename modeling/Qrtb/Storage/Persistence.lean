import Qrtb.Storage.Writes

/-!
# What a stored block leaves behind

`store_block_with_transactions` answers `True` when its last step went through,
whatever the stores reported before, and an exception on the way undoes nothing.
Both answers are still right on some inputs. `True` is, when every transaction
and the block were there already or were really written; `False` is, when all that
was written repeats what was there.
-/

namespace Qrtb

open Transition PyFloat
open IndexedTable (rowAt)

namespace BlockStore

variable (s : BlockStore)

structure SameRows (s s' : BlockStore) : Prop where
  blocks : ∀ epoch, s.blocks.get? epoch = s'.blocks.get? epoch
  blockTransactions : ∀ key, s.blockTransactions.get? key = s'.blockTransactions.get? key

theorem SameRows.blockAt {s s' : BlockStore} (h : SameRows s s') (epoch : ℤ) :
    s.blockAt epoch = s'.blockAt epoch := by
  rw [BlockStore.blockAt, BlockStore.blockAt, h.blocks,
    IndexedTable.select_congr fun n => h.blockTransactions (epoch, (n : ℤ))]

/-- A block that goes through changes nothing exactly when its epoch is taken and its hashes are
the first ones there. -/
theorem sameRows_storeBlock_iff (fault : Bool) (block : StoredBlock) :
    SameRows (s.storeBlock fault block).2 s ↔ (s.Lands fault block →
      ∃ old, s.blockAt block.epoch = some old ∧ block.transactions <+: old.transactions) := by
  constructor
  · intro h hl
    have hat := h.blockAt block.epoch
    rw [(s.storeBlock_of_lands hl).2, if_pos rfl] at hat
    cases hold : s.blockAt block.epoch with
    | none =>
      rw [hold] at hat
      cases hat
    | some old =>
      rw [hold] at hat
      exact ⟨old, rfl, (merge_eq_iff block old).mp (Option.some.inj hat)⟩
  · intro h
    by_cases hl : s.Lands fault block
    · obtain ⟨old, hold, hpre⟩ := h hl
      obtain ⟨hf, s', hs'⟩ := s.insertBlock_returns.mpr hl
      rw [storeBlock, sqlTransaction_of_ok hf hs']
      simp only [insertBlock, Except.bind_eq_ok, sqlInt_eq_ok] at hs'
      obtain ⟨_, ⟨-, rfl⟩, _, ⟨-, rfl⟩, _, ⟨-, rfl⟩, hs'⟩ := hs'
      rw [dif_pos ((s.mem_keys_iff_blockAt _).mpr ⟨old, hold⟩)] at hs'
      obtain rfl := Except.ok.inj hs'
      obtain ⟨row, -, hrow⟩ := Option.map_eq_some_iff.mp hold
      have htxs : s.blockTransactions.select block.epoch = old.transactions := by
        rw [← hrow]
      refine ⟨fun _ => rfl, ?_⟩
      rintro ⟨e, i⟩
      rw [replaceHashes, IndexedTable.get?_put, or_eq_self_iff]
      intro v hv
      split_ifs at hv with he
      simp only [rowAt] at hv
      split_ifs at hv with hi
      obtain ⟨n, rfl⟩ := Int.eq_ofNat_of_zero_le hi
      rw [Int.toNat_natCast] at hv
      obtain rfl : e = block.epoch := he
      rw [← IndexedTable.getElem?_select, htxs]
      obtain ⟨rest, hrest⟩ := hpre
      rw [← hrest, List.getElem?_append_left (List.getElem?_eq_some_iff.mp hv).1]
      exact hv
    · rw [s.storeBlock_of_not_lands hl]
      exact ⟨fun _ => rfl, fun _ => rfl⟩

/-- The store holds the block's hash and transaction hashes under its epoch once it is stored:
it goes through at a free epoch, or writes over all hashes of a block with its hash, or that
block has its hashes already. -/
def Kept (fault : Bool) (block : StoredBlock) : Prop :=
  FitsSql block.epoch ∧
    match s.blockAt block.epoch with
    | none => s.Lands fault block
    | some old => old.blockHash = block.blockHash ∧
        (s.Lands fault block ∧ old.transactions.length ≤ block.transactions.length ∨
          old.transactions = block.transactions)

theorem kept_iff (fault : Bool) (block : StoredBlock) :
    (∃ b, (s.storeBlock fault block).2.getBlock block.epoch = .ok (some b) ∧
      b.blockHash = block.blockHash ∧ b.transactions = block.transactions) ↔
    s.Kept fault block := by
  simp only [getBlock_eq_ok, Kept, and_assoc, exists_and_left]
  apply and_congr_right
  intro _
  by_cases hl : s.Lands fault block
  · rw [(s.storeBlock_of_lands hl).2, if_pos rfl]
    cases s.blockAt block.epoch with
    | none => simp [merge, hl]
    | some old =>
      simp only [merge, Option.some.injEq, exists_eq_left', hl, true_and]
      apply and_congr_right
      intro _
      rw [List.append_right_eq_self, List.drop_eq_nil_iff]
      constructor
      · exact Or.inl
      · rintro (h | h)
        · exact h
        · rw [h]
  · rw [s.storeBlock_of_not_lands hl]
    cases s.blockAt block.epoch with
    | none => simp [hl]
    | some old => simp [hl]

end BlockStore

namespace StorageManager

variable {F : Type} [PyFloat F]

/-- The block can be read with its hash and these transactions, and so can they. -/
def Persisted (block : ConsensusBlock F) (txs : List Transaction) (m : StorageManager) : Prop :=
  ∃ b, m.blocks.getBlock block.epoch = .ok (some b) ∧ b.blockHash = block.blockHash ∧
    txs.mapM Transaction.txHash = .ok b.transactions ∧
    ∀ txHash ∈ b.transactions, ∃ row, m.transactions.getTransaction txHash = some row

structure SameStores (m m' : StorageManager) : Prop where
  blocks : BlockStore.SameRows m.blocks m'.blocks
  transactions : TransactionStore.SameRows m.transactions m'.transactions
  state : m.state = m'.state

/-- `True` means persisted, `False` means nothing changed. -/
def Truthful (faults : Faults) (block : ConsensusBlock F) (txs : List Transaction)
    (m : StorageManager) : Prop :=
  ((m.storeBlockWithTransactions faults block txs).1 = true →
    Persisted block txs (m.storeBlockWithTransactions faults block txs).2) ∧
  ((m.storeBlockWithTransactions faults block txs).1 = false →
    SameStores (m.storeBlockWithTransactions faults block txs).2 m)

/-- The call reaches its last statement. -/
def Finishes (faults : Faults) (block : ConsensusBlock F) (txs : List Transaction) : Prop :=
  (txs.mapM Transaction.txHash).Returns ∧ faults .getLatestBlock = false ∧
    (0 ≤ block.epoch ∧ block.epoch < 256 ^ 8) ∧ faults .setState = false

/-- A transaction with this hash is there, or one of the block is really stored. -/
def Available (faults : Faults) (txs : List Transaction) (m : StorageManager)
    (txHash : Bytes) : Prop :=
  (∃ row, m.transactions.getTransaction txHash = some row) ∨
    ∃ i tx, txs[i]? = some tx ∧ faults (.storeTransaction i) = false ∧ tx.Storable ∧
      tx.txHash = .ok txHash

/-- When the call finishes, everything is available; when it does not, what it wrote before was
there already. -/
structure Meets (faults : Faults) (block : ConsensusBlock F) (txs : List Transaction)
    (m : StorageManager) : Prop where
  finished : Finishes faults block txs → ∀ hashes, txs.mapM Transaction.txHash = .ok hashes →
    m.blocks.Kept (faults .storeBlock) (m.linkedBlock block hashes) ∧
      ∀ txHash ∈ hashes, Available faults txs m txHash
  stopped : ¬ Finishes faults block txs →
    TransactionStore.Repeats (TransactionStore.storeCalls faults 0 txs) m.transactions ∧
      ∀ hashes, txs.mapM Transaction.txHash = .ok hashes → faults .getLatestBlock = false →
        m.blocks.Lands (faults .storeBlock) (m.linkedBlock block hashes) →
          ∃ old, m.blocks.blockAt block.epoch = some old ∧ hashes <+: old.transactions

theorem available_iff (faults : Faults) {txs : List Transaction}
    (h : (txs.mapM Transaction.txHash).Returns) (m : StorageManager) (txHash : Bytes) :
    (∃ row, (m.loopedTransactions faults txs).getTransaction txHash = some row) ↔
      Available faults txs m txHash := by
  rw [loopedTransactions, TransactionStore.getTransaction_runs_iff, Available]
  apply or_congr_right
  simp only [TransactionStore.storeTransaction_mem_storeCalls faults 0 h, zero_add]
  constructor
  · rintro ⟨_, tx, ⟨n, hn, rfl⟩, hf, hst, hh⟩
    exact ⟨n, tx, hn, hf, hst, hh⟩
  · rintro ⟨n, tx, hn, hf, hst, hh⟩
    exact ⟨_, tx, ⟨n, hn, rfl⟩, hf, hst, hh⟩

theorem persisted_iff {faults : Faults} {txs : List Transaction} {hashes : List Bytes}
    (hh : txs.mapM Transaction.txHash = .ok hashes) (block : ConsensusBlock F)
    (m m' : StorageManager)
    (hb : m'.blocks = (m.blocks.storeBlock (faults .storeBlock) (m.linkedBlock block hashes)).2)
    (ht : m'.transactions = m.loopedTransactions faults txs) :
    Persisted block txs m' ↔
      m.blocks.Kept (faults .storeBlock) (m.linkedBlock block hashes) ∧
        ∀ txHash ∈ hashes, Available faults txs m txHash := by
  have havail := fun txHash => available_iff faults ⟨hashes, hh⟩ m txHash
  rw [← BlockStore.kept_iff, ← hb, Persisted]
  simp only [hh, ht, Except.ok.injEq, havail]
  constructor
  · rintro ⟨b, hget, hhash, rfl, hall⟩
    exact ⟨⟨b, hget, hhash, rfl⟩, hall⟩
  · rintro ⟨⟨b, hget, hhash, htxs⟩, hall⟩
    have heq : b.transactions = hashes := htxs
    exact ⟨b, hget, hhash, heq.symm, fun h hmem => hall h (heq ▸ hmem)⟩

/-- The answer can be relied on exactly when the condition is met. -/
theorem truthful_iff (faults : Faults) (block : ConsensusBlock F) (txs : List Transaction)
    (m : StorageManager) : Truthful faults block txs m ↔ Meets faults block txs m := by
  by_cases hlink : (txs.mapM Transaction.txHash).Returns ∧ faults .getLatestBlock = false
  · obtain ⟨⟨hashes, hh⟩, hf⟩ := hlink
    have hfin : Finishes faults block txs ↔
        (0 ≤ block.epoch ∧ block.epoch < 256 ^ 8) ∧ faults .setState = false :=
      ⟨fun h => h.2.2, fun h => ⟨⟨hashes, hh⟩, hf, h⟩⟩
    rw [Truthful, storeBlockWithTransactions_of_hashes hh hf block m]
    by_cases hset : (0 ≤ block.epoch ∧ block.epoch < 256 ^ 8) ∧ faults .setState = false
    · simp only [decide_eq_true hset, true_imp_iff, Bool.true_eq_false, false_imp_iff, and_true]
      rw [persisted_iff hh block m _ rfl rfl]
      constructor
      · intro h
        refine ⟨fun _ hashes' hh' => ?_, fun hnot => absurd (hfin.mpr hset) hnot⟩
        obtain rfl := Except.ok.inj (hh.symm.trans hh')
        exact h
      · intro h
        exact h.finished (hfin.mpr hset) hashes hh
    · have hstate : (m.state.setCurrentEpoch (faults .setState) block.epoch).toOption.getD
          m.state = m.state := by
        cases hs : m.state.setCurrentEpoch (faults .setState) block.epoch with
        | error e => rfl
        | ok state =>
          exact absurd ((StateDB.setCurrentEpoch_returns _ _ _).mp ⟨state, hs⟩) hset
      simp only [decide_eq_false hset, Bool.false_eq_true, false_imp_iff, true_imp_iff, true_and,
        hstate]
      constructor
      · intro h
        refine ⟨fun hyes => absurd (hfin.mp hyes) hset, fun _ =>
          ⟨(TransactionStore.sameRows_runs_iff _ _).mp h.transactions, ?_⟩⟩
        intro hashes' hh' _
        obtain rfl := Except.ok.inj (hh.symm.trans hh')
        exact (m.blocks.sameRows_storeBlock_iff _ _).mp h.blocks
      · intro h
        obtain ⟨htxs, hblock⟩ := h.stopped (mt hfin.mp hset)
        exact ⟨(m.blocks.sameRows_storeBlock_iff _ _).mpr (hblock hashes hh hf),
          (TransactionStore.sameRows_runs_iff _ _).mpr htxs, rfl⟩
  · have hfin : ¬ Finishes faults block txs := fun h => hlink ⟨h.1, h.2.1⟩
    rw [Truthful, storeBlockWithTransactions_of_raise hlink block m]
    simp only [Bool.false_eq_true, false_imp_iff, true_imp_iff, true_and]
    constructor
    · intro h
      refine ⟨fun hyes => absurd hyes hfin, fun _ =>
        ⟨(TransactionStore.sameRows_runs_iff _ _).mp h.transactions, ?_⟩⟩
      intro hashes hh hf
      exact absurd ⟨⟨hashes, hh⟩, hf⟩ hlink
    · intro h
      exact ⟨⟨fun _ => rfl, fun _ => rfl⟩,
        (TransactionStore.sameRows_runs_iff _ _).mpr (h.stopped hfin).1, rfl⟩

/-- A transaction with one output, locked until the given epoch. -/
def lockedTx (lockEpoch : ℤ) : Transaction :=
  { version := 1, txType := .coinbase, inputs := [],
    outputs := [{ value := 1000, address := [1], lockEpoch := lockEpoch }], epoch := 0,
    timestamp := 0, fee := 0, nonce := [] }

/-- A lock that does not fit its column is reported as stored, and a transaction that was stored
before the epoch could not be recorded stays behind. -/
theorem lockedTx_not_truthful :
    ∃ block, (bareBlock 0).postInit = .ok block ∧
      ¬ Truthful noFaults block [lockedTx (2 ^ 63)] ∅ ∧
      ¬ Truthful (fun site => decide (site = .setState)) block [lockedTx 0] ∅ := by
  obtain ⟨blockHash, hblock⟩ := bareBlock_postInit (show 0 ≤ (0 : ℤ) ∧ (0 : ℤ) < 256 ^ 8 by decide)
  refine ⟨_, hblock, ?_, ?_⟩
  · intro h
    obtain ⟨txHash, hh⟩ := (lockedTx (2 ^ 63)).txHash_returns.mpr (by decide)
    have hhashes : [lockedTx (2 ^ 63)].mapM Transaction.txHash = .ok [txHash] := by
      rw [List.mapM_cons, hh]
      rfl
    have hstored := h.1
    rw [storeBlockWithTransactions_of_hashes hhashes rfl] at hstored
    have hset : (0 ≤ (bareBlock 0).epoch ∧ (bareBlock 0).epoch < 256 ^ 8) ∧
        noFaults .setState = false := by decide
    have hpers := hstored (decide_eq_true hset)
    obtain ⟨-, hall⟩ := (persisted_iff hhashes _ ∅ _ rfl rfl).mp hpers
    rcases hall txHash (List.mem_singleton.mpr rfl) with ⟨row, hrow⟩ | ⟨i, tx, hi, -, hst, -⟩
    · cases hrow
    · obtain rfl := List.mem_singleton.mp (List.mem_of_getElem? hi)
      exact absurd hst (by decide)
  · intro h
    obtain ⟨txHash, hh⟩ := (lockedTx 0).txHash_returns.mpr (by decide)
    have hhashes : [lockedTx 0].mapM Transaction.txHash = .ok [txHash] := by
      rw [List.mapM_cons, hh]
      rfl
    have hstopped := h.2
    rw [storeBlockWithTransactions_of_hashes hhashes (by decide)] at hstopped
    have hset : ¬ ((0 ≤ (bareBlock 0).epoch ∧ (bareBlock 0).epoch < 256 ^ 8) ∧
        decide (CallSite.setState = .setState) = false) := by decide
    have hsame := (hstopped (decide_eq_false hset)).transactions.transactions txHash
    have hthere := (available_iff (fun site => decide (site = .setState))
      ⟨[txHash], hhashes⟩ ∅ txHash).mpr
        (Or.inr ⟨0, lockedTx 0, rfl, by decide, by decide, hh⟩)
    obtain ⟨row, hrow⟩ := hthere
    cases hrow.symm.trans hsame

end StorageManager

end Qrtb
