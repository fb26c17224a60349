import Qrtb.Storage.Persistence

/-!
# What the tables hold of stored transactions

As long as transactions that share a hash spend and create the same, the rows under
a hash are those of one transaction or there are none, and they read back as its
references and its outputs without their data. Storing it again changes nothing of
that.
-/

namespace Qrtb

open Transition

namespace TransactionStore

/-- The rows under the hash are those of the transaction. -/
structure HeldAs (s : TransactionStore) (txHash : Bytes) (tx : Transaction) : Prop where
  found : ∃ row, s.getTransaction txHash = some row
  inputs : s.getInputs txHash = tx.refs
  outputs : s.getOutputs txHash = tx.outputs.map TxOutput.stored

theorem HeldAs.congr {s : TransactionStore} {txHash : Bytes} {tx tx' : Transaction}
    (h : s.HeldAs txHash tx') (hb : tx.refs = tx'.refs ∧ tx.outputs = tx'.outputs) :
    s.HeldAs txHash tx :=
  ⟨h.found, h.inputs.trans hb.1.symm, by rw [hb.2, h.outputs]⟩

/-- There are no rows under the hash. -/
structure Vacant (s : TransactionStore) (txHash : Bytes) : Prop where
  notFound : s.getTransaction txHash = none
  inputs : s.getInputs txHash = []
  outputs : s.getOutputs txHash = []

/-- Transactions of the family that share a hash spend and create the same. -/
def OneBody (family : Transaction → Prop) : Prop :=
  ∀ tx tx' h, family tx → family tx' → tx.txHash = .ok h → tx'.txHash = .ok h →
    tx.refs = tx'.refs ∧ tx.outputs = tx'.outputs

/-- Everything stored comes from a family of transactions. -/
def Consistent (family : Transaction → Prop) (s : TransactionStore) : Prop :=
  ∀ txHash, s.Vacant txHash ∨ ∃ tx, family tx ∧ tx.txHash = .ok txHash ∧ s.HeldAs txHash tx

section Write

variable (s : TransactionStore) (tx : Transaction) (txHash rawData : Bytes)

theorem getTransaction_write_of_ne {key : Bytes} (h : key ≠ txHash) :
    (s.write tx txHash rawData).getTransaction key = s.getTransaction key :=
  OrderedDict.get?_set_of_ne _ h _

theorem getInputs_write_of_ne {key : Bytes} (h : key ≠ txHash) :
    (s.write tx txHash rawData).getInputs key = s.getInputs key :=
  IndexedTable.select_put_of_ne _ h _

theorem getOutputs_write_of_ne {key : Bytes} (h : key ≠ txHash) :
    (s.write tx txHash rawData).getOutputs key = s.getOutputs key :=
  congrArg (List.map OutputRow.toTxOutput) (IndexedTable.select_put_of_ne _ h _)

theorem heldAs_write (h : s.Vacant txHash ∨ s.HeldAs txHash tx) :
    (s.write tx txHash rawData).HeldAs txHash tx := by
  have hin : (s.getInputs txHash).drop tx.refs.length = [] := by
    rcases h with h | h
    · rw [h.inputs, List.drop_nil]
    · rw [h.inputs, List.drop_length]
  have hout : (s.getOutputs txHash).drop tx.outputs.length = [] := by
    rcases h with h | h
    · rw [h.outputs, List.drop_nil]
    · rw [h.outputs, List.drop_eq_nil_iff, List.length_map]
  refine ⟨⟨tx.toRow rawData, OrderedDict.get?_set_self _ _ _⟩, ?_, ?_⟩
  · rw [getInputs, write, IndexedTable.select_put_self]
    rw [getInputs] at hin
    rw [hin, List.append_nil]
  · rw [getOutputs, write, IndexedTable.select_put_self, List.map_append, List.map_drop,
      List.length_map]
    rw [getOutputs] at hout
    rw [hout, List.append_nil, List.map_map]
    rfl

end Write

theorem getOutputs_update (s : TransactionStore) (ref : OutRef) (spendingTx txHash : Bytes) :
    getOutputs { s with txOutputs := s.txOutputs.update ref (OutputRow.markSpent spendingTx) }
      txHash = s.getOutputs txHash :=
  s.txOutputs.map_select_update ref (OutputRow.toTxOutput_markSpent spendingTx) txHash

/-- The calls store members of the family only. -/
def StoresOnly (family : Transaction → Prop) (calls : List Call) : Prop :=
  ∀ fault tx, .storeTransaction fault tx ∈ calls → family tx

variable {family : Transaction → Prop} {s : TransactionStore}

section Apply

variable (hinj : OneBody family)

include hinj

/-- What a call leaves under a hash: what was there, or the rows of its transaction. -/
theorem consistent_apply (hs : s.Consistent family) {call : Call}
    (hc : ∀ fault tx, call = .storeTransaction fault tx → family tx) :
    (apply call s).Consistent family := by
  intro key
  rcases apply_cases call s with
    ⟨fault, tx, h, raw, hcall, hh, -, -, happ⟩ | ⟨ref, t, -, -, happ⟩ | ⟨-, -, happ⟩
  · have hfam := hc fault tx hcall
    rw [happ]
    by_cases hk : key = h
    · subst hk
      refine Or.inr ⟨tx, hfam, hh, s.heldAs_write tx key raw ?_⟩
      rcases hs key with hv | ⟨tx', hfam', hh', hheld⟩
      · exact Or.inl hv
      · exact Or.inr (hheld.congr (hinj tx tx' key hfam hfam' hh hh'))
    · rcases hs key with hv | ⟨tx', hfam', hh', hheld⟩
      · left
        constructor
        · rw [getTransaction_write_of_ne s tx h raw hk, hv.notFound]
        · rw [getInputs_write_of_ne s tx h raw hk, hv.inputs]
        · rw [getOutputs_write_of_ne s tx h raw hk, hv.outputs]
      · refine Or.inr ⟨tx', hfam', hh', ?_, ?_, ?_⟩
        · rw [getTransaction_write_of_ne s tx h raw hk]
          exact hheld.found
        · rw [getInputs_write_of_ne s tx h raw hk, hheld.inputs]
        · rw [getOutputs_write_of_ne s tx h raw hk, hheld.outputs]
  · rw [happ]
    rcases hs key with hv | ⟨tx', hfam', hh', hheld⟩
    · exact Or.inl ⟨hv.notFound, hv.inputs, (s.getOutputs_update ref t key).trans hv.outputs⟩
    · exact Or.inr ⟨tx', hfam', hh', hheld.found, hheld.inputs,
        (s.getOutputs_update ref t key).trans hheld.outputs⟩
  · rw [happ]
    exact hs key

theorem consistent_runs (hs : s.Consistent family) {calls : List Call}
    (hc : StoresOnly family calls) : (runs apply calls s).Consistent family := by
  induction calls using List.reverseRecOn with
  | nil => exact hs
  | append_singleton calls call ih =>
    rw [runs_append_singleton]
    apply consistent_apply hinj
    · exact ih fun fault tx hmem => hc fault tx (List.mem_append_left _ hmem)
    · rintro fault tx rfl
      exact hc fault tx (by simp)

/-- In a consistent store a transaction that can be found is held as itself. -/
theorem heldAs_of_found (hs : s.Consistent family) {tx : Transaction} {txHash : Bytes}
    (hfam : family tx) (hh : tx.txHash = .ok txHash)
    (hfound : ∃ row, s.getTransaction txHash = some row) : s.HeldAs txHash tx := by
  rcases hs txHash with hv | ⟨tx', hfam', hh', hheld⟩
  · obtain ⟨row, hrow⟩ := hfound
    cases hv.notFound.symm.trans hrow
  · exact hheld.congr (hinj tx tx' txHash hfam hfam' hh hh')

end Apply

theorem mem_of_mem_storeCalls {faults : Faults} {i : ℕ} {txs : List Transaction} {fault : Bool}
    {tx : Transaction} (h : .storeTransaction fault tx ∈ storeCalls faults i txs) : tx ∈ txs := by
  induction txs generalizing i with
  | nil => cases h
  | cons t txs ih =>
    rw [storeCalls, List.mem_cons] at h
    rcases h with hc | h
    · obtain ⟨-, rfl⟩ := Call.storeTransaction.inj hc
      exact List.mem_cons_self
    · cases hh : t.txHash with
      | error e =>
        rw [hh] at h
        cases h
      | ok txHash =>
        rw [hh] at h
        rcases List.mem_append.mp h with h | h
        · exact absurd h (storeTransaction_mem_markCalls _ _ _ _ _ _ _)
        · exact List.mem_cons_of_mem _ (ih h)

end TransactionStore

namespace StorageManager

variable {F : Type} [PyFloat F]

/-- The blocks of the calls are in the store, each under its epoch with the hashes of its
transactions, and so are the transactions. -/
structure Archived (family : Transaction → Prop)
    (calls : List (ConsensusBlock F × List Transaction)) (m : StorageManager) : Prop where
  blocks : ∀ e b, m.blocks.blockAt e = some b → ∃ c ∈ calls, c.1.epoch = e ∧
    b.blockHash = c.1.blockHash ∧ c.2.mapM Transaction.txHash = .ok b.transactions
  stored : ∀ c ∈ calls, ∃ b, m.blocks.blockAt c.1.epoch = some b ∧
    c.2.mapM Transaction.txHash = .ok b.transactions
  consistent : m.transactions.Consistent family
  found : ∀ c ∈ calls, ∀ tx ∈ c.2, ∀ txHash, tx.txHash = .ok txHash →
    ∃ row, m.transactions.getTransaction txHash = some row

omit [PyFloat F] in
theorem archived_empty (family : Transaction → Prop) :
    Archived (F := F) family [] ∅ where
  blocks e b h := by cases h
  stored c hc := absurd hc List.not_mem_nil
  consistent txHash := Or.inl ⟨rfl, rfl, rfl⟩
  found c hc := absurd hc List.not_mem_nil

/-- A block with a new epoch and a new hash joins the archive when it and its transactions can be
stored. -/
theorem Archived.store {family : Transaction → Prop}
    {calls : List (ConsensusBlock F × List Transaction)} {m : StorageManager}
    (h : Archived family calls m)
    (hinj : TransactionStore.OneBody family)
    {c : ConsensusBlock F × List Transaction} (hw : Writable c)
    (hst : ∀ tx ∈ c.2, tx.Storable) (hfam : ∀ tx ∈ c.2, family tx)
    (hepoch : ∀ c' ∈ calls, c'.1.epoch ≠ c.1.epoch)
    (hhash : ∀ c' ∈ calls, c'.1.blockHash ≠ c.1.blockHash) :
    Archived family (calls ++ [c]) (m.storeBlockWithTransactions noFaults c.1 c.2).2 := by
  have hnone : m.blocks.blockAt c.1.epoch = none := by
    rw [Option.eq_none_iff_forall_ne_some]
    intro b hb
    obtain ⟨c', hc', he, -⟩ := h.blocks _ b hb
    exact hepoch c' hc' he
  have hfresh : c.1.epoch ∉ m.blocks.blocks.keys → c.1.blockHash ∉ m.blocks.hashes := by
    intro _ hmem
    obtain ⟨e, b, hb, heq⟩ := (m.blocks.mem_hashes_iff_blockAt _).mp hmem
    obtain ⟨c', hc', -, hbh, -⟩ := h.blocks e b hb
    exact hhash c' hc' (hbh.symm.trans heq)
  obtain ⟨hashes, hh, hat⟩ := blockAt_blocksAfter hw hfresh
  rw [blocksAfter] at hat
  have hlooped := transactions_storeBlockWithTransactions noFaults c.1 c.2 m
  refine ⟨?_, ?_, ?_, ?_⟩
  · intro e b hb
    rw [hat] at hb
    split_ifs at hb with he
    · subst he
      rw [hnone, BlockStore.merge] at hb
      obtain rfl := Option.some.inj hb
      exact ⟨c, by simp, rfl, rfl, hh⟩
    · obtain ⟨c', hc', hrest⟩ := h.blocks e b hb
      exact ⟨c', List.mem_append_left _ hc', hrest⟩
  · intro c' hc'
    rcases List.mem_append.mp hc' with hc' | hc'
    · rw [hat, if_neg (hepoch c' hc')]
      exact h.stored c' hc'
    · obtain rfl := List.mem_singleton.mp hc'
      rw [hat, if_pos rfl, hnone, BlockStore.merge]
      exact ⟨_, rfl, hh⟩
  · rw [hlooped]
    apply TransactionStore.consistent_runs hinj h.consistent
    intro fault tx hmem
    exact hfam tx (TransactionStore.mem_of_mem_storeCalls hmem)
  · intro c' hc' tx htx txHash htxh
    rw [hlooped, available_iff noFaults ⟨hashes, hh⟩]
    rcases List.mem_append.mp hc' with hc' | hc'
    · exact Or.inl (h.found c' hc' tx htx txHash htxh)
    · obtain rfl := List.mem_singleton.mp hc'
      obtain ⟨i, hi⟩ := List.getElem?_of_mem htx
      exact Or.inr ⟨i, tx, hi, rfl, hst tx htx, htxh⟩

end StorageManager

end Qrtb
