import Qrtb.Storage.Manager

/-!
# Persisted spends that are lost

Inserting a transaction puts the flags of its output rows back to unspent, and
marking an output overwrites who spent it before. The states here are those after
every commit: an inner call of `store_block_with_transactions` commits like one
made from outside.
-/

namespace Qrtb

open Transition PyFloat

namespace TransactionStore

/-- The row of the output is there, with `spent = 1` and this spender. -/
def SpentBy (p : OutRef × Bytes) (s : TransactionStore) : Prop :=
  ∃ r, s.txOutputs.get? p.1 = some r ∧ r.spent = true ∧ r.spentBy = some p.2

/-- The output is not among the unspent outputs of any address. -/
def Unlisted (ref : OutRef) (s : TransactionStore) : Prop :=
  ∀ address, ∀ u ∈ s.getUtxosForAddress address, (u.txHash, u.outputIndex) ≠ ref

theorem SpentBy.unlisted {p : OutRef × Bytes} {s : TransactionStore} (h : SpentBy p s) :
    Unlisted p.1 s := by
  intro address u hu heq
  obtain ⟨r, hr, hspent, -⟩ := h
  obtain ⟨⟨k, row⟩, hmem, hrow⟩ := List.mem_filterMap.mp hu
  split_ifs at hrow with hc
  obtain rfl := Option.some.inj hrow
  have hget := (s.txOutputs.rows.mem_items_iff k row).mp hmem
  rw [← heq] at hr
  obtain rfl := Option.some.inj (hr.symm.trans hget)
  rw [hspent] at hc
  cases hc.2

/-- The call finds no spend that it would undo or put down to another spender. A store that goes
through must find none of its outputs spent, a mark none spent by another transaction. -/
def KeepsSpends (s : TransactionStore) : Call → Prop
  | .storeTransaction fault tx => fault = false → tx.Storable →
      ∀ txHash, tx.txHash = .ok txHash → ∀ n : ℕ, n < tx.outputs.length →
        ∀ t, ¬ SpentBy ((txHash, (n : ℤ)), t) s
  | .markOutputSpent fault ref spendingTx => fault = false → FitsSql ref.2 →
      ∀ t, SpentBy (ref, t) s → t = spendingTx

theorem get?_write_output (s : TransactionStore) (tx : Transaction) (txHash rawData : Bytes)
    (ref : OutRef) :
    (∃ n : ℕ, ∃ out, ref = (txHash, (n : ℤ)) ∧ tx.outputs[n]? = some out ∧
      (s.write tx txHash rawData).txOutputs.get? ref = some (.ofTxOutput out)) ∨
    ((∀ n : ℕ, n < tx.outputs.length → ref ≠ (txHash, (n : ℤ))) ∧
      (s.write tx txHash rawData).txOutputs.get? ref = s.txOutputs.get? ref) := by
  by_cases h : ∃ n : ℕ, n < tx.outputs.length ∧ ref = (txHash, (n : ℤ))
  · obtain ⟨n, hn, rfl⟩ := h
    refine Or.inl ⟨n, tx.outputs[n], rfl, List.getElem?_eq_getElem hn, ?_⟩
    rw [write, IndexedTable.get?_put_self]
    simp [hn]
  · push Not at h
    refine Or.inr ⟨h, ?_⟩
    obtain ⟨b, j⟩ := ref
    by_cases hb : b = txHash
    · subst hb
      by_cases hj : 0 ≤ j
      · obtain ⟨m, rfl⟩ := Int.eq_ofNat_of_zero_le hj
        have hm : tx.outputs.length ≤ m := by
          by_contra hlt
          exact h m (by omega) rfl
        rw [write, IndexedTable.get?_put_self, List.getElem?_eq_none (by simpa using hm),
          Option.none_or]
      · exact IndexedTable.get?_replaceRows_of_lt b _ _ (by simpa using hj)
    · exact IndexedTable.get?_put_of_ne _ hb _ _

theorem apply_keeps_iff (s : TransactionStore) (call : Call) :
    (∀ p, SpentBy p s → SpentBy p (apply call s)) ↔ s.KeepsSpends call := by
  cases call with
  | storeTransaction fault tx =>
    by_cases hst : fault = false ∧ tx.Storable
    · obtain ⟨txHash, raw, hh, -, hstore⟩ := s.storeTransaction_of_storable hst.1 hst.2
      simp only [apply, hstore, KeepsSpends]
      constructor
      · intro h _ _ txHash' hh' n hn t ht
        obtain rfl := Except.ok.inj (hh.symm.trans hh')
        obtain ⟨r, hr, hspent, -⟩ := h _ ht
        rcases s.get?_write_output tx txHash raw (txHash, (n : ℤ)) with
          ⟨m, out, -, -, hrow⟩ | ⟨hne, -⟩
        · obtain rfl := Option.some.inj (hr.symm.trans hrow)
          cases hspent
        · exact hne n hn rfl
      · rintro h ⟨ref, t⟩ hp
        rcases s.get?_write_output tx txHash raw ref with ⟨n, out, rfl, hout, -⟩ | ⟨-, hrow⟩
        · have hn : n < tx.outputs.length := (List.getElem?_eq_some_iff.mp hout).1
          exact absurd hp (h hst.1 hst.2 txHash hh n hn t)
        · obtain ⟨r, hr, hrest⟩ := hp
          exact ⟨r, hrow.trans hr, hrest⟩
    · simp only [apply, s.storeTransaction_of_not hst, KeepsSpends]
      constructor
      · intro _ hf hs
        exact absurd ⟨hf, hs⟩ hst
      · intro _ p hp
        exact hp
  | markOutputSpent fault ref spendingTx =>
    by_cases hfit : fault = false ∧ FitsSql ref.2
    · simp only [apply, s.markOutputSpent_of_fits spendingTx hfit.1 hfit.2, KeepsSpends]
      constructor
      · intro h _ _ t ht
        obtain ⟨r, hr, hspent, hby⟩ := ht
        obtain ⟨r', hr', -, hby'⟩ := h (ref, t) ⟨r, hr, hspent, hby⟩
        rw [IndexedTable.get?_update, if_pos rfl, hr, Option.map_some] at hr'
        obtain rfl := Option.some.inj hr'
        exact (Option.some.inj hby').symm
      · rintro h ⟨ref', t⟩ ⟨r, hr, hspent, hby⟩
        by_cases hk : ref' = ref
        · subst hk
          obtain rfl := h hfit.1 hfit.2 t ⟨r, hr, hspent, hby⟩
          refine ⟨r.markSpent t, ?_, rfl, rfl⟩
          simp [IndexedTable.get?_update, hr]
        · refine ⟨r, ?_, hspent, hby⟩
          simpa [IndexedTable.get?_update, hk] using hr
    · simp only [apply, s.markOutputSpent_of_not spendingTx hfit, KeepsSpends]
      constructor
      · intro _ hf hs
        exact absurd ⟨hf, hs⟩ hfit
      · intro _ p hp
        exact hp

end TransactionStore

namespace StorageManager

variable {F : Type} [PyFloat F]

/-- A call from outside that reaches the transaction store. -/
inductive Call (F : Type) where
  | storeTransaction (fault : Bool) (tx : Transaction)
  | markOutputSpent (fault : Bool) (ref : OutRef) (spendingTx : Bytes)
  | storeBlockWithTransactions (faults : Faults) (block : ConsensusBlock F)
      (txs : List Transaction)

def apply : Call F → StorageManager → StorageManager
  | .storeTransaction fault tx, m =>
    { m with transactions := (m.transactions.storeTransaction fault tx).2 }
  | .markOutputSpent fault ref spendingTx, m =>
    { m with transactions := (m.transactions.markOutputSpent fault ref spendingTx).2 }
  | .storeBlockWithTransactions faults block txs, m =>
    (m.storeBlockWithTransactions faults block txs).2

/-- The commits a call makes on the transaction store, in order. -/
def Call.commits : Call F → List TransactionStore.Call
  | .storeTransaction fault tx => [.storeTransaction fault tx]
  | .markOutputSpent fault ref spendingTx => [.markOutputSpent fault ref spendingTx]
  | .storeBlockWithTransactions faults _ txs => TransactionStore.storeCalls faults 0 txs

/-- The transaction store after a sequence of calls is the one after all their commits. -/
theorem transactions_runs (calls : List (Call F)) (m : StorageManager) :
    (runs apply calls m).transactions =
      runs TransactionStore.apply (calls.flatMap Call.commits) m.transactions := by
  induction calls generalizing m with
  | nil => rfl
  | cons call calls ih =>
    rw [runs_cons, List.flatMap_cons, runs_append, ih]
    congr 1
    cases call with
    | storeTransaction fault tx => rfl
    | markOutputSpent fault ref spendingTx => rfl
    | storeBlockWithTransactions faults block txs =>
      exact transactions_storeBlockWithTransactions faults block txs m

/-- An output that is spent by a transaction after some commit stays so after every later one, and
is listed for no address. -/
def SpendsPermanent (calls : List (Call F)) (m : StorageManager) : Prop :=
  ∀ pre mid post, calls.flatMap Call.commits = pre ++ mid ++ post →
    ∀ ref t, TransactionStore.SpentBy (ref, t) (runs TransactionStore.apply pre m.transactions) →
      TransactionStore.SpentBy (ref, t)
          (runs TransactionStore.apply (pre ++ mid) m.transactions) ∧
        TransactionStore.Unlisted ref (runs TransactionStore.apply (pre ++ mid) m.transactions)

omit [PyFloat F] in
/-- Spends are permanent exactly when no commit finds a spend that it would undo or change. -/
theorem spendsPermanent_iff (calls : List (Call F)) (m : StorageManager) :
    SpendsPermanent calls m ↔
      ∀ pre call post, calls.flatMap Call.commits = pre ++ call :: post →
        (runs TransactionStore.apply pre m.transactions).KeepsSpends call := by
  simp only [← TransactionStore.apply_keeps_iff]
  rw [← permanent_iff TransactionStore.apply TransactionStore.SpentBy]
  constructor
  · rintro h pre mid post hsplit ⟨ref, t⟩ hp
    exact (h pre mid post hsplit ref t hp).1
  · intro h pre mid post hsplit ref t hp
    have hkeep := h pre mid post hsplit (ref, t) hp
    exact ⟨hkeep, hkeep.unlisted⟩

def mintTx : Transaction :=
  { version := 1, txType := .coinbase, inputs := [], outputs := [{ value := 1000, address := [1] }],
    epoch := 0, timestamp := 0, fee := 0, nonce := [] }

/-- Store a transaction, mark its output, store it again. -/
def restoreCalls (txHash : Bytes) : List (Call F) :=
  [.storeTransaction false mintTx, .markOutputSpent false (txHash, 0) [7],
    .storeTransaction false mintTx]

/-- Storing the transaction a second time makes its output unspent. -/
theorem restoreCalls_not_permanent :
    ∃ txHash, mintTx.txHash = .ok txHash ∧
      ¬ SpendsPermanent (F := ℚ) (restoreCalls txHash) ∅ := by
  obtain ⟨txHash, hh⟩ : ∃ txHash, mintTx.txHash = .ok txHash :=
    mintTx.txHash_returns.mpr (by decide)
  refine ⟨txHash, hh, ?_⟩
  intro h
  have hst : mintTx.Storable := by decide
  obtain ⟨_, raw, hh', -, hstore⟩ :=
    (∅ : TransactionStore).storeTransaction_of_storable (rfl : false = false) hst
  obtain rfl := Except.ok.inj (hh.symm.trans hh')
  have hrow : ((∅ : TransactionStore).write mintTx txHash raw).txOutputs.get? (txHash, 0) =
      some { value := 1000, address := [1], lockEpoch := 0 } :=
    IndexedTable.get?_put_self _ _ _ 0
  have hspent : TransactionStore.SpentBy ((txHash, 0), [7])
      (runs TransactionStore.apply
        [.storeTransaction false mintTx, .markOutputSpent false (txHash, 0) [7]] ∅) := by
    simp only [runs_cons, runs_nil, TransactionStore.apply, hstore]
    rw [TransactionStore.markOutputSpent_of_fits _ _ rfl (show FitsSql 0 by decide)]
    exact ⟨_, by rw [IndexedTable.get?_update, if_pos rfl, hrow, Option.map_some], rfl, rfl⟩
  have hkeeps := (TransactionStore.apply_keeps_iff _ (.storeTransaction false mintTx)).mp
    fun p hp => (h [.storeTransaction false mintTx, .markOutputSpent false (txHash, 0) [7]]
      [.storeTransaction false mintTx] [] rfl p.1 p.2 hp).1
  exact hkeeps rfl hst txHash hh 0 (by decide) [7] hspent

end StorageManager

end Qrtb
