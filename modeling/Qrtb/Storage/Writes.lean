import Qrtb.Storage.Manager

/-!
# What the calls on the transaction store write

A store overwrites the cells of its transaction, a mark the flags of one output
row if that row is there, and the rest is left as it was. After any sequence of
calls a cell therefore holds the last value written to it, or what it held before.
-/

namespace Qrtb

open Transition PyFloat
open IndexedTable (rowAt)

namespace TransactionStore

namespace Call

/-- The transaction the call writes under the hash, if it goes through. -/
def stores (txHash : Bytes) : Call → Option Transaction
  | .storeTransaction fault tx =>
    if fault = false ∧ tx.Storable ∧ tx.txHash = .ok txHash then some tx else none
  | .markOutputSpent .. => none

/-- The row of `transactions` that the call writes under the hash. -/
def rowWrite (txHash : Bytes) (call : Call) : Option TxRow :=
  (call.stores txHash).bind fun tx => tx.toBytes.toOption.map tx.toRow

/-- The row of `tx_inputs` that the call writes under the key. -/
def inputWrite (key : OutRef) (call : Call) : Option OutRef :=
  (call.stores key.1).bind fun tx => rowAt tx.refs key.2

/-- The value, address and lock that the call writes into an output row. -/
def outputWrite (key : OutRef) (call : Call) : Option TxOutput :=
  (call.stores key.1).bind fun tx =>
    rowAt (tx.outputs.map fun out => (OutputRow.ofTxOutput out).toTxOutput) key.2

/-- The columns `spent` and `spent_by` that the call writes into an output row. -/
def flagWrite (key : OutRef) : Call → Option (Bool × Option Bytes)
  | .storeTransaction fault tx =>
    ((Call.storeTransaction fault tx).outputWrite key).map fun _ => (false, none)
  | .markOutputSpent fault ref spendingTx =>
    if fault = false ∧ FitsSql ref.2 ∧ ref = key then some (true, some spendingTx) else none

end Call

theorem apply_cases (call : Call) (s : TransactionStore) :
    (∃ fault tx txHash rawData, call = .storeTransaction fault tx ∧
      tx.txHash = .ok txHash ∧ tx.toBytes = .ok rawData ∧
      (∀ key, call.stores key = if key = txHash then some tx else none) ∧
      apply call s = s.write tx txHash rawData) ∨
    (∃ ref spendingTx, call = .markOutputSpent false ref spendingTx ∧ FitsSql ref.2 ∧
      apply call s =
        { s with txOutputs := s.txOutputs.update ref (OutputRow.markSpent spendingTx) }) ∨
    ((∀ key, call.stores key = none) ∧ (∀ key, call.flagWrite key = none) ∧ apply call s = s) := by
  cases call with
  | storeTransaction fault tx =>
    by_cases h : fault = false ∧ tx.Storable
    · obtain ⟨txHash, raw, hh, hraw, hstore⟩ := s.storeTransaction_of_storable h.1 h.2
      refine Or.inl ⟨fault, tx, txHash, raw, rfl, hh, hraw, ?_, by rw [apply, hstore]⟩
      intro key
      have hiff : fault = false ∧ tx.Storable ∧ tx.txHash = .ok key ↔ key = txHash := by
        rw [hh, Except.ok.injEq]
        exact ⟨fun hc => hc.2.2.symm, fun hk => ⟨h.1, h.2, hk.symm⟩⟩
      simp only [Call.stores, hiff]
    · have hnone : ∀ key, (Call.storeTransaction fault tx).stores key = none := fun key =>
        if_neg fun hc => h ⟨hc.1, hc.2.1⟩
      refine Or.inr (Or.inr ⟨hnone, ?_, by rw [apply, s.storeTransaction_of_not h]⟩)
      intro key
      rw [Call.flagWrite, Call.outputWrite, hnone]
      rfl
  | markOutputSpent fault ref spendingTx =>
    by_cases h : fault = false ∧ FitsSql ref.2
    · obtain ⟨rfl, hfit⟩ := h
      exact Or.inr (Or.inl ⟨ref, spendingTx, rfl, hfit,
        by rw [apply, s.markOutputSpent_of_fits spendingTx rfl hfit]⟩)
    · refine Or.inr (Or.inr ⟨fun _ => rfl, fun key => if_neg fun hc => h ⟨hc.1, hc.2.1⟩, ?_⟩)
      rw [apply, s.markOutputSpent_of_not spendingTx h]

theorem get?_transactions_apply (txHash : Bytes) (call : Call) (s : TransactionStore) :
    (apply call s).transactions.get? txHash =
      (call.rowWrite txHash).or (s.transactions.get? txHash) := by
  rw [Call.rowWrite]
  rcases apply_cases call s with
    ⟨fault, tx, h, raw, -, -, hraw, hst, happ⟩ | ⟨ref, t, rfl, -, happ⟩ | ⟨hst, -, happ⟩
  · rw [happ, hst, write, OrderedDict.get?_set]
    split_ifs
    · simp [hraw, Except.toOption]
    · rfl
  · rw [happ]
    rfl
  · rw [happ, hst]
    rfl

theorem get?_txInputs_apply (key : OutRef) (call : Call) (s : TransactionStore) :
    (apply call s).txInputs.get? key = (call.inputWrite key).or (s.txInputs.get? key) := by
  rw [Call.inputWrite]
  rcases apply_cases call s with
    ⟨fault, tx, h, raw, -, -, -, hst, happ⟩ | ⟨ref, t, rfl, -, happ⟩ | ⟨hst, -, happ⟩
  · rw [happ, hst, write, IndexedTable.get?_put]
    split_ifs <;> rfl
  · rw [happ]
    rfl
  · rw [happ, hst]
    rfl

/-- A view of the output rows that a mark does not change, or changes to what it writes. -/
theorem view_write_output {γ : Type} (view : OutputRow → γ) (key : OutRef) (s : TransactionStore)
    (tx : Transaction) (txHash rawData : Bytes) :
    ((s.write tx txHash rawData).txOutputs.get? key).map view =
      ((if key.1 = txHash then some tx else none).bind fun tx =>
        rowAt (tx.outputs.map fun out => view (.ofTxOutput out)) key.2).or
      ((s.txOutputs.get? key).map view) := by
  rw [write, IndexedTable.get?_put, Option.map_or]
  split_ifs
  · rw [Option.bind_some, ← IndexedTable.rowAt_map, List.map_map]
    rfl
  · rfl

theorem outputs_apply (key : OutRef) (call : Call) (s : TransactionStore) :
    ((apply call s).txOutputs.get? key).map OutputRow.toTxOutput =
      (call.outputWrite key).or ((s.txOutputs.get? key).map OutputRow.toTxOutput) := by
  rw [Call.outputWrite]
  rcases apply_cases call s with
    ⟨fault, tx, h, raw, -, -, -, hst, happ⟩ | ⟨ref, t, rfl, -, happ⟩ | ⟨hst, -, happ⟩
  · rw [happ, hst, view_write_output]
  · rw [happ, IndexedTable.get?_update]
    split_ifs
    · rw [Option.map_map]
      rfl
    · rfl
  · rw [happ, hst]
    rfl

theorem flags_apply (key : OutRef) (call : Call) {s : TransactionStore}
    (hs : ∃ r, s.txOutputs.get? key = some r) :
    ((apply call s).txOutputs.get? key).map OutputRow.flags =
      (call.flagWrite key).or ((s.txOutputs.get? key).map OutputRow.flags) := by
  rcases apply_cases call s with
    ⟨fault, tx, h, raw, rfl, -, -, hst, happ⟩ | ⟨ref, t, rfl, hfit, happ⟩ | ⟨-, hflag, happ⟩
  · rw [happ, view_write_output, Call.flagWrite, Call.outputWrite, hst]
    split_ifs
    · rw [Option.bind_some, Option.bind_some, ← IndexedTable.rowAt_map, List.map_map]
      rfl
    · rfl
  · obtain ⟨r, hr⟩ := hs
    rw [happ, IndexedTable.get?_update, Call.flagWrite]
    by_cases hk : key = ref
    · subst hk
      rw [if_pos rfl, if_pos ⟨rfl, hfit, rfl⟩, hr]
      rfl
    · rw [if_neg hk, if_neg fun hc => hk hc.2.2.symm]
      rfl
  · rw [happ, hflag]
    rfl

theorem exists_output_apply {key : OutRef} (call : Call) {s : TransactionStore}
    (hs : ∃ r, s.txOutputs.get? key = some r) : ∃ r, (apply call s).txOutputs.get? key = some r := by
  obtain ⟨r, hr⟩ := hs
  have hview := outputs_apply key call s
  rw [hr] at hview
  cases hnew : (apply call s).txOutputs.get? key with
  | some r' => exact ⟨r', rfl⟩
  | none =>
    rw [hnew, Option.map_none, Option.map_some] at hview
    have hor := Option.or_eq_none_iff.mp hview.symm
    cases hor.2

/-- The same rows are in both stores. -/
structure SameRows (s s' : TransactionStore) : Prop where
  transactions : ∀ txHash, s.transactions.get? txHash = s'.transactions.get? txHash
  txInputs : ∀ key, s.txInputs.get? key = s'.txInputs.get? key
  txOutputs : ∀ key, s.txOutputs.get? key = s'.txOutputs.get? key

/-- What the calls write last into a cell is what the store holds there. -/
structure Repeats (calls : List Call) (s : TransactionStore) : Prop where
  row : ∀ txHash v, lastWrite (Call.rowWrite txHash) calls = some v →
    s.transactions.get? txHash = some v
  input : ∀ key v, lastWrite (Call.inputWrite key) calls = some v → s.txInputs.get? key = some v
  output : ∀ key v, lastWrite (Call.outputWrite key) calls = some v →
    (s.txOutputs.get? key).map OutputRow.toTxOutput = some v
  flags : ∀ key r, s.txOutputs.get? key = some r →
    ∀ v, lastWrite (Call.flagWrite key) calls = some v → r.flags = v

theorem outputRow_eq_iff (o o' : Option OutputRow) :
    o = o' ↔ o.map OutputRow.toTxOutput = o'.map OutputRow.toTxOutput ∧
      ∀ r, o' = some r → o.map OutputRow.flags = some r.flags := by
  constructor
  · rintro rfl
    exact ⟨rfl, fun r hr => by rw [hr, Option.map_some]⟩
  · rintro ⟨hview, hflags⟩
    cases o' with
    | none => simpa using hview
    | some r =>
      obtain ⟨q, rfl, hq⟩ := Option.map_eq_some_iff.mp (hflags r rfl)
      have hq' := Option.some.inj hview
      simp only [OutputRow.flags, Prod.mk.injEq] at hq
      simp only [OutputRow.toTxOutput, TxOutput.mk.injEq] at hq'
      obtain ⟨qv, qa, ql, qs, qb⟩ := q
      obtain ⟨rv, ra, rl, rs, rb⟩ := r
      simp_all

/-- A sequence of calls leaves every row as it is exactly when its last writes do. -/
theorem sameRows_runs_iff (calls : List Call) (s : TransactionStore) :
    SameRows (runs apply calls s) s ↔ Repeats calls s := by
  have hrow : ∀ h, (runs apply calls s).transactions.get? h = s.transactions.get? h ↔
      ∀ v, lastWrite (Call.rowWrite h) calls = some v → s.transactions.get? h = some v := by
    intro h
    rw [view_runs (fun _ => True) (fun s => s.transactions.get? h)
      (fun _ _ h => h) (fun c s _ => get?_transactions_apply h c s) calls trivial, or_eq_self_iff]
  have hin : ∀ k, (runs apply calls s).txInputs.get? k = s.txInputs.get? k ↔
      ∀ v, lastWrite (Call.inputWrite k) calls = some v → s.txInputs.get? k = some v := by
    intro k
    rw [view_runs (fun _ => True) (fun s => s.txInputs.get? k)
      (fun _ _ h => h) (fun c s _ => get?_txInputs_apply k c s) calls trivial, or_eq_self_iff]
  have hout : ∀ k, ((runs apply calls s).txOutputs.get? k).map OutputRow.toTxOutput =
      (s.txOutputs.get? k).map OutputRow.toTxOutput ↔
      ∀ v, lastWrite (Call.outputWrite k) calls = some v →
        (s.txOutputs.get? k).map OutputRow.toTxOutput = some v := by
    intro k
    rw [view_runs (fun _ => True)
      (fun s => (s.txOutputs.get? k).map OutputRow.toTxOutput)
      (fun _ _ h => h) (fun c s _ => outputs_apply k c s) calls trivial, or_eq_self_iff]
  have hflag : ∀ k r, s.txOutputs.get? k = some r →
      (((runs apply calls s).txOutputs.get? k).map OutputRow.flags = some r.flags ↔
        ∀ v, lastWrite (Call.flagWrite k) calls = some v → r.flags = v) := by
    intro k r hr
    have hrun := view_runs (fun s : TransactionStore => ∃ r, s.txOutputs.get? k = some r)
      (fun s => (s.txOutputs.get? k).map OutputRow.flags)
      (fun c s hs => exists_output_apply c hs) (fun c s hs => flags_apply k c hs) calls ⟨r, hr⟩
    simp only [hr, Option.map_some] at hrun
    rw [hrun, or_eq_self_iff]
    simp only [Option.some.injEq]
  constructor
  · intro h
    exact ⟨fun k => (hrow k).mp (h.transactions k), fun k => (hin k).mp (h.txInputs k),
      fun k => (hout k).mp ((outputRow_eq_iff _ _).mp (h.txOutputs k)).1,
      fun k r hr => (hflag k r hr).mp (((outputRow_eq_iff _ _).mp (h.txOutputs k)).2 r hr)⟩
  · intro h
    exact ⟨fun k => (hrow k).mpr (h.row k), fun k => (hin k).mpr (h.input k), fun k =>
      (outputRow_eq_iff _ _).mpr
        ⟨(hout k).mpr (h.output k), fun r hr => (hflag k r hr).mpr (h.flags k r hr)⟩⟩

/-- A transaction can be found after the calls when it was there or one of them stored it. -/
theorem getTransaction_runs_iff (calls : List Call) (s : TransactionStore) (txHash : Bytes) :
    (∃ row, (runs apply calls s).getTransaction txHash = some row) ↔
      (∃ row, s.getTransaction txHash = some row) ∨
        ∃ fault tx, Call.storeTransaction fault tx ∈ calls ∧ fault = false ∧ tx.Storable ∧
          tx.txHash = .ok txHash := by
  induction calls using List.reverseRecOn with
  | nil => simp
  | append_singleton calls call ih =>
    have hnew : (∃ row, call.rowWrite txHash = some row) ↔ ∃ fault tx,
        call = .storeTransaction fault tx ∧ fault = false ∧ tx.Storable ∧
          tx.txHash = .ok txHash := by
      cases call with
      | storeTransaction fault tx =>
        simp only [Call.rowWrite, Call.stores, Call.storeTransaction.injEq]
        constructor
        · rintro ⟨row, hrow⟩
          split_ifs at hrow with hc
          · exact ⟨fault, tx, ⟨rfl, rfl⟩, hc⟩
          · cases hrow
        · rintro ⟨_, _, ⟨rfl, rfl⟩, hc⟩
          obtain ⟨raw, hraw⟩ := tx.toBytes_returns_iff.mpr hc.2.1.encodable
          exact ⟨tx.toRow raw, by simp [hc, hraw, Except.toOption]⟩
      | markOutputSpent fault ref spendingTx =>
        constructor
        · rintro ⟨row, hrow⟩
          cases hrow
        · rintro ⟨fault', tx, hc, -⟩
          cases hc
    have hor : ∀ x y : Option TxRow, (∃ row, x.or y = some row) ↔
        (∃ row, y = some row) ∨ ∃ row, x = some row := by
      intro x y
      cases x <;> simp
    rw [runs_append_singleton, getTransaction, get?_transactions_apply, hor, hnew]
    simp only [getTransaction] at ih ⊢
    rw [ih]
    simp only [List.mem_append, List.mem_singleton, or_and_right, exists_or, or_assoc, eq_comm]

theorem storeTransaction_mem_markCalls (faults : Faults) (i j : ℕ) (txHash : Bytes)
    (inps : List TxInput) (fault : Bool) (tx : Transaction) :
    .storeTransaction fault tx ∉ markCalls faults i txHash j inps := by
  induction inps generalizing j with
  | nil => exact List.not_mem_nil
  | cons inp inps ih => simp [markCalls, ih]

theorem storeTransaction_mem_storeCalls (faults : Faults) (i : ℕ) {txs : List Transaction}
    (h : (txs.mapM Transaction.txHash).Returns) (fault : Bool) (tx : Transaction) :
    .storeTransaction fault tx ∈ storeCalls faults i txs ↔
      ∃ n, txs[n]? = some tx ∧ fault = faults (.storeTransaction (i + n)) := by
  induction txs generalizing i with
  | nil => simp [storeCalls]
  | cons t txs ih =>
    rw [Except.returns_mapM, List.forall_mem_cons] at h
    obtain ⟨⟨txHash, hh⟩, hrest⟩ := h
    simp only [storeCalls, hh, List.mem_cons, List.mem_append, storeTransaction_mem_markCalls,
      false_or, ih (i + 1) (Except.returns_mapM.mpr hrest)]
    constructor
    · rintro (hc | ⟨n, hn, hf⟩)
      · obtain ⟨rfl, rfl⟩ := Call.storeTransaction.inj hc
        exact ⟨0, rfl, rfl⟩
      · exact ⟨n + 1, hn, by rw [hf]; congr 2; omega⟩
    · rintro ⟨n, hn, hf⟩
      cases n with
      | zero =>
        obtain rfl := Option.some.inj hn
        exact Or.inl (by rw [hf, Nat.add_zero])
      | succ n => exact Or.inr ⟨n, hn, by rw [hf]; congr 2; omega⟩

end TransactionStore

end Qrtb
