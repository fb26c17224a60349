import Qrtb.Ledger.Encoding
import Qrtb.Ledger.UtxoSet
import Qrtb.Storage.BlockStore

/-!
# The transaction store (`src/storage.py`)

A transaction is stored as one row under its hash and numbered rows for its
inputs and outputs; all of them replace what was there. An output row carries a
spent flag, which an insertion puts back to its default.
-/

namespace Qrtb

open Transition

/-- A row of `transactions`, without its key. -/
structure TxRow where
  version : ℤ
  txType : ℤ
  epoch : ℤ
  timestamp : ℤ
  fee : ℤ
  inputCount : ℤ
  outputCount : ℤ
  rawData : Bytes
  deriving DecidableEq

/-- A row of `tx_outputs`, without its key. -/
structure OutputRow where
  value : ℤ
  address : Bytes
  lockEpoch : ℤ
  spent : Bool := false
  spentBy : Option Bytes := none
  deriving DecidableEq

namespace OutputRow

def markSpent (spendingTx : Bytes) (r : OutputRow) : OutputRow :=
  { r with spent := true, spentBy := some spendingTx }

/-- The columns `spent` and `spent_by`. -/
def flags (r : OutputRow) : Bool × Option Bytes := (r.spent, r.spentBy)

/-- The output a row is read back as; its data was not stored. -/
def toTxOutput (r : OutputRow) : TxOutput :=
  { value := r.value, address := r.address, lockEpoch := r.lockEpoch }

theorem toTxOutput_markSpent (spendingTx : Bytes) (r : OutputRow) :
    (r.markSpent spendingTx).toTxOutput = r.toTxOutput := rfl

def ofTxOutput (out : TxOutput) : OutputRow :=
  { value := out.value, address := out.address, lockEpoch := out.lockEpoch }

end OutputRow

def TxOutput.stored (out : TxOutput) : TxOutput := (OutputRow.ofTxOutput out).toTxOutput

/-- One entry of `get_utxos_for_address`. -/
structure AddressUtxo where
  txHash : Bytes
  outputIndex : ℤ
  value : ℤ
  lockEpoch : ℤ
  deriving DecidableEq

structure TransactionStore where
  transactions : OrderedDict Bytes TxRow := ∅
  txInputs : IndexedTable Bytes OutRef := ∅
  txOutputs : IndexedTable Bytes OutputRow := ∅

namespace TransactionStore

instance : EmptyCollection TransactionStore := ⟨{}⟩

/-- The statements of `store_transaction`. -/
def insertTransaction (tx : Transaction) (s : TransactionStore) :
    Except PyError TransactionStore := do
  let txHash ← tx.txHash
  let rawData ← tx.toBytes
  let version ← sqlInt tx.version
  let txType ← sqlInt tx.txType.value
  let epoch ← sqlInt tx.epoch
  let timestamp ← sqlInt tx.timestamp
  let fee ← sqlInt tx.fee
  let inputCount ← sqlInt tx.inputs.length
  let outputCount ← sqlInt tx.outputs.length
  let row : TxRow :=
    { version, txType, epoch, timestamp, fee, inputCount, outputCount, rawData }
  let inputs ← tx.inputs.mapM fun inp => do return (inp.prevTxHash, ← sqlInt inp.outputIndex)
  let outputs ← tx.outputs.mapM fun out => do
    let value ← sqlInt out.value
    let lockEpoch ← sqlInt out.lockEpoch
    return ({ value, address := out.address, lockEpoch } : OutputRow)
  return {
    transactions := s.transactions.set txHash row
    txInputs := s.txInputs.put txHash inputs
    txOutputs := s.txOutputs.put txHash outputs }

def storeTransaction (fault : Bool) (tx : Transaction) (s : TransactionStore) :
    Bool × TransactionStore :=
  sqlTransaction fault (insertTransaction tx) s

/-- The statement of `mark_output_spent`; a reference without a row changes nothing. -/
def updateOutput (ref : OutRef) (spendingTx : Bytes) (s : TransactionStore) :
    Except PyError TransactionStore := do
  let outputIndex ← sqlInt ref.2
  return { s with
    txOutputs := s.txOutputs.update (ref.1, outputIndex) (OutputRow.markSpent spendingTx) }

def markOutputSpent (fault : Bool) (ref : OutRef) (spendingTx : Bytes) (s : TransactionStore) :
    Bool × TransactionStore :=
  sqlTransaction fault (updateOutput ref spendingTx) s

variable (s : TransactionStore)

def getTransaction (txHash : Bytes) : Option TxRow := s.transactions.get? txHash

def getOutputs (txHash : Bytes) : List TxOutput :=
  (s.txOutputs.select txHash).map OutputRow.toTxOutput

def getInputs (txHash : Bytes) : List OutRef := s.txInputs.select txHash

/-- The unspent outputs of an address; the order of the rows is not specified. -/
def getUtxosForAddress (address : Bytes) : List AddressUtxo :=
  s.txOutputs.rows.items.filterMap fun p =>
    if p.2.address = address ∧ p.2.spent = false then
      some
        { txHash := p.1.1
          outputIndex := p.1.2
          value := p.2.value
          lockEpoch := p.2.lockEpoch }
    else none

end TransactionStore

namespace Transaction

/-- The row a transaction is inserted as. -/
def toRow (tx : Transaction) (rawData : Bytes) : TxRow where
  version := tx.version
  txType := tx.txType.value
  epoch := tx.epoch
  timestamp := tx.timestamp
  fee := tx.fee
  inputCount := tx.inputs.length
  outputCount := tx.outputs.length
  rawData := rawData

/-- The transaction can be serialized and its integers fit the columns. -/
structure Storable (tx : Transaction) : Prop where
  encodable : tx.Encodable
  epoch : tx.epoch < 2 ^ 63
  timestamp : tx.timestamp < 2 ^ 63
  fee : tx.fee < 2 ^ 63
  outputIndex : ∀ i ∈ tx.inputs, i.outputIndex < 2 ^ 63
  value : ∀ o ∈ tx.outputs, o.value < 2 ^ 63
  lockEpoch : ∀ o ∈ tx.outputs, o.lockEpoch < 2 ^ 63

instance (tx : Transaction) : Decidable tx.Storable :=
  decidable_of_iff
    (tx.Encodable ∧ tx.epoch < 2 ^ 63 ∧ tx.timestamp < 2 ^ 63 ∧ tx.fee < 2 ^ 63 ∧
      (∀ i ∈ tx.inputs, i.outputIndex < 2 ^ 63) ∧ (∀ o ∈ tx.outputs, o.value < 2 ^ 63) ∧
      ∀ o ∈ tx.outputs, o.lockEpoch < 2 ^ 63)
    ⟨fun ⟨h1, h2, h3, h4, h5, h6, h7⟩ => ⟨h1, h2, h3, h4, h5, h6, h7⟩,
      fun ⟨h1, h2, h3, h4, h5, h6, h7⟩ => ⟨h1, h2, h3, h4, h5, h6, h7⟩⟩

theorem Storable.exists_hash {tx : Transaction} (h : tx.Storable) : ∃ txHash, tx.txHash = .ok txHash :=
  tx.txHash_returns.mpr h.encodable.packable

end Transaction

namespace TransactionStore

variable (s : TransactionStore)

/-- The store with a transaction written under its hash. -/
def write (tx : Transaction) (txHash rawData : Bytes) : TransactionStore where
  transactions := s.transactions.set txHash (tx.toRow rawData)
  txInputs := s.txInputs.put txHash tx.refs
  txOutputs := s.txOutputs.put txHash (tx.outputs.map OutputRow.ofTxOutput)

theorem inputRows_eq_ok {inputs : List TxInput} {rows : List OutRef} :
    (inputs.mapM fun inp => do return (inp.prevTxHash, ← sqlInt inp.outputIndex)) = .ok rows ↔
      (∀ i ∈ inputs, FitsSql i.outputIndex) ∧ rows = inputs.map TxInput.ref := by
  apply Except.mapM_eq_ok_iff
  intro inp row
  simp only [pure, Except.pure, Except.bind_return_eq_ok, sqlInt_eq_ok, and_assoc,
    exists_and_left, exists_eq_left, TxInput.ref]

theorem outputRows_eq_ok {outputs : List TxOutput} {rows : List OutputRow} :
    (outputs.mapM fun out => do
      let value ← sqlInt out.value
      let lockEpoch ← sqlInt out.lockEpoch
      return ({ value, address := out.address, lockEpoch } : OutputRow)) = .ok rows ↔
      (∀ o ∈ outputs, FitsSql o.value ∧ FitsSql o.lockEpoch) ∧
        rows = outputs.map OutputRow.ofTxOutput := by
  apply Except.mapM_eq_ok_iff
  intro out row
  simp only [pure, Except.pure, Except.bind_eq_ok, sqlInt_eq_ok, and_assoc, exists_and_left,
    exists_eq_left, Except.ok.injEq, eq_comm (a := row), OutputRow.ofTxOutput]

theorem insertTransaction_eq_ok {tx : Transaction} {s' : TransactionStore} :
    s.insertTransaction tx = .ok s' ↔
      tx.Storable ∧ ∃ txHash rawData, tx.txHash = .ok txHash ∧ tx.toBytes = .ok rawData ∧
        s' = s.write tx txHash rawData := by
  have htype : FitsSql tx.txType.value := by cases tx.txType <;> decide
  simp only [insertTransaction, Except.bind_eq_ok, sqlInt_eq_ok, inputRows_eq_ok,
    outputRows_eq_ok]
  constructor
  · rintro ⟨h, hh, raw, hraw, _, ⟨-, rfl⟩, _, ⟨-, rfl⟩, _, ⟨he, rfl⟩, _, ⟨ht, rfl⟩, _, ⟨hf, rfl⟩,
      _, ⟨-, rfl⟩, _, ⟨-, rfl⟩, _, ⟨hi, rfl⟩, _, ⟨ho, rfl⟩, hs⟩
    have henc := tx.toBytes_returns_iff.mp ⟨raw, hraw⟩
    exact ⟨⟨henc, he.2, ht.2, hf.2, fun i hi' => (hi i hi').2, fun o ho' => (ho o ho').1.2,
      fun o ho' => (ho o ho').2.2⟩, h, raw, hh, hraw, (Except.ok.inj hs).symm⟩
  · rintro ⟨hst, h, raw, hh, hraw, rfl⟩
    have fits : ∀ n : ℤ, 0 ≤ n → n < 2 ^ 63 → FitsSql n := by
      intro n h0 h1
      exact ⟨by omega, h1⟩
    have henc := hst.encodable
    have hv := henc.version
    have hic := henc.inputCount
    have hoc := henc.outputCount
    exact ⟨h, hh, raw, hraw, _, ⟨fits _ hv.1 (by omega), rfl⟩, _, ⟨htype, rfl⟩,
      _, ⟨fits _ henc.epoch.1 hst.epoch, rfl⟩, _, ⟨fits _ henc.timestamp.1 hst.timestamp, rfl⟩,
      _, ⟨fits _ henc.fee.1 hst.fee, rfl⟩, _, ⟨fits _ (by omega) (by omega), rfl⟩,
      _, ⟨fits _ (by omega) (by omega), rfl⟩,
      _, ⟨fun i hi => fits _ (henc.input i hi).1.1 (hst.outputIndex i hi), rfl⟩,
      _, ⟨fun o ho => ⟨fits _ (henc.output o ho).1.1 (hst.value o ho),
        fits _ (henc.output o ho).2.1.1 (hst.lockEpoch o ho)⟩, rfl⟩, rfl⟩

theorem storeTransaction_of_storable {fault : Bool} {tx : Transaction} (hf : fault = false)
    (h : tx.Storable) :
    ∃ txHash rawData, tx.txHash = .ok txHash ∧ tx.toBytes = .ok rawData ∧
      s.storeTransaction fault tx = (true, s.write tx txHash rawData) := by
  obtain ⟨txHash, hh⟩ := h.exists_hash
  obtain ⟨rawData, hraw⟩ := tx.toBytes_returns_iff.mpr h.encodable
  have hins := s.insertTransaction_eq_ok.mpr ⟨h, txHash, rawData, hh, hraw, rfl⟩
  exact ⟨txHash, rawData, hh, hraw, sqlTransaction_of_ok hf hins⟩

theorem storeTransaction_of_not {fault : Bool} {tx : Transaction}
    (h : ¬ (fault = false ∧ tx.Storable)) : s.storeTransaction fault tx = (false, s) := by
  apply sqlTransaction_of_not
  rintro ⟨hf, s', hs'⟩
  exact h ⟨hf, (s.insertTransaction_eq_ok.mp hs').1⟩

theorem markOutputSpent_of_fits {fault : Bool} {ref : OutRef} (spendingTx : Bytes)
    (hf : fault = false) (h : FitsSql ref.2) :
    s.markOutputSpent fault ref spendingTx =
      (true, { s with txOutputs := s.txOutputs.update ref (OutputRow.markSpent spendingTx) }) := by
  apply sqlTransaction_of_ok hf
  simp [updateOutput, sqlInt, h, bind, Except.bind, pure, Except.pure]

theorem markOutputSpent_of_not {fault : Bool} {ref : OutRef} (spendingTx : Bytes)
    (h : ¬ (fault = false ∧ FitsSql ref.2)) :
    s.markOutputSpent fault ref spendingTx = (false, s) := by
  apply sqlTransaction_of_not
  rintro ⟨hf, s', hs'⟩
  obtain ⟨_, hfit, -⟩ := Except.bind_eq_ok.mp hs'
  exact h ⟨hf, (sqlInt_eq_ok.mp hfit).1⟩

end TransactionStore

end Qrtb
