import Qrtb.Ledger.Transaction

/-!
# The serialized form of a transaction (`src/transaction.py`)

`to_bytes` writes the counts and the version as single bytes and the lengths of
signatures and keys in two. It raises for transactions that can be hashed, which
uses eight bytes for each of these.
-/

namespace Qrtb

def TxInput.toBytes (inp : TxInput) : Except PyError Bytes := do
  let signatureLength ← intToBytes 2 inp.signature.length
  let publicKeyLength ← intToBytes 2 inp.publicKey.length
  concat [.bytes inp.prevTxHash, .int inp.outputIndex, .bytes signatureLength,
    .bytes inp.signature, .bytes publicKeyLength, .bytes inp.publicKey]

theorem TxInput.toBytes_returns (inp : TxInput) :
    inp.toBytes.Returns ↔ (0 ≤ inp.outputIndex ∧ inp.outputIndex < 256 ^ 8) ∧
      inp.signature.length < 256 ^ 2 ∧ inp.publicKey.length < 256 ^ 2 := by
  simp only [← intToBytes_returns, toBytes, Except.returns_bind, concat_returns]
  constructor
  · rintro ⟨s, hs, k, hk, h⟩
    exact ⟨(encode_int_returns _).mp (h _ (by simp)), ⟨s, hs⟩, k, hk⟩
  · rintro ⟨h, ⟨s, hs⟩, k, hk⟩
    exact ⟨s, hs, k, hk, by simpa using h⟩

namespace Transaction

variable (tx : Transaction)

def toBytes : Except PyError Bytes := do
  let version ← byteOf tx.version
  let txType ← byteOf tx.txType.value
  let inputCount ← byteOf tx.inputs.length
  let inputs ← tx.inputs.mapM TxInput.toBytes
  let outputCount ← byteOf tx.outputs.length
  let outputs ← tx.outputs.mapM TxOutput.toBytes
  let epoch ← structPack 8 tx.epoch
  let timestamp ← structPack 8 tx.timestamp
  let fee ← structPack 8 tx.fee
  return ([version, txType, inputCount] ++ inputs ++ [outputCount] ++ outputs ++
    [epoch, timestamp, fee, tx.nonce]).flatten

/-- Everything fits the width `to_bytes` gives it. -/
structure Encodable : Prop where
  version : 0 ≤ tx.version ∧ tx.version < 256
  inputCount : tx.inputs.length < 256
  input : ∀ i ∈ tx.inputs, (0 ≤ i.outputIndex ∧ i.outputIndex < 256 ^ 8) ∧
    i.signature.length < 256 ^ 2 ∧ i.publicKey.length < 256 ^ 2
  outputCount : tx.outputs.length < 256
  output : ∀ o ∈ tx.outputs, (0 ≤ o.value ∧ o.value < 256 ^ 8) ∧
    (0 ≤ o.lockEpoch ∧ o.lockEpoch < 256 ^ 8) ∧ o.data.length < 256 ^ 2
  epoch : 0 ≤ tx.epoch ∧ tx.epoch < 256 ^ 8
  timestamp : 0 ≤ tx.timestamp ∧ tx.timestamp < 256 ^ 8
  fee : 0 ≤ tx.fee ∧ tx.fee < 256 ^ 8

instance : Decidable tx.Encodable :=
  decidable_of_iff
    ((0 ≤ tx.version ∧ tx.version < 256) ∧ tx.inputs.length < 256 ∧
      (∀ i ∈ tx.inputs, (0 ≤ i.outputIndex ∧ i.outputIndex < 256 ^ 8) ∧
        i.signature.length < 256 ^ 2 ∧ i.publicKey.length < 256 ^ 2) ∧
      tx.outputs.length < 256 ∧
      (∀ o ∈ tx.outputs, (0 ≤ o.value ∧ o.value < 256 ^ 8) ∧
        (0 ≤ o.lockEpoch ∧ o.lockEpoch < 256 ^ 8) ∧ o.data.length < 256 ^ 2) ∧
      (0 ≤ tx.epoch ∧ tx.epoch < 256 ^ 8) ∧ (0 ≤ tx.timestamp ∧ tx.timestamp < 256 ^ 8) ∧
      0 ≤ tx.fee ∧ tx.fee < 256 ^ 8)
    ⟨fun ⟨h1, h2, h3, h4, h5, h6, h7, h8⟩ => ⟨h1, h2, h3, h4, h5, h6, h7, h8⟩,
      fun ⟨h1, h2, h3, h4, h5, h6, h7, h8⟩ => ⟨h1, h2, h3, h4, h5, h6, h7, h8⟩⟩

theorem toBytes_returns_iff : tx.toBytes.Returns ↔ tx.Encodable := by
  have htype : (byteOf tx.txType.value).Returns := by
    rw [byteOf_returns]
    cases tx.txType <;> decide
  have hlen : ∀ n : ℕ, (byteOf n).Returns ↔ n < 256 := by
    intro n
    rw [byteOf_returns]
    omega
  have hparts : tx.toBytes.Returns ↔ (byteOf tx.version).Returns ∧
      (byteOf tx.inputs.length).Returns ∧ (tx.inputs.mapM TxInput.toBytes).Returns ∧
      (byteOf tx.outputs.length).Returns ∧ (tx.outputs.mapM TxOutput.toBytes).Returns ∧
      (structPack 8 tx.epoch).Returns ∧ (structPack 8 tx.timestamp).Returns ∧
      (structPack 8 tx.fee).Returns := by
    simp only [toBytes, Except.returns_bind]
    constructor
    · rintro ⟨v, hv, _, _, ic, hic, is, his, oc, hoc, os, hos, e, he, t, ht, f, hf, -⟩
      exact ⟨⟨v, hv⟩, ⟨ic, hic⟩, ⟨is, his⟩, ⟨oc, hoc⟩, ⟨os, hos⟩, ⟨e, he⟩, ⟨t, ht⟩, f, hf⟩
    · rintro ⟨⟨v, hv⟩, ⟨ic, hic⟩, ⟨is, his⟩, ⟨oc, hoc⟩, ⟨os, hos⟩, ⟨e, he⟩, ⟨t, ht⟩, f, hf⟩
      obtain ⟨y, hy⟩ := htype
      exact ⟨v, hv, y, hy, ic, hic, is, his, oc, hoc, os, hos, e, he, t, ht, f, hf, _, rfl⟩
  rw [hparts, byteOf_returns, hlen, hlen]
  simp only [Except.returns_mapM, TxInput.toBytes_returns, toBytes_returns, structPack_returns]
  constructor
  · rintro ⟨h1, h2, h3, h4, h5, h6, h7, h8⟩
    exact ⟨h1, h2, h3, h4, h5, h6, h7, h8⟩
  · rintro ⟨h1, h2, h3, h4, h5, h6, h7, h8⟩
    exact ⟨h1, h2, h3, h4, h5, h6, h7, h8⟩

theorem Encodable.packable {tx : Transaction} (h : tx.Encodable) : tx.Packable where
  version := ⟨h.version.1, by have := h.version.2; omega⟩
  inputCount := by have := h.inputCount; omega
  outputIndex i hi := (h.input i hi).1
  outputCount := by have := h.outputCount; omega
  value o ho := (h.output o ho).1
  lockEpoch o ho := (h.output o ho).2.1
  dataLength o ho := (h.output o ho).2.2
  epoch := h.epoch
  timestamp := h.timestamp
  fee := h.fee

end Transaction

end Qrtb
