import Qrtb.Crypto.Merkle

/-!
# Transactions (`src/transaction.py`)

Integer fields are unbounded, as in the source; the fixed-width packing of the
hash preimage is what raises when one is out of range. The hash leaves out
signatures, public keys and proofs, and `tx_hash` and `signing_hash` hash the
same bytes.
-/

namespace Qrtb

open Keccak

def TX_VERSION : ℤ := 1
def MAX_TX_SIZE : ℕ := 65536
def MAX_INPUTS : ℕ := 16
def MAX_OUTPUTS : ℕ := 16
def MIN_FEE_PER_BYTE : ℤ := 1
def DUST_THRESHOLD : ℤ := 546

inductive TxType where
  | transfer
  | stake
  | unstake
  | slash
  | coinbase
  | data
  | register
  | rotateAuth
  deriving DecidableEq, Repr

/-- The enumeration values of the source. -/
def TxType.value : TxType → ℤ
  | .transfer => 0
  | .stake => 1
  | .unstake => 2
  | .slash => 3
  | .coinbase => 4
  | .data => 5
  | .register => 6
  | .rotateAuth => 7

/-- A reference to an output: transaction hash and output index. -/
abbrev OutRef := Bytes × ℤ

structure TxInput where
  prevTxHash : Bytes
  outputIndex : ℤ
  signature : Bytes
  publicKey : Bytes
  authProof : Option (List ProofEntry) := none
  authKeyIndex : ℤ := -1
  deriving DecidableEq

namespace TxInput

def ref (inp : TxInput) : OutRef := (inp.prevTxHash, inp.outputIndex)

/-- `len(h)` of a proof entry is the length of the pair, two. -/
def proofSize (inp : TxInput) : ℕ := ((inp.authProof.getD []).map fun _ => 2).sum

def size (inp : TxInput) : ℕ :=
  32 + 4 + inp.signature.length + inp.publicKey.length + inp.proofSize + 4

end TxInput

structure TxOutput where
  value : ℤ
  address : Bytes
  lockEpoch : ℤ := 0
  data : Bytes := []
  deriving DecidableEq

namespace TxOutput

def size (out : TxOutput) : ℕ := 8 + 64 + 8 + 2 + out.data.length

def toBytes (out : TxOutput) : Except PyError Bytes := do
  let value ← structPack 8 out.value
  let lockEpoch ← structPack 8 out.lockEpoch
  let length ← structPack 2 out.data.length
  concat [.bytes value, .bytes out.address, .bytes lockEpoch, .bytes length, .bytes out.data]

end TxOutput

structure Transaction where
  version : ℤ
  txType : TxType
  inputs : List TxInput
  outputs : List TxOutput
  epoch : ℤ
  timestamp : ℤ
  fee : ℤ
  nonce : Bytes
  deriving DecidableEq

namespace Transaction

variable (tx : Transaction)

/-- The bytes under the transaction hash: everything except the signatures. -/
def hashData : Except PyError Bytes := do
  let inputs ← tx.inputs.mapM fun i => concat [.bytes i.prevTxHash, .int i.outputIndex]
  let outputs ← tx.outputs.mapM TxOutput.toBytes
  concat ([Arg.int tx.version, Arg.int tx.txType.value, Arg.int tx.inputs.length] ++
    inputs.map Arg.bytes ++ [Arg.int tx.outputs.length] ++ outputs.map Arg.bytes ++
    [Arg.int tx.epoch, Arg.int tx.timestamp, Arg.int tx.fee, Arg.bytes tx.nonce])

def txHash : Except PyError Bytes := do return sha3_256 (← tx.hashData)

def signingHash : Except PyError Bytes := do return sha3_256 (← tx.hashData)

def size : ℕ :=
  1 + 1 + 1 + 1 + 8 + 8 + 8 + 8 + (tx.inputs.map TxInput.size).sum +
    (tx.outputs.map TxOutput.size).sum

def totalOutput : ℤ := (tx.outputs.map TxOutput.value).sum

/-- The outputs a transaction spends, in input order. -/
def refs : List OutRef := tx.inputs.map TxInput.ref

/-- Every integer of the hash preimage fits the width it is packed with. -/
structure Packable : Prop where
  version : 0 ≤ tx.version ∧ tx.version < 256 ^ 8
  inputCount : tx.inputs.length < 256 ^ 8
  outputIndex : ∀ i ∈ tx.inputs, 0 ≤ i.outputIndex ∧ i.outputIndex < 256 ^ 8
  outputCount : tx.outputs.length < 256 ^ 8
  value : ∀ o ∈ tx.outputs, 0 ≤ o.value ∧ o.value < 256 ^ 8
  lockEpoch : ∀ o ∈ tx.outputs, 0 ≤ o.lockEpoch ∧ o.lockEpoch < 256 ^ 8
  dataLength : ∀ o ∈ tx.outputs, o.data.length < 256 ^ 2
  epoch : 0 ≤ tx.epoch ∧ tx.epoch < 256 ^ 8
  timestamp : 0 ≤ tx.timestamp ∧ tx.timestamp < 256 ^ 8
  fee : 0 ≤ tx.fee ∧ tx.fee < 256 ^ 8

instance : Decidable tx.Packable :=
  decidable_of_iff
    ((0 ≤ tx.version ∧ tx.version < 256 ^ 8) ∧ tx.inputs.length < 256 ^ 8 ∧
      (∀ i ∈ tx.inputs, 0 ≤ i.outputIndex ∧ i.outputIndex < 256 ^ 8) ∧
      tx.outputs.length < 256 ^ 8 ∧ (∀ o ∈ tx.outputs, 0 ≤ o.value ∧ o.value < 256 ^ 8) ∧
      (∀ o ∈ tx.outputs, 0 ≤ o.lockEpoch ∧ o.lockEpoch < 256 ^ 8) ∧
      (∀ o ∈ tx.outputs, o.data.length < 256 ^ 2) ∧ (0 ≤ tx.epoch ∧ tx.epoch < 256 ^ 8) ∧
      (0 ≤ tx.timestamp ∧ tx.timestamp < 256 ^ 8) ∧ 0 ≤ tx.fee ∧ tx.fee < 256 ^ 8)
    ⟨fun ⟨h1, h2, h3, h4, h5, h6, h7, h8, h9, h10⟩ => ⟨h1, h2, h3, h4, h5, h6, h7, h8, h9, h10⟩,
      fun ⟨h1, h2, h3, h4, h5, h6, h7, h8, h9, h10⟩ => ⟨h1, h2, h3, h4, h5, h6, h7, h8, h9, h10⟩⟩

theorem toBytes_returns (out : TxOutput) :
    out.toBytes.Returns ↔ (0 ≤ out.value ∧ out.value < 256 ^ 8) ∧
      (0 ≤ out.lockEpoch ∧ out.lockEpoch < 256 ^ 8) ∧ out.data.length < 256 ^ 2 := by
  have hlen : (0 : ℤ) ≤ out.data.length ∧ (out.data.length : ℤ) < 256 ^ 2 ↔
      out.data.length < 256 ^ 2 := by omega
  rw [← hlen, ← structPack_returns, ← structPack_returns, ← structPack_returns]
  simp only [TxOutput.toBytes, Except.returns_bind, concat_returns]
  constructor
  · rintro ⟨v, hv, l, hl, n, hn, -⟩
    exact ⟨⟨v, hv⟩, ⟨l, hl⟩, n, hn⟩
  · rintro ⟨⟨v, hv⟩, ⟨l, hl⟩, n, hn⟩
    exact ⟨v, hv, l, hl, n, hn, by simp⟩

/-- The hash of a transaction can be computed exactly when all its integers fit. -/
theorem hashData_returns : tx.hashData.Returns ↔ tx.Packable := by
  have htype : 0 ≤ tx.txType.value ∧ tx.txType.value < 256 ^ 8 := by
    cases tx.txType <;> decide
  have hargs : ∀ ins outs : List Bytes,
      (concat ([Arg.int tx.version, Arg.int tx.txType.value, Arg.int tx.inputs.length] ++
        ins.map Arg.bytes ++ [Arg.int tx.outputs.length] ++ outs.map Arg.bytes ++
        [Arg.int tx.epoch, Arg.int tx.timestamp, Arg.int tx.fee, Arg.bytes tx.nonce])).Returns ↔
      (0 ≤ tx.version ∧ tx.version < 256 ^ 8) ∧ tx.inputs.length < 256 ^ 8 ∧
        tx.outputs.length < 256 ^ 8 ∧ (0 ≤ tx.epoch ∧ tx.epoch < 256 ^ 8) ∧
        (0 ≤ tx.timestamp ∧ tx.timestamp < 256 ^ 8) ∧ (0 ≤ tx.fee ∧ tx.fee < 256 ^ 8) := by
    intro ins outs
    rw [concat_returns]
    simp only [List.forall_mem_append, List.forall_mem_cons, List.forall_mem_map,
      encode_bytes_returns, encode_int_returns, List.not_mem_nil, false_imp_iff, implies_true,
      and_true, true_and, htype]
    omega
  simp only [hashData, Except.returns_bind, hargs]
  constructor
  · rintro ⟨ins, hins, outs, houts, hv, hic, hoc, he, ht, hf⟩
    have hin := Except.returns_mapM.mp ⟨ins, hins⟩
    have hout := Except.returns_mapM.mp ⟨outs, houts⟩
    have hout' := fun o ho => (toBytes_returns o).mp (hout o ho)
    have hindex : ∀ i ∈ tx.inputs, 0 ≤ i.outputIndex ∧ i.outputIndex < 256 ^ 8 := by
      intro i hi
      have hi' := concat_returns.mp (hin i hi) (.int i.outputIndex) (by simp)
      exact (encode_int_returns _).mp hi'
    exact ⟨hv, hic, hindex, hoc, fun o ho => (hout' o ho).1, fun o ho => (hout' o ho).2.1,
      fun o ho => (hout' o ho).2.2, he, ht, hf⟩
  · intro h
    obtain ⟨ins, hins⟩ : (tx.inputs.mapM fun i =>
        concat [.bytes i.prevTxHash, .int i.outputIndex]).Returns := by
      apply Except.returns_mapM.mpr
      intro i hi
      apply concat_returns.mpr
      simpa using h.outputIndex i hi
    obtain ⟨outs, houts⟩ : (tx.outputs.mapM TxOutput.toBytes).Returns :=
      Except.returns_mapM.mpr fun o ho =>
        (toBytes_returns o).mpr ⟨h.value o ho, h.lockEpoch o ho, h.dataLength o ho⟩
    exact ⟨ins, hins, outs, houts, h.version, h.inputCount, h.outputCount, h.epoch, h.timestamp,
      h.fee⟩

theorem hashData_nonce {data : Bytes} (h : tx.hashData = .ok data) :
    ∃ front, data = front ++ tx.nonce ∧
      ∀ nonce, { tx with nonce := nonce }.hashData = .ok (front ++ nonce) := by
  have hargs : ∀ (ins outs : List Bytes) (nonce : Bytes),
      ([Arg.int tx.version, Arg.int tx.txType.value, Arg.int tx.inputs.length] ++
        ins.map Arg.bytes ++ [Arg.int tx.outputs.length] ++ outs.map Arg.bytes ++
        [Arg.int tx.epoch, Arg.int tx.timestamp, Arg.int tx.fee, Arg.bytes nonce]) =
      ([Arg.int tx.version, Arg.int tx.txType.value, Arg.int tx.inputs.length] ++
        ins.map Arg.bytes ++ [Arg.int tx.outputs.length] ++ outs.map Arg.bytes ++
        [Arg.int tx.epoch, Arg.int tx.timestamp, Arg.int tx.fee]) ++ [Arg.bytes nonce] := by
    intro ins outs nonce
    simp
  simp only [hashData, Except.bind_eq_ok, hargs, concat_append_bytes_eq_ok] at h ⊢
  obtain ⟨ins, hins, outs, houts, front, hfront, rfl⟩ := h
  exact ⟨front, rfl, fun nonce => ⟨ins, hins, outs, houts, front, hfront, rfl⟩⟩

theorem txHash_returns : tx.txHash.Returns ↔ tx.Packable := by
  rw [← hashData_returns, txHash, Except.returns_bind]
  exact ⟨fun ⟨d, hd, _⟩ => ⟨d, hd⟩, fun ⟨d, hd⟩ => ⟨d, hd, sha3_256 d, rfl⟩⟩

/-- The dust check reports the first offending index. -/
def checkDust : ℕ → List TxOutput → Check Unit
  | _, [] => .ok ()
  | i, out :: outs => do
    Check.rejectIf (out.value < DUST_THRESHOLD ∧ out.value ≠ 0)
      s!"dust output at index {i}: {out.value}"
    checkDust (i + 1) outs

def isValidStructure : Check Unit := do
  Check.rejectIf (tx.version ≠ TX_VERSION) s!"invalid version: {tx.version}"
  Check.rejectIf (tx.inputs.length = 0 ∧ tx.txType ≠ .coinbase) "no inputs"
  Check.rejectIf (tx.inputs.length > MAX_INPUTS) s!"too many inputs: {tx.inputs.length}"
  Check.rejectIf (tx.outputs.length = 0) "no outputs"
  Check.rejectIf (tx.outputs.length > MAX_OUTPUTS) s!"too many outputs: {tx.outputs.length}"
  Check.rejectIf (tx.size > MAX_TX_SIZE) s!"transaction too large: {tx.size}"
  checkDust 0 tx.outputs
  let minFee := tx.size * MIN_FEE_PER_BYTE
  Check.rejectIf (tx.fee < minFee ∧ tx.txType ≠ .coinbase) s!"fee too low: {tx.fee} < {minFee}"

/-- What `is_valid_structure` accepts. -/
structure WellFormed : Prop where
  version : tx.version = TX_VERSION
  hasInputs : tx.txType ≠ .coinbase → tx.inputs ≠ []
  maxInputs : tx.inputs.length ≤ MAX_INPUTS
  hasOutputs : tx.outputs ≠ []
  maxOutputs : tx.outputs.length ≤ MAX_OUTPUTS
  maxSize : tx.size ≤ MAX_TX_SIZE
  noDust : ∀ o ∈ tx.outputs, DUST_THRESHOLD ≤ o.value ∨ o.value = 0
  minFee : tx.txType ≠ .coinbase → tx.size * MIN_FEE_PER_BYTE ≤ tx.fee

theorem checkDust_eq_ok (i : ℕ) (outs : List TxOutput) (u : Unit) :
    checkDust i outs = .ok u ↔ ∀ o ∈ outs, DUST_THRESHOLD ≤ o.value ∨ o.value = 0 := by
  induction outs generalizing i with
  | nil => simp [checkDust]
  | cons out outs ih =>
    simp only [checkDust, Except.bind_eq_ok, Check.rejectIf_eq_ok, exists_const, ih,
      List.forall_mem_cons]
    apply and_congr_left
    intro _
    rw [not_and_or, not_lt, not_not]

theorem isValidStructure_eq_ok (u : Unit) : tx.isValidStructure = .ok u ↔ tx.WellFormed := by
  simp only [isValidStructure, Except.bind_eq_ok, Check.rejectIf_eq_ok, exists_const,
    checkDust_eq_ok, not_and_or, not_not, not_lt, gt_iff_lt, List.length_eq_zero_iff]
  constructor
  · rintro ⟨hv, hi, hmi, ho, hmo, hs, hd, hf⟩
    exact ⟨hv, fun h => hi.resolve_right h, hmi, ho, hmo, hs, hd, fun h => hf.resolve_right h⟩
  · intro h
    have or_of : ∀ {p : Prop}, (tx.txType ≠ .coinbase → p) → p ∨ tx.txType = .coinbase := by
      intro p hp
      by_cases hc : tx.txType = .coinbase
      · exact Or.inr hc
      · exact Or.inl (hp hc)
    exact ⟨h.version, or_of h.hasInputs, h.maxInputs, h.hasOutputs, h.maxOutputs, h.maxSize,
      h.noDust, or_of h.minFee⟩

theorem WellFormed.value_nonneg {tx : Transaction} (h : tx.WellFormed) {o : TxOutput}
    (ho : o ∈ tx.outputs) : 0 ≤ o.value := by
  have hd := h.noDust o ho
  simp only [DUST_THRESHOLD] at hd
  omega

/-- Only a coinbase may carry a negative fee. -/
theorem WellFormed.fee_nonneg {tx : Transaction} (h : tx.WellFormed)
    (hc : tx.txType ≠ .coinbase) : 0 ≤ tx.fee := by
  have hf := h.minFee hc
  simp only [MIN_FEE_PER_BYTE] at hf
  omega

end Transaction

end Qrtb
