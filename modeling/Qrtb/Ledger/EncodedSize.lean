import Qrtb.Ledger.Decoding

/-!
# The size of a transaction and the length of its bytes (`src/transaction.py`)

The size is a formula of its own. It agrees with the encoder except in the inputs, where
it counts four bytes for the index and none of the two lengths, but four for the key
index that is not written, and for an entry of a proof the length of the pair.
-/

namespace Qrtb

open Bytes

namespace TxInput

theorem length_encoding {inp : TxInput} (hhash : inp.prevTxHash.length = 32) :
    inp.encoding.length = 44 + inp.signature.length + inp.publicKey.length := by
  simp only [encoding, word, List.length_append, length_bigEndian, hhash]
  omega

/-- The entries of the proof of an input. -/
def proofEntries (inp : TxInput) : ℕ := (inp.authProof.getD []).length

theorem proofSize_eq (inp : TxInput) : inp.proofSize = 2 * inp.proofEntries := by
  simp [proofSize, proofEntries, Nat.mul_comm]

theorem size_add_four {inp : TxInput} (hhash : inp.prevTxHash.length = 32) :
    inp.size + 4 = inp.encoding.length + 2 * inp.proofEntries := by
  rw [length_encoding hhash, size, proofSize_eq]
  omega

theorem sum_size_add_four {inputs : List TxInput} (h : ∀ i ∈ inputs, i.prevTxHash.length = 32) :
    (inputs.map size).sum + 4 * inputs.length =
      (inputs.map fun i => i.encoding.length).sum + 2 * (inputs.map proofEntries).sum := by
  induction inputs with
  | nil => rfl
  | cons i inputs ih =>
    have hhead := size_add_four (h i List.mem_cons_self)
    have htail := ih fun j hj => h j (List.mem_cons_of_mem _ hj)
    simp only [List.map_cons, List.sum_cons, List.length_cons]
    omega

end TxInput

theorem TxOutput.length_preimage {out : TxOutput} (ha : out.address.length = 64) :
    out.preimage.length = out.size := by
  simp only [preimage, word, List.length_append, length_bigEndian, ha, size]
  omega

namespace Transaction

variable {tx : Transaction}

/-- The fields of fixed width have it. -/
structure FixedWidth (tx : Transaction) : Prop where
  prevTxHash : ∀ i ∈ tx.inputs, i.prevTxHash.length = 32
  address : ∀ o ∈ tx.outputs, o.address.length = 64
  nonce : tx.nonce.length = 8

def proofEntries (tx : Transaction) : ℕ := (tx.inputs.map TxInput.proofEntries).sum

theorem length_of_toBytes {data : Bytes} (h : tx.toBytes = .ok data) :
    data.length = 28 + tx.nonce.length + (tx.inputs.map fun i => i.encoding.length).sum +
      (tx.outputs.map fun o => o.preimage.length).sum := by
  simp only [toBytes, Except.bind_eq_ok, structPack_eq_ok,
    Except.mapM_eq_ok_iff TxInput.toBytes_eq_ok, Except.mapM_eq_ok_iff TxOutput.toBytes_eq_ok] at h
  obtain ⟨version, hversion, txType, htype, inputCount, hinputs, _, ⟨-, rfl⟩, outputCount,
    houtputs, _, ⟨-, rfl⟩, _, ⟨-, rfl⟩, _, ⟨-, rfl⟩, _, ⟨-, rfl⟩, hdata⟩ := h
  obtain rfl := Except.ok.inj hdata
  simp only [List.length_flatten, List.map_append, List.map_cons, List.map_nil, List.map_map,
    List.sum_append, List.sum_cons, List.sum_nil, length_of_byteOf hversion,
    length_of_byteOf htype, length_of_byteOf hinputs, length_of_byteOf houtputs, length_bigEndian,
    Function.comp_def]
  omega

/-- Four bytes of each input are missed, and two are counted for an entry of a proof. -/
theorem size_add_inputs {data : Bytes} (hw : tx.FixedWidth) (h : tx.toBytes = .ok data) :
    tx.size + 4 * tx.inputs.length = data.length + 2 * tx.proofEntries := by
  have hins := TxInput.sum_size_add_four hw.prevTxHash
  have houts : (tx.outputs.map TxOutput.size).sum =
      (tx.outputs.map fun o => o.preimage.length).sum :=
    congrArg List.sum (List.map_congr_left fun o ho => (TxOutput.length_preimage
      (hw.address o ho)).symm)
  rw [length_of_toBytes h, hw.nonce, size, houts, proofEntries]
  omega

/-- The size is the length of the bytes, with a sibling and a direction for each entry of a proof,
exactly when nothing is spent. -/
theorem size_eq_length_iff (tx : Transaction) (hw : tx.FixedWidth) :
    (∃ data, tx.toBytes = .ok data ∧ tx.size = data.length + 33 * tx.proofEntries) ↔
      tx.Encodable ∧ tx.inputs = [] := by
  rw [← tx.toBytes_returns_iff]
  constructor
  · rintro ⟨data, hdata, hsize⟩
    have hadd := size_add_inputs hw hdata
    exact ⟨⟨data, hdata⟩, List.length_eq_zero_iff.mp (by omega)⟩
  · rintro ⟨⟨data, hdata⟩, hnone⟩
    have hadd := size_add_inputs hw hdata
    have hentries : tx.proofEntries = 0 := by simp [proofEntries, hnone]
    rw [hnone, hentries, List.length_nil] at hadd
    exact ⟨data, hdata, by omega⟩

theorem size_eq_length_of_coinbase :
    let tx : Transaction :=
      { version := 1, txType := .coinbase, inputs := [], epoch := 4, timestamp := 1000, fee := 0
        outputs := [{ value := 5000, address := List.replicate 64 1 }]
        nonce := List.replicate 8 0 }
    ∃ data, tx.toBytes = .ok data ∧ tx.size = data.length + 33 * tx.proofEntries :=
  (size_eq_length_iff _ ⟨by simp, by simp, rfl⟩).mpr ⟨by decide, rfl⟩

/-- A transfer with one input and no proof is four bytes longer than its size. -/
theorem size_ne_length_of_input :
    let tx : Transaction :=
      { version := 1, txType := .transfer, epoch := 4, timestamp := 1000, fee := 300
        inputs := [{ prevTxHash := List.replicate 32 9, outputIndex := 0, signature := [1, 2],
                     publicKey := [3] }]
        outputs := [{ value := 5000, address := List.replicate 64 1 }]
        nonce := List.replicate 8 0 }
    tx.FixedWidth ∧ ∃ data, tx.toBytes = .ok data ∧ tx.size = 161 ∧ data.length = 165 ∧
      tx.size ≠ data.length + 33 * tx.proofEntries := by
  intro tx
  have hw : tx.FixedWidth := ⟨by simp [tx], by simp [tx], rfl⟩
  obtain ⟨data, hdata⟩ := tx.toBytes_returns_iff.mpr (by decide)
  have hadd := size_add_inputs hw hdata
  have hsize : tx.size = 161 := by decide
  have hinputs : tx.inputs.length = 1 := rfl
  have hentries : tx.proofEntries = 0 := rfl
  exact ⟨hw, data, hdata, hsize, by omega, by omega⟩

end Transaction

end Qrtb
