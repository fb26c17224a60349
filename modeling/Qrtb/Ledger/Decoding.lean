import Qrtb.Ledger.Encoding
import Qrtb.Ledger.Preimage
import Qrtb.Lib.Codec

/-!
# Reading inputs and outputs back (`src/transaction.py`)

The readers cut fixed offsets out of a longer string and return the offset behind what
they read. An output is read as it was written. An input is not: it is written through
`concat`, which gives the index eight bytes, and read with four, so that the reader takes
the lower half of the index for the length of the signature.
-/

namespace Qrtb

open Bytes

def TxInput.fromBytes (data : Bytes) (offset : ℕ) : Except PyError (TxInput × ℕ) := do
  let prevTxHash := data.slice offset (offset + 32)
  let outputIndex ← structUnpack 4 (data.slice (offset + 32) (offset + 36))
  let sigLen ← structUnpack 2 (data.slice (offset + 36) (offset + 38))
  let signature := data.slice (offset + 38) (offset + 38 + sigLen)
  let pkOffset := offset + 38 + sigLen
  let pkLen ← structUnpack 2 (data.slice pkOffset (pkOffset + 2))
  let publicKey := data.slice (pkOffset + 2) (pkOffset + 2 + pkLen)
  return ({ prevTxHash, outputIndex, signature, publicKey }, pkOffset + 2 + pkLen)

def TxOutput.fromBytes (data : Bytes) (offset : ℕ) : Except PyError (TxOutput × ℕ) := do
  let value ← structUnpack 8 (data.slice offset (offset + 8))
  let address := data.slice (offset + 8) (offset + 72)
  let lockEpoch ← structUnpack 8 (data.slice (offset + 72) (offset + 80))
  let dataLen ← structUnpack 2 (data.slice (offset + 80) (offset + 82))
  let payload := data.slice (offset + 82) (offset + 82 + dataLen)
  return ({ value, address, lockEpoch, data := payload }, offset + 82 + dataLen)

namespace TxOutput

theorem undoes_preimage {out : TxOutput} (hf : out.Fits) (ha : out.address.length = 64) :
    Codec.Undoes fromBytes out.preimage out := by
  intro before after
  obtain ⟨⟨hv0, hv⟩, ⟨hl0, hl⟩, hd⟩ := hf
  obtain ⟨parts, hparts⟩ : ∃ parts, parts = [before, word out.value, out.address,
    word out.lockEpoch, bigEndian 2 out.data.length, out.data, after] := ⟨_, rfl⟩
  have hdata : before ++ out.preimage ++ after = parts.flatten := by
    simp [hparts, preimage]
  have hword : ∀ n : ℤ, (word n).length = 8 := fun n => by simp [word]
  have hend : before.length + out.preimage.length = before.length + 82 + out.data.length := by
    simp only [preimage, List.length_append, hword, ha, length_bigEndian]
    omega
  rw [hdata, hend, fromBytes]
  rw [slice_flatten parts 1 before.length (before.length + 8) (by rw [hparts]; rfl)
      (by simp [hparts]) (by simp [hword]),
    slice_flatten parts 3 (before.length + 72) (before.length + 80) (by rw [hparts]; rfl)
      (by simp [hparts, hword, ha]) (by simp [hword]),
    slice_flatten parts 4 (before.length + 80) (before.length + 82) (by rw [hparts]; rfl)
      (by simp [hparts, hword, ha]) (by simp)]
  simp only [word, @structUnpack_bigEndian 8 out.value.toNat (by omega),
    @structUnpack_bigEndian 8 out.lockEpoch.toNat (by omega),
    structUnpack_bigEndian hd, bind, Except.bind, pure, Except.pure]
  rw [slice_flatten parts 2 (before.length + 8) (before.length + 72) (by rw [hparts]; rfl)
      (by simp [hparts, hword]) (by simp [ha]),
    slice_flatten parts 5 (before.length + 82) (before.length + 82 + out.data.length)
      (by rw [hparts]; rfl) (by simp [hparts, hword, ha]) rfl]
  rw [Int.toNat_of_nonneg hv0, Int.toNat_of_nonneg hl0]

/-- Outputs survive serialization, one by one and as the list of a transaction. -/
theorem fromBytes_toBytes (outs : List TxOutput)
    (hout : ∀ o ∈ outs, o.Fits ∧ o.address.length = 64) :
    (∀ o ∈ outs, ∃ data, o.toBytes = .ok data ∧ ∀ before after,
      fromBytes (before ++ data ++ after) before.length =
        .ok (o, before.length + data.length)) ∧
    ∃ parts, outs.mapM toBytes = .ok parts ∧ ∀ before after,
      Codec.readMany fromBytes (before ++ parts.flatten ++ after) outs.length before.length =
        .ok (outs, before.length + parts.flatten.length) := by
  constructor
  · intro o ho
    obtain ⟨hf, ha⟩ := hout o ho
    exact ⟨o.preimage, (o.toBytes_eq_ok _).mpr ⟨hf, rfl⟩, undoes_preimage hf ha⟩
  · refine ⟨outs.map preimage, Except.mapM_eq_ok_map fun o ho => ?_, ?_⟩
    · exact (o.toBytes_eq_ok _).mpr ⟨(hout o ho).1, rfl⟩
    · apply Codec.readMany_of_undoes
      rw [List.forall₂_map_left_iff, List.forall₂_same]
      exact fun o ho => undoes_preimage (hout o ho).1 (hout o ho).2

theorem fromBytes_toBytes_two :
    let outs : List TxOutput :=
      [{ value := 5000, address := List.replicate 64 1, lockEpoch := 3, data := [7, 8, 9] },
        { value := 600, address := List.replicate 64 2 }]
    ∃ parts, outs.mapM toBytes = .ok parts ∧
      Codec.readMany fromBytes ([255] ++ parts.flatten ++ [0]) 2 1 =
        .ok (outs, 1 + parts.flatten.length) := by
  intro outs
  obtain ⟨-, parts, hparts, hread⟩ := fromBytes_toBytes outs fun o ho => by
    obtain rfl | rfl : o = _ ∨ o = _ := by simpa [outs] using ho
    · exact ⟨⟨⟨by decide, by decide⟩, ⟨by decide, by decide⟩, by decide⟩, by decide⟩
    · exact ⟨⟨⟨by decide, by decide⟩, ⟨by decide, by decide⟩, by decide⟩, by decide⟩
  exact ⟨parts, hparts, hread [255] [0]⟩

end TxOutput

namespace TxInput

/-- Every number of an input that is written fits its width. -/
structure Fits (inp : TxInput) : Prop where
  outputIndex : FitsWord inp.outputIndex
  signatureLength : inp.signature.length < 256 ^ 2
  publicKeyLength : inp.publicKey.length < 256 ^ 2

def encoding (inp : TxInput) : Bytes :=
  inp.prevTxHash ++ (word inp.outputIndex ++ (bigEndian 2 inp.signature.length ++
    (inp.signature ++ (bigEndian 2 inp.publicKey.length ++ inp.publicKey))))

theorem toBytes_eq_ok (inp : TxInput) (data : Bytes) :
    inp.toBytes = .ok data ↔ inp.Fits ∧ data = inp.encoding := by
  have hform : ∀ {data}, inp.toBytes = .ok data → data = inp.encoding := by
    intro data h
    simp only [toBytes, intToBytes, Except.bind_eq_ok, concat_bytes_cons_eq_ok,
      concat_int_cons_eq_ok, concat_nil, Except.ok.injEq] at h
    split_ifs at h <;> simp_all [encoding, word]
  constructor
  · intro h
    obtain ⟨hi, hs, hk⟩ := inp.toBytes_returns.mp ⟨data, h⟩
    exact ⟨⟨hi, hs, hk⟩, hform h⟩
  · rintro ⟨hfits, rfl⟩
    obtain ⟨data, hdata⟩ := inp.toBytes_returns.mpr
      ⟨hfits.outputIndex, hfits.signatureLength, hfits.publicKeyLength⟩
    rw [hdata, hform hdata]

theorem fromBytes_of_four (before hash : Bytes) (index : ℕ) (signature publicKey after : Bytes)
    (hhash : hash.length = 32) (hindex : index < 256 ^ 4) (hs : signature.length < 256 ^ 2)
    (hk : publicKey.length < 256 ^ 2) :
    fromBytes ([before, hash, bigEndian 4 index, bigEndian 2 signature.length, signature,
      bigEndian 2 publicKey.length, publicKey, after].flatten) before.length =
      .ok ({ prevTxHash := hash, outputIndex := index, signature, publicKey },
        before.length + 38 + signature.length + 2 + publicKey.length) := by
  obtain ⟨parts, hparts⟩ : ∃ parts, parts = [before, hash, bigEndian 4 index,
    bigEndian 2 signature.length, signature, bigEndian 2 publicKey.length, publicKey, after] :=
      ⟨_, rfl⟩
  rw [← hparts, fromBytes]
  rw [slice_flatten parts 1 before.length (before.length + 32) (by rw [hparts]; rfl)
      (by simp [hparts]) (by simp [hhash]),
    slice_flatten parts 2 (before.length + 32) (before.length + 36) (by rw [hparts]; rfl)
      (by simp [hparts, hhash]) (by simp),
    slice_flatten parts 3 (before.length + 36) (before.length + 38) (by rw [hparts]; rfl)
      (by simp [hparts, hhash]) (by simp)]
  simp only [structUnpack_bigEndian hindex, structUnpack_bigEndian hs, bind, Except.bind]
  rw [slice_flatten parts 5 (before.length + 38 + signature.length)
      (before.length + 38 + signature.length + 2) (by rw [hparts]; rfl)
      (by simp [hparts, hhash]; omega) (by simp),
    slice_flatten parts 4 (before.length + 38) (before.length + 38 + signature.length)
      (by rw [hparts]; rfl) (by simp [hparts, hhash]) rfl]
  simp only [structUnpack_bigEndian hk, pure, Except.pure]
  rw [slice_flatten parts 6 (before.length + 38 + signature.length + 2)
      (before.length + 38 + signature.length + 2 + publicKey.length) (by rw [hparts]; rfl)
      (by simp [hparts, hhash]; omega) rfl]

/-- The upper half of the index, which is zero, is all that is read of it. -/
theorem outputIndex_of_fromBytes {inp inp' : TxInput} (hhash : inp.prevTxHash.length = 32)
    (hindex : inp.outputIndex.toNat < 256 ^ 4) {before after : Bytes} {stop : ℕ}
    (h : fromBytes (before ++ inp.encoding ++ after) before.length = .ok (inp', stop)) :
    inp'.outputIndex = 0 := by
  have hslice : Bytes.slice (before ++ inp.encoding ++ after) (before.length + 32)
      (before.length + 36) = bigEndian 4 0 := by
    have hparts : before ++ inp.encoding ++ after = [before, inp.prevTxHash, bigEndian 4 0,
        bigEndian 4 inp.outputIndex.toNat ++ (bigEndian 2 inp.signature.length ++
          (inp.signature ++ (bigEndian 2 inp.publicKey.length ++ inp.publicKey))),
        after].flatten := by
      have hword : word inp.outputIndex = bigEndian 4 0 ++ bigEndian 4 inp.outputIndex.toNat := by
        rw [word, bigEndian_add 4 4, Nat.div_eq_of_lt hindex]
      simp [encoding, hword]
    rw [hparts]
    exact slice_flatten _ 2 _ _ rfl (by simp [hhash]) (by simp)
  simp only [fromBytes, Except.bind_eq_ok, hslice] at h
  obtain ⟨index, hread, _, -, _, -, heq⟩ := h
  obtain rfl : 0 = index := Except.ok.inj hread
  rw [← (Prod.mk.inj (Except.ok.inj heq)).1]
  rfl

/-- No input is read back: the reader stops four bytes early at the latest. -/
theorem fromBytes_toBytes_ne (inp : TxInput) (hhash : inp.prevTxHash.length = 32)
    (hindex : 0 ≤ inp.outputIndex ∧ inp.outputIndex < 2 ^ 32)
    (hs : inp.signature.length < 2 ^ 16) (hk : inp.publicKey.length < 2 ^ 16) :
    ∃ data, inp.toBytes = .ok data ∧ ∀ before after,
      fromBytes (before ++ data ++ after) before.length ≠
        .ok (inp, before.length + data.length) := by
  have hfits : inp.Fits := ⟨⟨hindex.1, by have := hindex.2; omega⟩, by omega, by omega⟩
  refine ⟨inp.encoding, (inp.toBytes_eq_ok _).mpr ⟨hfits, rfl⟩, fun before after h => ?_⟩
  have hzero : inp.outputIndex = 0 := outputIndex_of_fromBytes hhash (by omega) h
  have hword : word inp.outputIndex = bigEndian 4 0 ++ (bigEndian 2 0 ++ bigEndian 2 0) := by
    rw [hzero]
    rfl
  -- the lower half of the index is taken for two empty strings
  have hread := fromBytes_of_four before inp.prevTxHash 0 [] []
    (bigEndian 2 inp.signature.length ++ (inp.signature ++
      (bigEndian 2 inp.publicKey.length ++ inp.publicKey)) ++ after)
    hhash (by decide) (by decide) (by decide)
  have hdata : before ++ inp.encoding ++ after = [before, inp.prevTxHash, bigEndian 4 0,
      bigEndian 2 ([] : Bytes).length, [], bigEndian 2 ([] : Bytes).length, [],
      bigEndian 2 inp.signature.length ++ (inp.signature ++
        (bigEndian 2 inp.publicKey.length ++ inp.publicKey)) ++ after].flatten := by
    simp [encoding, hword]
  rw [hdata, hread] at h
  have hstop := (Prod.mk.inj (Except.ok.inj h)).2
  simp only [encoding, hword, List.length_append, length_bigEndian, hhash,
    List.length_nil] at hstop
  omega

theorem fromBytes_toBytes_ne_empty :
    ∃ data, TxInput.toBytes
        { prevTxHash := List.replicate 32 7, outputIndex := 0, signature := [],
          publicKey := [] } = .ok data ∧
      ∀ before after, fromBytes (before ++ data ++ after) before.length ≠
        .ok ({ prevTxHash := List.replicate 32 7, outputIndex := 0, signature := [],
               publicKey := [] }, before.length + data.length) :=
  fromBytes_toBytes_ne _ (by decide) ⟨by decide, by decide⟩ (by decide) (by decide)

/-- The last byte of the index becomes the length of the key. -/
theorem fromBytes_toBytes_shifted :
    ∃ data, TxInput.toBytes
        { prevTxHash := List.replicate 32 7, outputIndex := 1, signature := [1, 2, 3],
          publicKey := [4, 5] } = .ok data ∧ data.length = 49 ∧
      fromBytes data 0 =
        .ok ({ prevTxHash := List.replicate 32 7, outputIndex := 0, signature := [],
               publicKey := [0] }, 41) ∧
      fromBytes data 0 ≠
        .ok ({ prevTxHash := List.replicate 32 7, outputIndex := 1, signature := [1, 2, 3],
               publicKey := [4, 5] }, data.length) := by
  have hread := fromBytes_of_four [] (List.replicate 32 7) 0 [] [0] [3, 1, 2, 3, 0, 2, 4, 5]
    (by decide) (by decide) (by decide) (by decide)
  refine ⟨_, rfl, rfl, hread, fun h => ?_⟩
  have hstop := (Prod.mk.inj (Except.ok.inj (hread.symm.trans h))).2
  revert hstop
  decide

end TxInput

end Qrtb
