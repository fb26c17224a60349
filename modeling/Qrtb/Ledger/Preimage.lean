import Qrtb.Ledger.Transaction

/-!
# What the signing hash determines (`src/transaction.py`)

The bytes under the hash join the fields without separators. Counts, integers
and data lengths have fixed widths; previous hashes and addresses are joined
as they are. They are meant to have 32 and 64 bytes, and no check looks at
their lengths. The bytes determine the fields exactly as far as these lengths
agree.
-/

namespace Qrtb

open Bytes

/-- The integer fits the eight bytes it is packed with. -/
def FitsWord (n : ℤ) : Prop := 0 ≤ n ∧ n < 256 ^ 8

theorem FitsWord.of_lt {n : ℕ} (h : n < 256 ^ 8) : FitsWord n := ⟨by omega, by exact_mod_cast h⟩

def word (n : ℤ) : Bytes := bigEndian 8 n.toNat

@[simp] theorem length_word (n : ℤ) : (word n).length = 8 := length_bigEndian 8 _

theorem aligned_word (m n : ℤ) : Aligned (word m) (word n) := .of_length (by simp)

theorem word_inj {m n : ℤ} (hm : FitsWord m) (hn : FitsWord n) (h : word m = word n) : m = n := by
  obtain ⟨hm0, hm⟩ := hm
  obtain ⟨hn0, hn⟩ := hn
  have heq := bigEndian_inj (m := m.toNat) (n := n.toNat) (by omega) (by omega) h
  omega

theorem TxType.value_fits (t : TxType) : FitsWord t.value := by
  cases t <;> constructor <;> decide

theorem TxType.value_inj {t t' : TxType} (h : t.value = t'.value) : t = t' := by
  cases t <;> cases t' <;> simp [value] at h ⊢

namespace TxInput

def preimage (inp : TxInput) : Bytes := inp.prevTxHash ++ word inp.outputIndex

theorem preimage_eq_ok (inp : TxInput) (data : Bytes) :
    concat [.bytes inp.prevTxHash, .int inp.outputIndex] = .ok data ↔
      FitsWord inp.outputIndex ∧ data = inp.preimage := by
  rw [concat_bytes_cons_eq_ok]
  simp only [concat_int_cons_eq_ok, concat_nil, Except.ok.injEq, exists_eq_left', List.append_nil]
  constructor
  · rintro ⟨_, ⟨hfits, rfl⟩, rfl⟩
    exact ⟨hfits, rfl⟩
  · rintro ⟨hfits, rfl⟩
    exact ⟨_, ⟨hfits, rfl⟩, rfl⟩

theorem preimage_aligned {inp inp' : TxInput}
    (h : inp.prevTxHash.length = inp'.prevTxHash.length) : Aligned inp.preimage inp'.preimage :=
  .append (.of_length h) fun _ => aligned_word _ _

theorem preimage_inj {inp inp' : TxInput} (hi : FitsWord inp.outputIndex)
    (hi' : FitsWord inp'.outputIndex) (hlen : inp.prevTxHash.length = inp'.prevTxHash.length)
    (h : inp.preimage = inp'.preimage) : inp.ref = inp'.ref := by
  obtain ⟨hhash, hindex⟩ := List.append_inj h hlen
  rw [ref, ref, hhash, word_inj hi hi' hindex]

end TxInput

namespace TxOutput

/-- Every integer of an output, and the length of its data, fits its width. -/
structure Fits (out : TxOutput) : Prop where
  value : FitsWord out.value
  lockEpoch : FitsWord out.lockEpoch
  dataLength : out.data.length < 256 ^ 2

def preimage (out : TxOutput) : Bytes :=
  word out.value ++ (out.address ++ (word out.lockEpoch ++
    (bigEndian 2 out.data.length ++ out.data)))

theorem toBytes_eq_ok (out : TxOutput) (data : Bytes) :
    out.toBytes = .ok data ↔ out.Fits ∧ data = out.preimage := by
  have hform : ∀ {data}, out.toBytes = .ok data → data = out.preimage := by
    intro data h
    simp only [toBytes, Except.bind_eq_ok, structPack_eq_ok, concat_bytes_cons_eq_ok, concat_nil,
      Except.ok.injEq] at h
    obtain ⟨_, ⟨-, rfl⟩, _, ⟨-, rfl⟩, _, ⟨-, rfl⟩, h⟩ := h
    obtain ⟨_, ⟨_, ⟨_, ⟨_, ⟨_, rfl, rfl⟩, rfl⟩, rfl⟩, rfl⟩, rfl⟩ := h
    simp [preimage, word]
  have hreturns := Transaction.toBytes_returns out
  constructor
  · intro h
    obtain ⟨hv, hl, hd⟩ := hreturns.mp ⟨data, h⟩
    exact ⟨⟨hv, hl, hd⟩, hform h⟩
  · rintro ⟨hfits, rfl⟩
    obtain ⟨data, hdata⟩ := hreturns.mpr ⟨hfits.value, hfits.lockEpoch, hfits.dataLength⟩
    rw [hdata, hform hdata]

/-- The data ends where its length says, once the lengths are known to be equal. -/
theorem preimage_aligned {out out' : TxOutput} (hf : out.Fits) (hf' : out'.Fits)
    (h : out.address.length = out'.address.length) : Aligned out.preimage out'.preimage := by
  have hdata : Aligned (bigEndian 2 out.data.length ++ out.data)
      (bigEndian 2 out'.data.length ++ out'.data) :=
    .append (.of_length (by simp)) fun hlen =>
      .of_length (bigEndian_inj hf.dataLength hf'.dataLength hlen)
  exact .append (aligned_word _ _) fun _ => .append (.of_length h) fun _ =>
    .append (aligned_word _ _) fun _ => hdata

theorem preimage_inj {out out' : TxOutput} (hf : out.Fits) (hf' : out'.Fits)
    (hlen : out.address.length = out'.address.length) (h : out.preimage = out'.preimage) :
    out = out' := by
  obtain ⟨hvalue, h⟩ := List.append_inj h (by simp)
  obtain ⟨haddress, h⟩ := List.append_inj h hlen
  obtain ⟨hlock, h⟩ := List.append_inj h (by simp)
  obtain ⟨-, hdata⟩ := List.append_inj h (by simp)
  have hv := word_inj hf.value hf'.value hvalue
  have hl := word_inj hf.lockEpoch hf'.lockEpoch hlock
  cases out
  cases out'
  simp_all

end TxOutput

namespace Transaction

def preimage (tx : Transaction) : Bytes :=
  word tx.version ++ (word tx.txType.value ++ (word tx.inputs.length ++
    ((tx.inputs.map TxInput.preimage).flatten ++ (word tx.outputs.length ++
      ((tx.outputs.map TxOutput.preimage).flatten ++ (word tx.epoch ++ (word tx.timestamp ++
        (word tx.fee ++ tx.nonce))))))))

theorem hashData_eq_ok (tx : Transaction) (data : Bytes) :
    tx.hashData = .ok data ↔ tx.Packable ∧ data = tx.preimage := by
  have hform : ∀ {data}, tx.hashData = .ok data → data = tx.preimage := by
    intro data h
    simp only [hashData, Except.bind_eq_ok] at h
    obtain ⟨ins, hins, outs, houts, h⟩ := h
    obtain ⟨-, rfl⟩ := (Except.mapM_eq_ok_iff TxInput.preimage_eq_ok).mp hins
    obtain ⟨-, rfl⟩ := (Except.mapM_eq_ok_iff TxOutput.toBytes_eq_ok).mp houts
    simp only [List.append_assoc, List.cons_append, List.nil_append, concat_int_cons_eq_ok,
      concat_map_bytes_append_eq_ok, concat_bytes_cons_eq_ok, concat_nil, Except.ok.injEq] at h
    obtain ⟨-, _, ⟨-, _, ⟨-, _, ⟨_, ⟨-, _, ⟨_, ⟨-, _, ⟨-, _, ⟨-, _, ⟨_, rfl, rfl⟩, rfl⟩, rfl⟩, rfl⟩,
      rfl⟩, rfl⟩, rfl⟩, rfl⟩, rfl⟩, rfl⟩ := h
    simp [preimage, word]
  constructor
  · intro h
    exact ⟨tx.hashData_returns.mp ⟨data, h⟩, hform h⟩
  · rintro ⟨hpack, rfl⟩
    obtain ⟨data, hdata⟩ := tx.hashData_returns.mpr hpack
    rw [hdata, hform hdata]

theorem Packable.fits {tx : Transaction} (h : tx.Packable) {out : TxOutput}
    (ho : out ∈ tx.outputs) : out.Fits :=
  ⟨h.value out ho, h.lockEpoch out ho, h.dataLength out ho⟩

/-- Every field under the hash is the same. -/
structure SameContent (tx tx' : Transaction) : Prop where
  version : tx.version = tx'.version
  txType : tx.txType = tx'.txType
  refs : tx.refs = tx'.refs
  outputs : tx.outputs = tx'.outputs
  epoch : tx.epoch = tx'.epoch
  timestamp : tx.timestamp = tx'.timestamp
  fee : tx.fee = tx'.fee
  nonce : tx.nonce = tx'.nonce

/-- The previous hashes, and the addresses, are pairwise of one length. -/
structure SameWidths (tx tx' : Transaction) : Prop where
  prevTxHash : (tx.inputs.map fun i => i.prevTxHash.length) =
    tx'.inputs.map fun i => i.prevTxHash.length
  address : (tx.outputs.map fun o => o.address.length) =
    tx'.outputs.map fun o => o.address.length

theorem SameContent.sameWidths {tx tx' : Transaction} (h : tx.SameContent tx') :
    tx.SameWidths tx' where
  prevTxHash := by
    have hrefs := congrArg (List.map fun ref : OutRef => ref.1.length) h.refs
    rwa [Transaction.refs, Transaction.refs, List.map_map, List.map_map] at hrefs
  address := by rw [h.outputs]

/-- The fields are read off the bytes one after the other. The free lengths need to agree only
where the counts do. -/
theorem preimage_inj {tx tx' : Transaction} (hp : tx.Packable) (hp' : tx'.Packable)
    (hin : tx.inputs.length = tx'.inputs.length →
      (tx.inputs.map fun i => i.prevTxHash.length) = tx'.inputs.map fun i => i.prevTxHash.length)
    (hout : tx.outputs.length = tx'.outputs.length →
      (tx.outputs.map fun o => o.address.length) = tx'.outputs.map fun o => o.address.length)
    (h : tx.preimage = tx'.preimage) : tx.SameContent tx' := by
  have hinputs : ∀ hw : (tx.inputs.map fun i => i.prevTxHash.length) =
      tx'.inputs.map fun i => i.prevTxHash.length,
      List.Forall₂ (fun i i' : TxInput => Aligned i.preimage i'.preimage ∧
        (i.preimage = i'.preimage → i.ref = i'.ref)) tx.inputs tx'.inputs := by
    intro hw
    refine (forall₂_of_map_eq hp.outputIndex hp'.outputIndex hw).imp ?_
    rintro i i' ⟨hi, hi', hlen⟩
    exact ⟨TxInput.preimage_aligned hlen, TxInput.preimage_inj hi hi' hlen⟩
  have houtputs : ∀ hw : (tx.outputs.map fun o => o.address.length) =
      tx'.outputs.map fun o => o.address.length,
      List.Forall₂ (fun o o' : TxOutput => Aligned o.preimage o'.preimage ∧
        (o.preimage = o'.preimage → id o = id o')) tx.outputs tx'.outputs := by
    intro hw
    refine (forall₂_of_map_eq (fun _ => hp.fits) (fun _ => hp'.fits) hw).imp ?_
    rintro o o' ⟨ho, ho', hlen⟩
    exact ⟨TxOutput.preimage_aligned ho ho' hlen, TxOutput.preimage_inj ho ho' hlen⟩
  obtain ⟨hversion, h⟩ := aligned_word _ _ _ _ h
  obtain ⟨htype, h⟩ := aligned_word _ _ _ _ h
  obtain ⟨hcount, h⟩ := aligned_word _ _ _ _ h
  have hcount := word_inj (.of_lt hp.inputCount) (.of_lt hp'.inputCount) hcount
  obtain ⟨hrefs, h⟩ := Aligned.flatten_map (hinputs (hin (by exact_mod_cast hcount))) h
  obtain ⟨hcount, h⟩ := aligned_word _ _ _ _ h
  have hcount := word_inj (.of_lt hp.outputCount) (.of_lt hp'.outputCount) hcount
  obtain ⟨houts, h⟩ := Aligned.flatten_map (houtputs (hout (by exact_mod_cast hcount))) h
  obtain ⟨hepoch, h⟩ := aligned_word _ _ _ _ h
  obtain ⟨htimestamp, h⟩ := aligned_word _ _ _ _ h
  obtain ⟨hfee, hnonce⟩ := aligned_word _ _ _ _ h
  exact
    { version := word_inj hp.version hp'.version hversion
      txType := TxType.value_inj (word_inj tx.txType.value_fits tx'.txType.value_fits htype)
      refs := hrefs
      outputs := by simpa using houts
      epoch := word_inj hp.epoch hp'.epoch hepoch
      timestamp := word_inj hp.timestamp hp'.timestamp htimestamp
      fee := word_inj hp.fee hp'.fee hfee
      nonce := hnonce }

/-- Previous hashes of 32 bytes and addresses of 64. -/
structure StandardWidths (tx : Transaction) : Prop where
  prevTxHash : ∀ i ∈ tx.inputs, i.prevTxHash.length = 32
  address : ∀ o ∈ tx.outputs, o.address.length = 64

/-- Between transactions of the meant widths the bytes determine the content. -/
theorem StandardWidths.sameContent {tx tx' : Transaction} {data : Bytes} (hw : tx.StandardWidths)
    (hw' : tx'.StandardWidths) (h : tx.hashData = .ok data) (h' : tx'.hashData = .ok data) :
    tx.SameContent tx' := by
  obtain ⟨hp, rfl⟩ := (hashData_eq_ok tx _).mp h
  obtain ⟨hp', heq⟩ := (hashData_eq_ok tx' _).mp h'
  refine preimage_inj hp hp' ?_ ?_ heq
  · intro hcount
    rw [List.map_congr_left hw.prevTxHash, List.map_congr_left hw'.prevTxHash, List.map_const',
      List.map_const', hcount]
  · intro hcount
    rw [List.map_congr_left hw.address, List.map_congr_left hw'.address, List.map_const',
      List.map_const', hcount]

/-- Equal bytes under the signature mean equal content exactly when the lengths that nothing
checks agree. -/
theorem signed_determines_iff {tx tx' : Transaction} {data : Bytes} (h : tx.hashData = .ok data)
    (h' : tx'.hashData = .ok data) : tx.SameContent tx' ↔ tx.SameWidths tx' := by
  obtain ⟨hp, rfl⟩ := (hashData_eq_ok tx _).mp h
  obtain ⟨hp', heq⟩ := (hashData_eq_ok tx' _).mp h'
  exact ⟨SameContent.sameWidths, fun hw => preimage_inj hp hp' (fun _ => hw.prevTxHash)
    (fun _ => hw.address) heq⟩

/-- A transfer of one output, with the address, lock and data left open. -/
def paying (address : Bytes) (lockEpoch : ℤ) (payload signature : Bytes) : Transaction :=
  { version := 1
    txType := .transfer
    inputs := [{ prevTxHash := List.replicate 32 0, outputIndex := 0,
                 signature := signature, publicKey := [] }]
    outputs := [{ value := 1000, address := address, lockEpoch := lockEpoch, data := payload }]
    epoch := 0
    timestamp := 0
    fee := 1000
    nonce := List.replicate 8 0 }

theorem signed_determines_copies : (paying (List.replicate 64 0) 0 [0, 0] []).SameContent
    (paying (List.replicate 64 0) 0 [0, 0] [1]) := by
  have h : (paying (List.replicate 64 0) 0 [0, 0] []).hashData = .ok _ :=
    (hashData_eq_ok _ _).mpr ⟨by decide, rfl⟩
  have h' : (paying (List.replicate 64 0) 0 [0, 0] [1]).hashData = .ok _ :=
    (hashData_eq_ok _ _).mpr ⟨by decide, rfl⟩
  exact (signed_determines_iff h h').mpr ⟨rfl, rfl⟩

/-- The end of the lock and the length of the data read as the end of a longer address and
another lock. -/
theorem signed_bytes_shift : ∃ tx tx' : Transaction, ∃ data,
    tx.isValidStructure = .ok () ∧ tx'.isValidStructure = .ok () ∧
      tx.hashData = .ok data ∧ tx'.hashData = .ok data ∧ ¬ tx.SameContent tx' := by
  refine ⟨paying (List.replicate 64 0) 0 [0, 0] [], paying (List.replicate 66 0) 2 [] [], _, rfl,
    rfl, (hashData_eq_ok _ _).mpr ⟨by decide, rfl⟩, ?_, ?_⟩
  · exact (hashData_eq_ok _ _).mpr ⟨by decide, by decide +kernel⟩
  · intro hsame
    exact absurd hsame.outputs (by decide)

end Transaction

end Qrtb
