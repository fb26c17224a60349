import Qrtb.Ledger.Applicability

/-!
# Signed transactions

The hash of a transaction does not read signatures, public keys or proofs, so
the inputs can be signed after the hash is known. Signing every input with the
key of one seed gives a transaction whose signatures all verify, whoever the
seed belongs to.
-/

namespace Qrtb

open Keccak

namespace Transaction

variable (tx : Transaction)

/-- Replace signature, key and proof of an input; the reference stays. -/
def signInput (seed signingHash : Bytes) (inp : TxInput) : TxInput :=
  { inp with
    signature := Wots.sign signingHash (Wots.keygen seed).1
    publicKey := (Wots.keygen seed).2 }

/-- Sign every input with the WOTS+ key of a seed. -/
def signedBy (seed : Bytes) : Transaction :=
  match tx.signingHash with
  | .error _ => tx
  | .ok h => { tx with inputs := tx.inputs.map (signInput seed h) }

theorem hashData_map_signInput (seed h : Bytes) :
    ({ tx with inputs := tx.inputs.map (signInput seed h) } : Transaction).hashData =
      tx.hashData := by
  simp only [hashData, List.mapM_map, List.length_map]
  rfl

theorem signedBy_eq (seed : Bytes) {h : Bytes} (hh : tx.signingHash = .ok h) :
    tx.signedBy seed = { tx with inputs := tx.inputs.map (signInput seed h) } := by
  simp [signedBy, hh]

theorem hashData_signedBy (seed : Bytes) : (tx.signedBy seed).hashData = tx.hashData := by
  unfold signedBy
  split
  · rfl
  · exact tx.hashData_map_signInput seed _

theorem signingHash_signedBy (seed : Bytes) : (tx.signedBy seed).signingHash = tx.signingHash := by
  rw [signingHash, hashData_signedBy]
  rfl

theorem txHash_signedBy (seed : Bytes) : (tx.signedBy seed).txHash = tx.txHash :=
  tx.signingHash_signedBy seed

theorem packable_signedBy (seed : Bytes) : (tx.signedBy seed).Packable ↔ tx.Packable := by
  rw [← txHash_returns, ← txHash_returns, txHash_signedBy]

theorem refs_signedBy (seed : Bytes) : (tx.signedBy seed).refs = tx.refs := by
  unfold signedBy
  split
  · rfl
  · simp only [refs, List.map_map]
    rfl

/-- The checks of `is_valid_structure`, read off a transaction whose inputs are still unsigned:
each signature and key will add 4288 bytes. -/
def ReadyToSign : Prop :=
  tx.Packable ∧ tx.version = TX_VERSION ∧ tx.inputs ≠ [] ∧ tx.inputs.length ≤ MAX_INPUTS ∧
    (∀ i ∈ tx.inputs, i.signature = [] ∧ i.publicKey = []) ∧
    tx.outputs ≠ [] ∧ tx.outputs.length ≤ MAX_OUTPUTS ∧
    (∀ o ∈ tx.outputs, DUST_THRESHOLD ≤ o.value ∨ o.value = 0) ∧
    tx.size + 4288 * tx.inputs.length ≤ MAX_TX_SIZE ∧
    ((tx.size + 4288 * tx.inputs.length : ℕ) : ℤ) * MIN_FEE_PER_BYTE ≤ tx.fee

instance : Decidable tx.ReadyToSign := by
  unfold ReadyToSign
  infer_instance

theorem size_signInput {inp : TxInput} (seed h : Bytes)
    (hinp : inp.signature = [] ∧ inp.publicKey = []) :
    (signInput seed h inp).size = inp.size + 4288 := by
  have hproof : (signInput seed h inp).proofSize = inp.proofSize := rfl
  simp only [TxInput.size, hproof, hinp.1, hinp.2, List.length_nil]
  simp only [signInput, Wots.length_sign, Wots.length_publicKey]
  omega

theorem sum_size_signInput (seed h : Bytes) {inputs : List TxInput}
    (hu : ∀ i ∈ inputs, i.signature = [] ∧ i.publicKey = []) :
    ((inputs.map (signInput seed h)).map TxInput.size).sum =
      (inputs.map TxInput.size).sum + 4288 * inputs.length := by
  induction inputs with
  | nil => simp
  | cons i is ih =>
    have hi := size_signInput seed h (hu i (by simp))
    have his := ih (fun j hj => hu j (by simp [hj]))
    simp only [List.map_cons, List.sum_cons, List.length_cons]
    omega

theorem size_signedBy (seed : Bytes) {h : Bytes} (hh : tx.signingHash = .ok h)
    (hu : ∀ i ∈ tx.inputs, i.signature = [] ∧ i.publicKey = []) :
    (tx.signedBy seed).size = tx.size + 4288 * tx.inputs.length := by
  have hsum := sum_size_signInput seed h hu
  rw [tx.signedBy_eq seed hh]
  simp only [size, hsum]
  omega

theorem ReadyToSign.size_signedBy {tx : Transaction} (h : tx.ReadyToSign) (seed : Bytes) :
    (tx.signedBy seed).size = tx.size + 4288 * tx.inputs.length := by
  obtain ⟨sh, hh⟩ := tx.txHash_returns.mpr h.1
  exact tx.size_signedBy seed hh h.2.2.2.2.1

theorem wellFormed_signedBy (seed : Bytes) (h : tx.ReadyToSign) : (tx.signedBy seed).WellFormed := by
  obtain ⟨hp, hv, hi, hmi, hu, ho, hmo, hd, hs, hf⟩ := h
  obtain ⟨sh, hh⟩ := tx.txHash_returns.mpr hp
  have hsize := tx.size_signedBy seed hh hu
  have heq := tx.signedBy_eq seed hh
  constructor
  · simpa [heq] using hv
  · intro _
    simpa [heq] using hi
  · simpa [heq] using hmi
  · simpa [heq] using ho
  · simpa [heq] using hmo
  · rw [hsize]
    exact hs
  · simpa [heq] using hd
  · intro _
    rw [hsize]
    simpa [heq] using hf

@[simp] theorem txType_signedBy (seed : Bytes) : (tx.signedBy seed).txType = tx.txType := by
  unfold signedBy
  split <;> rfl

@[simp] theorem outputs_signedBy (seed : Bytes) : (tx.signedBy seed).outputs = tx.outputs := by
  unfold signedBy
  split <;> rfl

@[simp] theorem epoch_signedBy (seed : Bytes) : (tx.signedBy seed).epoch = tx.epoch := by
  unfold signedBy
  split <;> rfl

@[simp] theorem fee_signedBy (seed : Bytes) : (tx.signedBy seed).fee = tx.fee := by
  unfold signedBy
  split <;> rfl

end Transaction

namespace Ledger

variable {L : Ledger} {tx : Transaction} {currentEpoch : ℤ}

theorem conserves_signedBy (seed : Bytes) :
    L.Conserves (tx.signedBy seed) ↔ L.Conserves tx := by
  have hsum : (tx.signedBy seed).inputs.map L.valueOf = tx.inputs.map L.valueOf := by
    have hrefs := congrArg (List.map L.utxoSet.valueAt) (tx.refs_signedBy seed)
    simp only [Transaction.refs, List.map_map] at hrefs
    exact hrefs
  simp [Conserves, Transaction.totalOutput, hsum]

theorem admissible_signedBy (seed : Bytes) (hr : tx.ReadyToSign) (hle : tx.epoch ≤ currentEpoch)
    (hge : currentEpoch - 1 ≤ tx.epoch) : Admissible (tx.signedBy seed) currentEpoch :=
  ⟨tx.wellFormed_signedBy seed hr, by simpa using hle, by simpa using hge⟩

theorem ownerProved_of_unregistered {address : Bytes} (inp : TxInput)
    (h : L.authRegistry.isRegistered address = false) : L.OwnerProved address inp := by
  intro hr
  rw [h] at hr
  cases hr

/-- A seed spends unlocked outputs whose registered owners have its key proved by the inputs; for
an owner that is not registered any seed does. -/
theorem validateTransfer_signedBy (seed : Bytes) (hp : tx.Packable)
    (hin : ∀ i ∈ tx.inputs, ∃ u, L.InputUnspent i u ∧ u.output.lockEpoch ≤ currentEpoch ∧
      L.OwnerProved u.output.address { i with publicKey := (Wots.keygen seed).2 })
    (hc : L.Conserves tx) : L.validateTransfer (tx.signedBy seed) currentEpoch = .ok () := by
  obtain ⟨h, hh⟩ := tx.txHash_returns.mpr hp
  rw [validateTransfer_eq_ok]
  refine ⟨h, (tx.signingHash_signedBy seed).trans hh, ?_, (conserves_signedBy seed).mpr hc⟩
  intro inp hinp
  rw [tx.signedBy_eq seed hh] at hinp
  obtain ⟨i, hi, rfl⟩ := List.mem_map.mp hinp
  obtain ⟨u, hu, hl, howner⟩ := hin i hi
  exact ⟨u, hu, hl, Wots.verify_sign h seed, howner⟩

theorem accepts_transfer_signedBy (seed : Bytes) (htype : tx.txType = .transfer)
    (hr : tx.ReadyToSign) (hle : tx.epoch ≤ currentEpoch) (hge : currentEpoch - 1 ≤ tx.epoch)
    (hin : ∀ i ∈ tx.inputs, ∃ u, L.InputUnspent i u ∧ u.output.lockEpoch ≤ currentEpoch ∧
      L.OwnerProved u.output.address { i with publicKey := (Wots.keygen seed).2 })
    (hc : L.Conserves tx) : L.Accepts (tx.signedBy seed) currentEpoch := by
  rw [accepts_iff]
  refine ⟨admissible_signedBy seed hr hle hge, ?_⟩
  rw [validateByType, Transaction.txType_signedBy, htype]
  exact validateTransfer_signedBy seed hr.1 hin hc

theorem applies_signedBy {seed : Bytes} (h : L.Accepts (tx.signedBy seed) currentEpoch)
    (hn : tx.refs.Nodup) (hp : tx.Packable) :
    (applyTransaction (tx.signedBy seed) L).1 = .ok true := by
  apply (applyTransaction_returns_true_iff h).mpr
  rw [tx.refs_signedBy, tx.packable_signedBy]
  exact ⟨hn, hp⟩

/-- Any key slashes a locked output: no condition ties the signer to the owner or to a
validator. -/
theorem accepts_slash_signedBy (seed : Bytes) (htype : tx.txType = .slash)
    (hr : tx.ReadyToSign) (hle : tx.epoch ≤ currentEpoch) (hge : currentEpoch - 1 ≤ tx.epoch)
    (hev : ∀ o ∈ tx.outputs, 32 ≤ o.data.length)
    (hin : ∀ i ∈ tx.inputs, ∃ u, L.InputUnspent i u ∧ u.output.lockEpoch ≠ 0) :
    L.Accepts (tx.signedBy seed) currentEpoch := by
  obtain ⟨h, hh⟩ := tx.txHash_returns.mpr hr.1
  have hwf := tx.wellFormed_signedBy seed hr
  have hbody : L.validateSlash (tx.signedBy seed) = .ok () := by
    rw [validateSlash_eq_ok]
    obtain ⟨out, outs, hout⟩ := List.exists_cons_of_ne_nil hwf.hasOutputs
    refine ⟨out, outs, h, hout, ?_, hwf.hasInputs (by simp [htype]),
      (tx.signingHash_signedBy seed).trans hh, ?_⟩
    · rw [Transaction.outputs_signedBy] at hout
      exact hev out (by simp [hout])
    · intro inp hinp
      rw [tx.signedBy_eq seed hh] at hinp
      obtain ⟨i, hi, rfl⟩ := List.mem_map.mp hinp
      obtain ⟨u, hu, hl⟩ := hin i hi
      exact ⟨Wots.verify_sign h seed, u, hu, hl⟩
  rw [accepts_iff]
  refine ⟨admissible_signedBy seed hr hle hge, ?_⟩
  rw [validateByType, Transaction.txType_signedBy, htype]
  exact hbody

/-- Whoever knows the inner hash of an unregistered address registers it, with any key. -/
theorem accepts_register_signedBy (seed : Bytes) (htype : tx.txType = .register)
    (hr : tx.ReadyToSign) (hle : tx.epoch ≤ currentEpoch) (hge : currentEpoch - 1 ≤ tx.epoch)
    {i : TxInput} {out : TxOutput} {u : Utxo} (hinputs : tx.inputs = [i])
    (hout : tx.outputs.head? = some out) (hdata : out.data.length = 96)
    (hu : L.InputUnspent i u) (howner : u.output.address = deriveAddress (out.data.take 64))
    (hlock : u.output.lockEpoch ≤ currentEpoch)
    (hfresh : L.authRegistry.isRegistered u.output.address = false)
    (hc : L.Conserves tx) : L.Accepts (tx.signedBy seed) currentEpoch := by
  obtain ⟨h, hh⟩ := tx.txHash_returns.mpr hr.1
  have hbody : L.validateRegister (tx.signedBy seed) currentEpoch = .ok () := by
    rw [validateRegister_eq_ok]
    refine ⟨Transaction.signInput seed h i, out, u, h, ?_, by simpa using hout, hdata, hu,
      howner, hlock, (tx.signingHash_signedBy seed).trans hh, Wots.verify_sign h seed,
      howner ▸ hfresh, (conserves_signedBy seed).mpr hc⟩
    simp [tx.signedBy_eq seed hh, hinputs]
  rw [accepts_iff]
  refine ⟨admissible_signedBy seed hr hle hge, ?_⟩
  rw [validateByType, Transaction.txType_signedBy, htype]
  exact hbody

end Ledger

end Qrtb
