import Qrtb.Wallet.Wallet

/-!
# The outputs a wallet keeps

Two operations reach the outputs of a wallet: one adds an output under its
reference, one marks an unspent output in place. So every output of a wallet stays
under its own reference, and no two of them are the same output.
-/

namespace Qrtb

open Stateful SeedSpace

/-- The reference that names the output. -/
def Utxo.ref (u : Utxo) : OutRef := (u.txHash, u.outputIndex)

@[simp] theorem Utxo.ref_markSpent (u : Utxo) (spendingTx : Bytes) :
    (u.markSpent spendingTx).ref = u.ref := rfl

namespace Wallet

variable {S : Type}

@[simp] theorem ref_unsignedInput (u : Utxo) : (unsignedInput u).ref = u.ref := rfl

/-- Every output is kept under its own reference. -/
def Keyed (w : Wallet S) : Prop := ∀ key u, w.utxos.get? key = some u → u.ref = key

theorem Keyed.set {w : Wallet S} (h : w.Keyed) (u : Utxo) :
    Keyed { w with utxos := w.utxos.set u.ref u } :=
  OrderedDict.forall_get?_set rfl h

theorem preserves_keyed_of_utxos {α : Type} {x : Stateful (Wallet S) α}
    (h : ∀ w, (x w).2.utxos = w.utxos) : Preserves Keyed x := by
  intro w hw
  rw [Keyed, h]
  exact hw

theorem preserves_keyed_onKeys {α : Type} (x : Stateful (KeyManager S) α) :
    Preserves Keyed (onKeys x) :=
  preserves_keyed_of_utxos fun _ => rfl

theorem preserves_keyed_addUtxo (txHash : Bytes) (outputIndex : ℤ) (output : TxOutput) (epoch : ℤ) :
    Preserves (Keyed (S := S)) (addUtxo txHash outputIndex output epoch) :=
  fun _ hw => hw.set { txHash, outputIndex, output, epochCreated := epoch }

theorem preserves_keyed_spendUtxo (txHash : Bytes) (outputIndex : ℤ) (spendingTx : Bytes) :
    Preserves (Keyed (S := S)) (spendUtxo txHash outputIndex spendingTx) := by
  intro w hw
  unfold spendUtxo
  cases hget : w.utxos.get? (txHash, outputIndex) with
  | none => exact hw
  | some utxo =>
    simp only
    split_ifs
    · exact hw
    · rw [← hw _ _ hget, ← Utxo.ref_markSpent utxo spendingTx]
      exact hw.set _

theorem preserves_keyed_submitTransaction (tx : Transaction) :
    Preserves (Keyed (S := S)) (submitTransaction tx) := by
  refine (preserves_ofExcept _).bind fun txHash => ?_
  refine Preserves.bind (preserves_keyed_of_utxos fun _ => rfl) fun _ => ?_
  exact (Preserves.forEach (fun inp => preserves_keyed_spendUtxo _ _ _) _).bind fun _ =>
    preserves_pure ()

theorem preserves_keyed_confirmTransaction (txHash : Bytes) :
    Preserves (Keyed (S := S)) (confirmTransaction txHash) := by
  refine (preserves_reads _).bind fun pending => ?_
  refine Preserves.bind (preserves_keyed_of_utxos fun _ => rfl) fun _ => ?_
  cases pending with
  | none => exact preserves_pure _
  | some tx =>
    refine Preserves.bind (preserves_keyed_of_utxos fun _ => rfl) fun _ => ?_
    refine (Preserves.forEach ?_ _).bind fun _ => preserves_pure _
    intro output
    refine (preserves_reads _).bind fun ours => Preserves.ite ?_ (preserves_pure _)
    exact (preserves_ofExcept _).bind fun txHash => preserves_keyed_addUtxo _ _ _ _

variable [SeedSpace S]

theorem preserves_keyed_signBuilt (tx : Option Transaction) :
    Preserves (Keyed (S := S)) (signBuilt tx) := by
  cases tx with
  | none => exact preserves_pure _
  | some tx =>
    refine Preserves.bind ?_ fun _ => preserves_pure _
    refine (preserves_ofExcept _).bind fun hashData => (preserves_reads _).bind fun registered => ?_
    refine (preserves_reads _).bind fun epoch => ?_
    exact (preserves_keyed_onKeys _).bind fun _ => preserves_pure _

theorem preserves_keyed_createRegistrationTx (fresh : Fresh) (fee : Option ℤ) :
    Preserves (Keyed (S := S)) (createRegistrationTx fresh fee) := by
  refine (preserves_reads _).bind fun built => (preserves_ofExcept _).bind fun tx => ?_
  cases tx with
  | none => exact preserves_pure _
  | some tx =>
    refine Preserves.bind ((preserves_ofExcept _).bind fun hashData => ?_) fun _ => preserves_pure _
    exact (preserves_reads _).bind fun privateKey =>
      (preserves_keyed_onKeys _).bind fun _ => preserves_pure _

theorem preserves_keyed_createRotationTx (fresh : Fresh) (fee : Option ℤ) :
    Preserves (Keyed (S := S)) (createRotationTx fresh fee) := by
  refine (preserves_reads _).bind fun registered => Preserves.ite (preserves_pure _) ?_
  refine (preserves_keyed_onKeys _).bind fun root => (preserves_reads _).bind fun built => ?_
  refine (preserves_ofExcept _).bind fun tx => ?_
  cases tx with
  | none => exact preserves_pure _
  | some tx =>
    refine (preserves_ofExcept _).bind fun hashData => (preserves_keyed_onKeys _).bind fun s => ?_
    exact (preserves_ofExcept _).bind fun field => preserves_pure _

theorem preserves_keyed_apply (call : Call) : Preserves (Keyed (S := S)) (apply call) := by
  cases call with
  | keys call => exact preserves_keyed_onKeys _
  | addUtxo txHash outputIndex output epoch => exact preserves_keyed_addUtxo _ _ _ _
  | spendUtxo txHash outputIndex spendingTx =>
    exact (preserves_keyed_spendUtxo _ _ _).bind fun _ => preserves_pure ()
  | createTransfer fresh recipient amount fee =>
    exact ((preserves_reads _).bind preserves_keyed_signBuilt).bind fun _ => preserves_pure ()
  | createStake fresh amount lockEpochs =>
    exact ((preserves_reads _).bind preserves_keyed_signBuilt).bind fun _ => preserves_pure ()
  | createUnstake fresh =>
    exact ((preserves_reads _).bind preserves_keyed_signBuilt).bind fun _ => preserves_pure ()
  | createDataTx fresh data fee =>
    exact ((preserves_reads _).bind preserves_keyed_signBuilt).bind fun _ => preserves_pure ()
  | createRegistrationTx fresh fee =>
    exact (preserves_keyed_createRegistrationTx fresh fee).bind fun _ => preserves_pure ()
  | createRotationTx fresh fee =>
    exact (preserves_keyed_createRotationTx fresh fee).bind fun _ => preserves_pure ()
  | confirmRotation => exact preserves_keyed_onKeys _
  | submitTransaction tx => exact preserves_keyed_submitTransaction tx
  | confirmTransaction txHash => exact preserves_keyed_confirmTransaction txHash
  | syncEpoch epoch =>
    refine (preserves_reads _).bind fun current => Preserves.ite ?_ (preserves_pure _)
    exact (preserves_keyed_onKeys _).bind fun _ => preserves_keyed_of_utxos fun _ => rfl

/-- Every wallet keeps its outputs under their references, whatever was called on it. -/
theorem keyed_after (config : WalletConfig) (masterSeed : S) (calls : List Call) :
    (after apply calls (init config masterSeed)).Keyed :=
  Preserves.after preserves_keyed_apply calls fun _ _ h => by cases h

end Wallet

end Qrtb
