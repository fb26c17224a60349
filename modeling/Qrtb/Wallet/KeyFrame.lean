import Qrtb.Wallet.ForwardSecrecy
import Qrtb.Wallet.Wallet

/-!
# Which calls reach the keys

A call on the wallet touches its key manager through a few operations. What these
keep is kept by every call, so a property of the keys is checked once for each
operation and not for each call. Registrations, which sign with a key of their
own, and the step to a new batch are left to the property at hand.
-/

namespace Qrtb

open Stateful SeedSpace

/-- The property survives every operation on the keys but the two that are treated apart. -/
structure KeyManager.Kept {S : Type} [SeedSpace S] (I : KeyManager S → Prop) : Prop where
  temporalSign : ∀ payload, Preserves I (temporalSign payload)
  temporalSignRotation : ∀ payload, Preserves I (temporalSignRotation payload)
  prepareRotation : Preserves I prepareRotation
  generateKeypair : ∀ epoch, Preserves I (generateKeypair epoch)
  getUnusedKeypair : ∀ epoch, Preserves I (getUnusedKeypair epoch)
  sign : ∀ payload ref, Preserves I (sign payload ref)
  setFlags : ∀ k registered epoch, I k → I { k with isRegistered := registered, currentEpoch := epoch }

namespace KeyManager

variable {S : Type} [SeedSpace S] {I : KeyManager S → Prop}

theorem Kept.preserves_apply (h : Kept I) {call : Call}
    (hexecute : call = .executeRotation → Preserves I (executeRotation (S := S))) :
    Preserves I (apply call) := by
  cases call with
  | markRegistered => exact fun k hk => h.setFlags k true k.currentEpoch hk
  | temporalSign message => exact (h.temporalSign _).bind fun _ => preserves_pure ()
  | temporalSignRotation message =>
    exact (h.temporalSignRotation _).bind fun _ => preserves_pure ()
  | prepareRotation => exact h.prepareRotation.bind fun _ => preserves_pure ()
  | executeRotation => exact hexecute rfl
  | evolveToEpoch targetEpoch => exact fun k hk => h.setFlags k k.isRegistered targetEpoch hk
  | generateKeypair epoch => exact (h.generateKeypair epoch).bind fun _ => preserves_pure ()
  | getUnusedKeypair epoch => exact (h.getUnusedKeypair epoch).bind fun _ => preserves_pure ()
  | sign message ref => exact (h.sign _ ref).bind fun _ => preserves_pure ()

end KeyManager

namespace Wallet

variable {S : Type} [SeedSpace S] {I : KeyManager S → Prop}

/-- A property of the keys, said of their wallet. -/
def Keys (I : KeyManager S → Prop) (w : Wallet S) : Prop := I w.keyManager

omit [SeedSpace S] in
theorem preserves_onKeys {α : Type} {x : Stateful (KeyManager S) α} (h : Preserves I x) :
    Preserves (Keys I) (onKeys x) :=
  h.on (fun _ h => h) fun _ _ _ h => h

omit [SeedSpace S] in
theorem preserves_of_keyManager {α : Type} {x : Stateful (Wallet S) α}
    (h : ∀ w, (x w).2.keyManager = w.keyManager) : Preserves (Keys I) x := by
  intro w hw
  rw [Keys, h]
  exact hw

theorem preserves_signInput (h : KeyManager.Kept I) (registered : Bool) (payload : Payload)
    (epoch : ℤ) (inp : TxInput) :
    Preserves I (if registered then signInputTemporal payload inp
      else signInputLegacy payload epoch inp) := by
  cases registered with
  | true => exact (h.temporalSign payload).bind fun _ => preserves_pure _
  | false =>
    refine (h.getUnusedKeypair epoch).bind fun ref => (preserves_reads _).bind fun publicKey => ?_
    exact (h.sign payload ref).bind fun _ => preserves_pure _

theorem preserves_signBuilt (h : KeyManager.Kept I) (tx : Option Transaction) :
    Preserves (Keys I) (signBuilt tx) := by
  cases tx with
  | none => exact preserves_pure _
  | some tx =>
    refine Preserves.bind ?_ fun _ => preserves_pure _
    refine (preserves_ofExcept _).bind fun hashData => ?_
    refine (preserves_reads _).bind fun registered => (preserves_reads _).bind fun epoch => ?_
    refine (preserves_onKeys (Preserves.forEach ?_ tx.inputs)).bind fun _ => preserves_pure _
    intro inp
    have hinput := preserves_signInput h registered (.transaction hashData) epoch inp
    cases registered with
    | true => exact hinput
    | false => exact hinput

theorem preserves_createRotationTx (h : KeyManager.Kept I) (fresh : Fresh) (fee : Option ℤ) :
    Preserves (Keys I) (createRotationTx fresh fee) := by
  refine (preserves_reads _).bind fun registered => Preserves.ite (preserves_pure _) ?_
  refine (preserves_onKeys h.prepareRotation).bind fun root => ?_
  refine (preserves_reads _).bind fun built => (preserves_ofExcept _).bind fun tx => ?_
  cases tx with
  | none => exact preserves_pure _
  | some tx =>
    refine (preserves_ofExcept _).bind fun hashData => ?_
    refine (preserves_onKeys (h.temporalSignRotation _)).bind fun s => ?_
    exact (preserves_ofExcept _).bind fun field => preserves_pure _

omit [SeedSpace S] in
theorem preserves_spendUtxo (txHash : Bytes) (outputIndex : ℤ) (spendingTx : Bytes) :
    Preserves (Keys I) (spendUtxo (S := S) txHash outputIndex spendingTx) := by
  apply preserves_of_keyManager
  intro w
  unfold spendUtxo
  cases w.utxos.get? (txHash, outputIndex) with
  | none => rfl
  | some utxo =>
    simp only
    split_ifs <;> rfl

omit [SeedSpace S] in
theorem preserves_confirmTransaction (txHash : Bytes) :
    Preserves (Keys I) (confirmTransaction (S := S) txHash) := by
  refine (preserves_reads _).bind fun pending => ?_
  refine Preserves.bind (preserves_of_keyManager fun _ => rfl) fun _ => ?_
  cases pending with
  | none => exact preserves_pure _
  | some tx =>
    refine Preserves.bind (preserves_of_keyManager fun _ => rfl) fun _ => ?_
    refine (Preserves.forEach ?_ _).bind fun _ => preserves_pure _
    intro output
    refine (preserves_reads _).bind fun ours => Preserves.ite ?_ (preserves_pure _)
    exact (preserves_ofExcept _).bind fun txHash => preserves_of_keyManager fun _ => rfl

def Call.rotates : Call → Bool
  | .keys .executeRotation => true
  | .confirmRotation => true
  | _ => false

def Call.registers : Call → Bool
  | .createRegistrationTx _ _ => true
  | _ => false

theorem preserves_apply (h : KeyManager.Kept I) {call : Call} (hregisters : call.registers = false)
    (hexecute : call.rotates = true → Preserves I KeyManager.executeRotation) :
    Preserves (Keys I) (apply call) := by
  cases call with
  | keys call =>
    apply preserves_onKeys
    apply h.preserves_apply
    rintro rfl
    exact hexecute rfl
  | addUtxo txHash outputIndex output epoch => exact preserves_of_keyManager fun _ => rfl
  | spendUtxo txHash outputIndex spendingTx =>
    exact (preserves_spendUtxo _ _ _).bind fun _ => preserves_pure ()
  | createTransfer fresh recipient amount fee =>
    exact ((preserves_reads _).bind (preserves_signBuilt h)).bind fun _ => preserves_pure ()
  | createStake fresh amount lockEpochs =>
    exact ((preserves_reads _).bind (preserves_signBuilt h)).bind fun _ => preserves_pure ()
  | createUnstake fresh =>
    exact ((preserves_reads _).bind (preserves_signBuilt h)).bind fun _ => preserves_pure ()
  | createDataTx fresh data fee =>
    exact ((preserves_reads _).bind (preserves_signBuilt h)).bind fun _ => preserves_pure ()
  | createRegistrationTx fresh fee => cases hregisters
  | createRotationTx fresh fee =>
    exact (preserves_createRotationTx h fresh fee).bind fun _ => preserves_pure ()
  | confirmRotation => exact preserves_onKeys (hexecute rfl)
  | submitTransaction tx =>
    refine (preserves_ofExcept _).bind fun txHash => ?_
    refine Preserves.bind (preserves_of_keyManager fun _ => rfl) fun _ => ?_
    exact (Preserves.forEach (fun inp => preserves_spendUtxo _ _ _) _).bind fun _ =>
      preserves_pure ()
  | confirmTransaction txHash => exact preserves_confirmTransaction txHash
  | syncEpoch epoch =>
    refine (preserves_reads _).bind fun current => Preserves.ite ?_ (preserves_pure _)
    refine Preserves.bind (preserves_onKeys ?_) fun _ => preserves_of_keyManager fun _ => rfl
    exact fun k hk => h.setFlags k k.isRegistered epoch hk

/-- The bytes under the signing hash of the registration a call makes and signs. -/
def registers {S : Type} [SeedSpace S] (w : Wallet S) : Call → Option Bytes
  | .createRegistrationTx fresh fee =>
    match w.registrationTx fresh fee with
    | .ok (some tx) => tx.hashData.toOption
    | _ => none
  | _ => none

theorem registers_eq_none (w : Wallet S) {call : Call} (h : call.registers = false) :
    w.registers call = none := by
  cases call with
  | createRegistrationTx fresh fee => cases h
  | _ => rfl

theorem createRegistrationTx_cases (fresh : Fresh) (fee : Option ℤ) (w : Wallet S) :
    (w.registers (.createRegistrationTx fresh fee) = none ∧
      (createRegistrationTx fresh fee w).2 = w) ∨
    ∃ hashData, w.registers (.createRegistrationTx fresh fee) = some hashData ∧
      (createRegistrationTx fresh fee w).2 =
        { w with
          keyManager := { w.keyManager with
            signed := w.keyManager.signed ++
              [⟨registration w.keyManager.masterSeed, .transaction hashData⟩] } } := by
  rw [createRegistrationTx, reads_bind, registers]
  cases w.registrationTx fresh fee with
  | error e => exact Or.inl ⟨rfl, rfl⟩
  | ok built =>
    cases built with
    | none => exact Or.inl ⟨rfl, rfl⟩
    | some tx =>
      rw [ofExcept_ok_bind]
      change (tx.hashData.toOption = none ∧
        ((signRegistration tx >>= fun signed => pure (some signed)) w).2 = w) ∨ _
      rw [snd_bind_pure, signRegistration]
      cases hdata : tx.hashData with
      | error e => exact Or.inl ⟨rfl, rfl⟩
      | ok hashData => exact Or.inr ⟨hashData, by simp [hdata, Except.toOption], rfl⟩

end Wallet

namespace KeyManager

/-- The manager of a seed, at its `n`-th batch, with the tree of that batch in place. -/
structure AtBatch (seed : Bytes) (n : ℕ) (k : KeyManager Bytes) : Prop where
  batched : Batched seed k
  address : k.address = (init seed).address
  number : k.batchNumber = n
  leaves : k.authTree.authTree = some (publicKeys k.authTree.batchSeed)

variable {seed : Bytes} {n : ℕ} {k : KeyManager Bytes}

theorem atBatch_init (seed : Bytes) : AtBatch seed 0 (init seed) :=
  ⟨batched_init seed, rfl, rfl, rfl⟩

theorem AtBatch.batchSeed (h : AtBatch seed n k) : k.authTree.batchSeed = batchSeed seed n := by
  rw [h.batched.tree, h.batched.current, h.number]

theorem AtBatch.authRoot (h : AtBatch seed n k) :
    k.authRoot = .ok (batchRoot (Qrtb.batchSeed seed n)) := by
  rw [KeyManager.authRoot, TemporalAuthTree.authRoot, h.leaves, h.batchSeed]
  rfl

/-- Signing with the tree moves a counter of it and nothing else of the batch. -/
theorem preserves_atBatch_signOnTree {sign : Bytes → Stateful (TemporalAuthTree Bytes) TemporalSignature}
    (hseed : ∀ message t, (sign message t).2.batchSeed = t.batchSeed)
    (htree : ∀ message t, (sign message t).2.authTree = t.authTree) (payload : Payload) :
    Preserves (AtBatch seed n) (signOnTree sign payload) := by
  intro k h
  have hbatched := preserves_batched_signOnTree hseed payload k h.batched
  have hleaves : (sign payload.bytes k.authTree).2.authTree =
      some (publicKeys (sign payload.bytes k.authTree).2.batchSeed) := by
    rw [htree, hseed, h.leaves]
  rcases signOnTree_cases sign payload k with hk | hk | ⟨s, -, hk⟩
  · rwa [hk]
  · rw [hk] at hbatched ⊢
    exact ⟨hbatched, h.address, h.number, hleaves⟩
  · rw [hk] at hbatched ⊢
    exact ⟨hbatched, h.address, h.number, hleaves⟩

theorem AtBatch.generated (h : AtBatch seed n k) (epoch : ℤ) : AtBatch seed n (k.generated epoch) :=
  ⟨h.batched.generated epoch, h.address, h.number, h.leaves⟩

theorem kept_atBatch : Kept (AtBatch seed n) where
  temporalSign := preserves_atBatch_signOnTree batchSeed_sign fun message t => by
    unfold TemporalAuthTree.sign
    split_ifs <;> rfl
  temporalSignRotation := preserves_atBatch_signOnTree batchSeed_signRotation fun message t => by
    unfold TemporalAuthTree.signRotation
    split_ifs <;> rfl
  prepareRotation := fun k h =>
    ⟨preserves_batched_prepareRotation k h.batched, h.address, h.number, h.leaves⟩
  generateKeypair := fun epoch => preserves_generateKeypair fun _ h => h.generated epoch
  getUnusedKeypair := fun epoch => preserves_getUnusedKeypair fun _ h => h.generated epoch
  sign := fun payload ref k h => by
    have hbatched := preserves_batched_sign payload ref k h.batched
    rcases sign_cases payload ref k with hk | ⟨pair, -, -, hk⟩
    · rwa [hk]
    · rw [hk] at hbatched ⊢
      exact ⟨hbatched, h.address, h.number, h.leaves⟩
  setFlags := fun k registered epoch h =>
    ⟨⟨h.batched.master, h.batched.current, h.batched.tree, h.batched.next⟩, h.address, h.number,
      h.leaves⟩

theorem AtBatch.execute (h : AtBatch seed n k) {p : PreparedRotation Bytes} (hp : k.next = some p) :
    (executeRotation k).1 = .ok () ∧ AtBatch seed (n + 1) (executeRotation k).2 := by
  have hbatched := preserves_batched_executeRotation k h.batched
  obtain ⟨hseed, htree⟩ := h.batched.next p hp
  rcases executeRotation_cases k with ⟨hnone, -⟩ | ⟨p', hp', hk⟩
  · cases hnone.symm.trans hp
  · cases hp.symm.trans hp'
    rw [hk] at hbatched ⊢
    refine ⟨rfl, hbatched, h.address, congrArg (· + 1) h.number, ?_⟩
    simp only [htree]
    rfl

end KeyManager

namespace Wallet

variable {seed : Bytes} {n : ℕ}

theorem atBatch_apply {w : Wallet Bytes} (h : w.keyManager.AtBatch seed n) {call : Call}
    (hcall : call.rotates = false) : (apply call w).2.keyManager.AtBatch seed n := by
  cases hregisters : call.registers with
  | false =>
    exact preserves_apply KeyManager.kept_atBatch hregisters (by simp [hcall]) w h
  | true =>
    cases call with
    | createRegistrationTx fresh fee =>
      rw [apply, snd_bind_pure]
      rcases createRegistrationTx_cases fresh fee w with ⟨-, hw⟩ | ⟨hashData, -, hw⟩
      · rwa [hw]
      · rw [hw]
        exact ⟨⟨h.batched.master, h.batched.current, h.batched.tree, h.batched.next⟩, h.address,
          h.number, h.leaves⟩
    | _ => cases hregisters

theorem atBatch_confirmRotation {w : Wallet Bytes} (h : w.keyManager.AtBatch seed n) :
    ∃ m, (confirmRotation w).2.keyManager.AtBatch seed m := by
  cases hnext : w.keyManager.next with
  | none =>
    rcases KeyManager.executeRotation_cases w.keyManager with ⟨-, hk⟩ | ⟨p, hp, -⟩
    · refine ⟨n, ?_⟩
      change (KeyManager.executeRotation w.keyManager).2.AtBatch seed n
      rwa [hk]
    · cases hnext.symm.trans hp
  | some p => exact ⟨n + 1, (h.execute hnext).2⟩

theorem exists_atBatch (config : WalletConfig) (seed : Bytes) (calls : List Call) :
    ∃ n, (after apply calls (init config seed)).keyManager.AtBatch seed n := by
  induction calls using List.reverseRecOn with
  | nil => exact ⟨0, KeyManager.atBatch_init seed⟩
  | append_singleton calls call ih =>
    obtain ⟨n, hn⟩ := ih
    rw [after_append_singleton]
    cases hcall : call.rotates with
    | false => exact ⟨n, atBatch_apply hn hcall⟩
    | true =>
      unfold Call.rotates at hcall
      split at hcall
      · exact atBatch_confirmRotation hn
      · exact atBatch_confirmRotation hn
      · cases hcall

end Wallet

end Qrtb
