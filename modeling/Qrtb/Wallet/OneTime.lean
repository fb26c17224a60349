import Qrtb.Wallet.KeyAccount
import Qrtb.Wallet.KeyFrame

/-!
# Which keys are one-time

No call on a wallet lets a key of a batch or a legacy key sign twice. Every
registration that is built is signed with the one registration key, so in a run
all keys are one-time exactly when all its registrations are the same.
-/

namespace Qrtb

open Keccak Stateful SeedSpace

theorem KeyManager.kept_tracks {seed : Bytes} {payloads : List Payload} :
    Kept (Tracks seed payloads) where
  temporalSign := preserves_tracks_signOnTree TemporalAuthTree.takesFresh_sign
  temporalSignRotation := preserves_tracks_signOnTree TemporalAuthTree.takesFresh_signRotation
  prepareRotation := preserves_tracks_prepareRotation
  generateKeypair := preserves_tracks_generateKeypair
  getUnusedKeypair := preserves_tracks_getUnusedKeypair
  sign := preserves_tracks_sign
  setFlags := fun _ registered epoch h => h.setFlags registered epoch

namespace Wallet

/-- The registrations signed in a sequence of calls. -/
def registrations {S : Type} [SeedSpace S] : Wallet S → List Call → List Bytes
  | _, [] => []
  | w, call :: calls => (w.registers call).toList ++ registrations (apply call w).2 calls

variable {seed : Bytes} {payloads : List Payload}

def Tracks (seed : Bytes) (payloads : List Payload) (w : Wallet SeedTerm) : Prop :=
  w.keyManager.Tracks seed payloads

theorem tracks_createRegistrationTx (fresh : Fresh) (fee : Option ℤ) {w : Wallet SeedTerm}
    (h : Tracks seed payloads w) :
    Tracks seed (payloads ++ (w.registers (.createRegistrationTx fresh fee)).toList.map
      Payload.transaction) (createRegistrationTx fresh fee w).2 := by
  rcases createRegistrationTx_cases fresh fee w with ⟨hnone, hw⟩ | ⟨hashData, hsome, hw⟩
  · rw [hnone, hw]
    simpa using h
  · rw [hsome, Tracks, hw]
    exact KeyManager.Tracks.recordRegistration h (.transaction hashData)

theorem tracks_apply (call : Call) {w : Wallet SeedTerm} (h : Tracks seed payloads w) :
    Tracks seed (payloads ++ (w.registers call).toList.map Payload.transaction)
      (apply call w).2 := by
  cases hregisters : call.registers with
  | false =>
    rw [registers_eq_none w hregisters, Option.toList_none, List.map_nil, List.append_nil]
    exact preserves_apply KeyManager.kept_tracks hregisters
      (fun _ => KeyManager.preserves_tracks_executeRotation) w h
  | true =>
    cases call with
    | createRegistrationTx fresh fee =>
      rw [apply, snd_bind_pure]
      exact tracks_createRegistrationTx fresh fee h
    | _ => cases hregisters

theorem tracks_after (calls : List Call) {w : Wallet SeedTerm} (h : Tracks seed payloads w) :
    Tracks seed (payloads ++ (registrations w calls).map Payload.transaction)
      (after apply calls w) := by
  induction calls generalizing w payloads with
  | nil => simpa [registrations] using h
  | cons call calls ih =>
    have hrest := ih (tracks_apply call h)
    rw [List.append_assoc, ← List.map_append] at hrest
    exact hrest

theorem registrations_forget (calls : List Call) (w : Wallet SeedTerm) :
    registrations w.forget calls = registrations w calls := by
  induction calls generalizing w with
  | nil => rfl
  | cons call calls ih =>
    have hregisters : w.forget.registers call = w.registers call := by
      cases call with
      | createRegistrationTx fresh fee => rw [registers, registers, registrationTx_forget]
      | _ => rfl
    rw [registrations, registrations, hregisters, simulates_apply call w, ih]

/-- In every run of a wallet, no key signs two different messages if and only if all registrations
that were signed are the same. -/
theorem oneTime_iff (config : WalletConfig) (seed : Bytes) (calls : List Call) :
    (after apply calls (init config (SeedTerm.master seed))).forget =
        after apply calls (init config seed) ∧
      (OneTime (after apply calls (init config (SeedTerm.master seed))).keyManager.signed ↔
        ∀ d ∈ registrations (init config seed) calls, ∀ d' ∈ registrations (init config seed) calls,
          d = d') := by
  have hinit : (init config (SeedTerm.master seed)).forget = init config seed := forget_init _ _
  have htracks : Tracks seed [] (init config (SeedTerm.master seed)) :=
    ⟨KeyManager.accounted_init seed, rfl⟩
  have hafter := tracks_after calls htracks
  refine ⟨by rw [← Simulates.after simulates_apply, hinit], ?_⟩
  rw [← hinit, registrations_forget, hafter.accounted.oneTime_iff_registrations, hafter.registrations]
  simp

def retrySeed : SeedTerm := .master (List.replicate 64 7)

/-- A new wallet that was given one output. -/
def fundedWallet : Wallet SeedTerm :=
  (apply (.addUtxo (List.replicate 32 1) 0 { value := 1000000, address := List.replicate 64 1 } 0)
    (init {} retrySeed)).2

def registerCall (nonce : Bytes) : Call := .createRegistrationTx ⟨1000, nonce⟩ none

/-- The registration of the funded wallet before it is signed. -/
def retryTx (nonce : Bytes) : Transaction where
  version := 1
  txType := .register
  inputs := [{
    prevTxHash := List.replicate 32 1
    outputIndex := 0
    signature := []
    publicKey := fundedWallet.keyManager.getWotsKeypairForRegistration.2 }]
  outputs := [
    { value := 0
      address := fundedWallet.address
      data := fundedWallet.keyManager.innerHash ++ batchRoot (value (initialBatch retrySeed)) },
    { value := 953420, address := fundedWallet.address }]
  epoch := 0
  timestamp := 1000
  fee := 46580
  nonce := nonce

theorem registrationTx_funded (nonce : Bytes) :
    fundedWallet.registrationTx ⟨1000, nonce⟩ none = .ok (some (retryTx nonce)) := rfl

theorem packable_retryTx (nonce : Bytes) : (retryTx nonce).Packable := by
  have hinner : fundedWallet.keyManager.innerHash.length = 64 := length_sha3_512 _
  have hroot : (batchRoot (value (initialBatch retrySeed))).length = 32 :=
    MerkleTree.length_root (TemporalAuthTree.publicKeys_ne_nil _)
  constructor <;> simp [retryTx, hinner, hroot]

/-- Funds, a registration, and the same registration again with another nonce. -/
def retriedCalls : List Call :=
  [.addUtxo (List.replicate 32 1) 0 { value := 1000000, address := List.replicate 64 1 } 0,
    registerCall (List.replicate 8 0), registerCall (List.replicate 8 1)]

theorem registers_recorded (w : Wallet SeedTerm) (signed : List (Signing SeedTerm)) (call : Call) :
    registers { w with keyManager := { w.keyManager with signed := signed } } call =
      w.registers call := by
  cases call <;> rfl

/-- As long as the address is not marked as registered, the registration key signs whatever
registration is built. -/
theorem registration_signs_twice :
    ¬ OneTime (after apply retriedCalls (init {} retrySeed)).keyManager.signed := by
  obtain ⟨data, hdata⟩ := (retryTx []).hashData_returns.mpr (packable_retryTx [])
  obtain ⟨front, -, hnonce⟩ := (retryTx []).hashData_nonce hdata
  have hregisters : ∀ nonce, fundedWallet.registers (registerCall nonce) = some (front ++ nonce) := by
    intro nonce
    have htx : (retryTx nonce).hashData = .ok (front ++ nonce) := hnonce nonce
    simp [registers, registerCall, registrationTx_funded, htx, Except.toOption]
  have hagain : ∀ nonce nonce', (apply (registerCall nonce) fundedWallet).2.registers
      (registerCall nonce') = some (front ++ nonce') := by
    intro nonce nonce'
    rw [registerCall, apply, snd_bind_pure]
    rcases createRegistrationTx_cases ⟨1000, nonce⟩ none fundedWallet with
      ⟨hnone, -⟩ | ⟨first, -, hw⟩
    · cases (hregisters nonce).symm.trans hnone
    · rw [hw, registers_recorded]
      exact hregisters nonce'
  have hfunded : Tracks (List.replicate 64 7) [] fundedWallet :=
    ⟨KeyManager.accounted_init _, rfl⟩
  have htracks := tracks_after [registerCall (List.replicate 8 0),
    registerCall (List.replicate 8 1)] hfunded
  have hrun : after apply retriedCalls (init {} retrySeed) =
      after apply [registerCall (List.replicate 8 0), registerCall (List.replicate 8 1)]
        fundedWallet := by
    rw [retriedCalls, after, List.foldl_cons]
    rfl
  intro hone
  rw [hrun] at hone
  have hsame := htracks.accounted.oneTime_iff_registrations.mp hone
  simp only [htracks.registrations, registrations, hregisters, hagain, Option.toList_some,
    List.nil_append, List.append_nil, List.map_cons, List.map_nil,
    List.singleton_append] at hsame
  have hpayload := hsame _ List.mem_cons_self _ (List.mem_cons_of_mem _ List.mem_cons_self)
  have hnonces := List.append_cancel_left (Payload.transaction.inj hpayload)
  cases hnonces

end Wallet

end Qrtb
