import Qrtb.Wallet.Builders
import Qrtb.Wallet.KeyAccount
import Qrtb.Wallet.KeyFrame

/-!
# Signing one input

In a wallet started from a seed, the keys of a registered wallet sign with the
next key of the batch until all are used, and a signature that is refused moves
nothing. Without registration the pair is an unused one of the epoch or a new one,
which always signs. Either way a signed input has a fixed size.
-/

namespace Qrtb

open Keccak Stateful SeedSpace

namespace KeyManager

section

variable {seed : Bytes} {n : ℕ} {k : KeyManager Bytes}

/-- The manager after a signature with the next key of its batch. -/
def signedNext (payload : Payload) (k : KeyManager Bytes) : KeyManager Bytes :=
  { k with
    authTree := { k.authTree with keyIndex := k.authTree.keyIndex + 1 }
    signed := k.signed ++ [⟨key k.authTree.batchSeed k.authTree.keyIndex, payload⟩] }

theorem iterate_signedNext (payload : Payload) (m : ℕ) (k : KeyManager Bytes) :
    (signedNext payload)^[m] k =
      { k with
        authTree := { k.authTree with keyIndex := k.authTree.keyIndex + m }
        signed := ((signedNext payload)^[m] k).signed } := by
  induction m generalizing k with
  | zero => rfl
  | succ m ih =>
    rw [Function.iterate_succ_apply, ih]
    simp only [signedNext, Nat.add_assoc, Nat.add_comm 1 m]

theorem signOnTree_refused (hregistered : k.isRegistered = true)
    {sign : Bytes → Stateful (TemporalAuthTree Bytes) TemporalSignature} {payload : Payload}
    {e : PyError} (h : sign payload.bytes k.authTree = (.error e, k.authTree)) :
    signOnTree sign payload k = (.error e, k) := by
  have htree : onTree (sign payload.bytes) k = (.error e, k) := by
    unfold onTree on
    rw [h]
  unfold signOnTree
  rw [reads_bind, if_neg (by simp [hregistered]), bind_of_error (by rw [htree]), htree]

theorem temporalSign_exhausted (hregistered : k.isRegistered = true)
    (hused : USABLE_KEYS ≤ k.authTree.keyIndex) (payload : Payload) :
    temporalSign payload k = (.error .valueError, k) :=
  signOnTree_refused hregistered (by rw [TemporalAuthTree.sign, if_pos hused])

/-- A key that is left signs, and the signature has the lengths of the scheme. -/
theorem AtBatch.temporalSign (h : AtBatch seed n k) (hregistered : k.isRegistered = true)
    (hleft : k.authTree.keyIndex < USABLE_KEYS) (payload : Payload) :
    ∃ s, temporalSign payload k = (.ok s, k.signedNext payload) ∧ s.signature.length = 2144 ∧
      s.publicKey.length = 2144 ∧ s.proof.length = 10 := by
  have husable : USABLE_KEYS = 1022 := rfl
  obtain ⟨proof, hproof, hlength, -, -⟩ :=
    Ledger.exists_proof k.authTree.batchSeed (by omega : k.authTree.keyIndex < 1024)
  let s : TemporalSignature :=
    { signature := Wots.sign payload.bytes
        (Wots.keygen (deriveKeySeed k.authTree.batchSeed k.authTree.keyIndex)).1
      publicKey := (Wots.keygen (deriveKeySeed k.authTree.batchSeed k.authTree.keyIndex)).2
      proof := proof
      keyIndex := k.authTree.keyIndex }
  have hwith : k.authTree.signWith k.authTree.keyIndex payload.bytes = .ok s := by
    rw [TemporalAuthTree.signWith, h.leaves]
    simp only [hproof]
    rfl
  have hsign : TemporalAuthTree.sign payload.bytes k.authTree =
      (.ok s, { k.authTree with keyIndex := k.authTree.keyIndex + 1 }) := by
    rw [TemporalAuthTree.sign, if_neg (by omega), hwith]
  have htree : onTree (TemporalAuthTree.sign payload.bytes) k =
      (.ok s, { k with authTree := { k.authTree with keyIndex := k.authTree.keyIndex + 1 } }) := by
    unfold onTree on
    rw [hsign]
  refine ⟨s, ?_, Wots.length_sign _ _, Wots.length_publicKey _, hlength⟩
  unfold KeyManager.temporalSign signOnTree
  rw [reads_bind, if_neg (by simp [hregistered]), bind_of_ok (by rw [htree]), htree]
  rfl

end

section

variable {S : Type} {k : KeyManager S}

/-- The pairs of the cache are WOTS+ key pairs. -/
def PairsGenerated (k : KeyManager S) : Prop :=
  ∀ epoch, ∀ pair ∈ k.keyCache.getD epoch [], ∃ seed,
    pair.privateKey = (Wots.keygen seed).1 ∧ pair.publicKey = (Wots.keygen seed).2

theorem PairsGenerated.setCache (h : k.PairsGenerated) {k' : KeyManager S} {epoch : ℤ}
    {pairs : List (KeyPair S)} (hcache : k'.keyCache = k.keyCache.set epoch pairs)
    (hpairs : ∀ pair ∈ pairs, ∃ seed,
      pair.privateKey = (Wots.keygen seed).1 ∧ pair.publicKey = (Wots.keygen seed).2) :
    k'.PairsGenerated := by
  intro e pair hpair
  rw [hcache] at hpair
  by_cases he : e = epoch
  · subst he
    rw [getD_set_self] at hpair
    exact hpairs pair hpair
  · rw [getD_set_of_ne _ he] at hpair
    exact h e pair hpair

theorem PairsGenerated.of_keyCache (h : k.PairsGenerated) {k' : KeyManager S}
    (hcache : k'.keyCache = k.keyCache) : k'.PairsGenerated := by
  intro e pair hpair
  rw [hcache] at hpair
  exact h e pair hpair

theorem PairsGenerated.markUsed (h : k.PairsGenerated) (ref : KeyRef) :
    (k.markUsed ref).PairsGenerated := by
  apply h.setCache rfl
  intro pair hpair
  obtain ⟨i, hi, rfl⟩ := List.getElem_of_mem hpair
  rw [List.length_modify] at hi
  obtain ⟨seed, hprivate, hpublic⟩ := h ref.epoch _ (List.getElem_mem hi)
  rw [List.getElem_modify]
  split_ifs
  · exact ⟨seed, hprivate, hpublic⟩
  · exact ⟨seed, hprivate, hpublic⟩

variable [SeedSpace S]

theorem PairsGenerated.generated (h : k.PairsGenerated) (epoch : ℤ) :
    (k.generated epoch).PairsGenerated := by
  apply h.setCache rfl
  intro pair hpair
  rcases List.mem_append.mp hpair with hold | hnew
  · exact h epoch pair hold
  · obtain rfl := List.mem_singleton.mp hnew
    exact ⟨_, rfl, rfl⟩

theorem keyCache_signOnTree (sign : Bytes → Stateful (TemporalAuthTree S) TemporalSignature)
    (payload : Payload) (k : KeyManager S) : (signOnTree sign payload k).2.keyCache = k.keyCache := by
  rcases signOnTree_cases sign payload k with hk | hk | ⟨s, -, hk⟩ <;> rw [hk]

theorem kept_pairsGenerated : Kept (PairsGenerated (S := S)) where
  temporalSign payload k h := h.of_keyCache (keyCache_signOnTree _ payload k)
  temporalSignRotation payload k h := h.of_keyCache (keyCache_signOnTree _ payload k)
  prepareRotation k h := h.of_keyCache (by rw [prepareRotation_eq])
  generateKeypair epoch := preserves_generateKeypair fun _ h => h.generated epoch
  getUnusedKeypair epoch := preserves_getUnusedKeypair fun _ h => h.generated epoch
  sign payload ref k h := by
    rcases sign_cases payload ref k with hk | ⟨pair, -, -, hk⟩
    · rwa [hk]
    · rw [hk]
      exact (h.markUsed ref).of_keyCache rfl
  setFlags _ _ _ h := h

theorem preserves_pairsGenerated_executeRotation :
    Preserves (PairsGenerated (S := S)) executeRotation := by
  intro k h
  rcases executeRotation_cases k with ⟨-, hk⟩ | ⟨p, -, hk⟩
  · rwa [hk]
  · rw [hk]
    exact h.of_keyCache rfl

/-- A pair that may be handed out: it is in the cache and has not signed. -/
def Unused (k : KeyManager S) (ref : KeyRef) (pair : KeyPair S) : Prop :=
  k.pairAt ref = some pair ∧ pair.used = false

theorem generateKeypair_eq (epoch : ℤ) (k : KeyManager S) :
    (∃ e, generateKeypair epoch k = (.error e, k)) ∨
      generateKeypair epoch k =
        (.ok ⟨epoch, (k.keyCache.getD epoch []).length⟩, k.generated epoch) := by
  unfold generateKeypair
  cases deriveLegacySeed (value k.currentBatchSeed) epoch k.keyIndex with
  | error e => exact Or.inl ⟨e, rfl⟩
  | ok seed => exact Or.inr rfl

/-- Asking for a pair raises and changes nothing, or hands out an unused one. -/
theorem getUnusedKeypair_eq (epoch : ℤ) (k : KeyManager S) :
    (∃ e, getUnusedKeypair epoch k = (.error e, k)) ∨
      ∃ ref pair k', getUnusedKeypair epoch k = (.ok ref, k') ∧
        (k' = k ∨ k' = k.generated epoch) ∧ k'.Unused ref pair := by
  rw [getUnusedKeypair, reads_bind]
  cases hunused : (k.keyCache.getD epoch []).findIdx? fun pair => !pair.used with
  | some position =>
    obtain ⟨hposition, hfree, -⟩ := List.findIdx?_eq_some_iff_getElem.mp hunused
    refine Or.inr ⟨⟨epoch, position⟩, (k.keyCache.getD epoch [])[position], k, rfl, Or.inl rfl,
      List.getElem?_eq_getElem hposition, by simpa using hfree⟩
  | none =>
    rcases generateKeypair_eq epoch k with ⟨e, he⟩ | hnew
    · exact Or.inl ⟨e, he⟩
    · refine Or.inr ⟨_, k.newKeyPair epoch, k.generated epoch, hnew, Or.inr rfl, ?_, rfl⟩
      simp only [pairAt, KeyManager.generated, getD_set_self]
      exact List.getElem?_concat_length

omit [SeedSpace S] in
theorem sign_unused {ref : KeyRef} {pair : KeyPair S} (h : k.Unused ref pair) (payload : Payload) :
    sign payload ref k =
      (.ok (Wots.sign payload.bytes pair.privateKey),
        { k.markUsed ref with signed := k.signed ++ [⟨pair.keySeed, payload⟩] }) := by
  unfold sign
  rw [h.1]
  simp [h.2]

end

end KeyManager

namespace Wallet

/-- With the keys of the batch an input is refused and nothing moves, or it takes the next key. -/
theorem signInputTemporal_cases {seed : Bytes} {n : ℕ} {k : KeyManager Bytes}
    (h : k.AtBatch seed n) (hregistered : k.isRegistered = true) (payload : Payload)
    (inp : TxInput) :
    (USABLE_KEYS ≤ k.authTree.keyIndex ∧
      signInputTemporal payload inp k = (.error .valueError, k)) ∨
    (k.authTree.keyIndex < USABLE_KEYS ∧
      ∃ inp', signInputTemporal payload inp k = (.ok inp', k.signedNext payload) ∧
        inp'.size = 4348) := by
  unfold signInputTemporal
  rcases le_or_gt USABLE_KEYS k.authTree.keyIndex with hused | hleft
  · have hsign := KeyManager.temporalSign_exhausted hregistered hused payload
    exact Or.inl ⟨hused, by rw [bind_of_error (by rw [hsign]), hsign]⟩
  · obtain ⟨s, hsign, hsignature, hpublic, hproof⟩ := h.temporalSign hregistered hleft payload
    refine Or.inr ⟨hleft, _, by rw [bind_of_ok (by rw [hsign]), hsign]; rfl, ?_⟩
    simp [TxInput.size, TxInput.proofSize, hsignature, hpublic, hproof]

/-- Without registration an input is refused and nothing moves, or it is signed with a legacy pair
and the batch is left alone. -/
theorem signInputLegacy_cases {S : Type} [SeedSpace S] {k : KeyManager S} (h : k.PairsGenerated)
    (payload : Payload) (epoch : ℤ) (inp : TxInput) :
    (∃ e, signInputLegacy payload epoch inp k = (.error e, k)) ∨
    ∃ inp' k', signInputLegacy payload epoch inp k = (.ok inp', k') ∧
      (inp.authProof = none → inp'.size = 4328) ∧ k'.authTree = k.authTree ∧
      k'.next = k.next ∧ k'.isRegistered = k.isRegistered := by
  unfold signInputLegacy
  rcases KeyManager.getUnusedKeypair_eq epoch k with ⟨e, hget⟩ | ⟨ref, pair, k', hget, hk', hpair⟩
  · exact Or.inl ⟨e, by rw [bind_of_error (by rw [hget]), hget]⟩
  · have hgenerated : k'.PairsGenerated := by
      rcases hk' with rfl | rfl
      · exact h
      · exact h.generated epoch
    obtain ⟨seed, hprivate, hpublic⟩ := hgenerated ref.epoch pair (List.mem_of_getElem? hpair.1)
    have hsame : k'.authTree = k.authTree ∧ k'.next = k.next ∧ k'.isRegistered = k.isRegistered := by
      rcases hk' with rfl | rfl
      · exact ⟨rfl, rfl, rfl⟩
      · exact ⟨rfl, rfl, rfl⟩
    have hsign := KeyManager.sign_unused hpair payload
    refine Or.inr ⟨{ inp with
      signature := Wots.sign payload.bytes pair.privateKey, publicKey := pair.publicKey },
      { k'.markUsed ref with signed := k'.signed ++ [⟨pair.keySeed, payload⟩] }, ?_, ?_, hsame⟩
    · rw [bind_of_ok (by rw [hget]), hget, reads_bind, bind_of_ok (by rw [hsign]), hsign, hpair.1]
      rfl
    · intro hinp
      simp [TxInput.size, TxInput.proofSize, hinp, hprivate, hpublic, Wots.length_sign,
        Wots.length_publicKey]

/-- What holds of the keys of a wallet, also while it signs the inputs of a transaction. -/
structure Signs (w : Wallet Bytes) (k : KeyManager Bytes) : Prop where
  batch : ∃ seed n, k.AtBatch seed n
  pairs : k.PairsGenerated
  registered : k.isRegistered = w.keyManager.isRegistered

theorem preserves_pairsGenerated_apply {S : Type} [SeedSpace S] (call : Call) :
    Preserves (Keys (KeyManager.PairsGenerated (S := S))) (apply call) := by
  cases hregisters : call.registers with
  | false =>
    exact preserves_apply KeyManager.kept_pairsGenerated hregisters fun _ =>
      KeyManager.preserves_pairsGenerated_executeRotation
  | true =>
    cases call with
    | createRegistrationTx fresh fee =>
      intro w hw
      rw [apply, snd_bind_pure]
      rcases createRegistrationTx_cases fresh fee w with ⟨-, hsame⟩ | ⟨hashData, -, hrecorded⟩
      · rwa [hsame]
      · rw [hrecorded]
        exact hw
    | _ => cases hregisters

theorem signs_after (config : WalletConfig) (seed : Bytes) (calls : List Call) {w : Wallet Bytes}
    (hw : w = after apply calls (init config seed)) : w.Signs w.keyManager := by
  subst hw
  refine ⟨⟨seed, exists_atBatch config seed calls⟩, ?_, rfl⟩
  refine Preserves.after preserves_pairsGenerated_apply calls ?_
  intro epoch pair hpair
  cases hpair

variable {w : Wallet Bytes}

theorem preserves_signs (hashData : Bytes) (inp : TxInput) :
    Preserves w.Signs (signInput hashData w inp) := by
  intro k hk
  obtain ⟨seed, n, hbatch⟩ := hk.batch
  unfold signInput
  split_ifs with hregistered
  · refine ⟨⟨seed, n, ?_⟩, ?_, ?_⟩
    · exact preserves_signInput KeyManager.kept_atBatch true _ 0 inp k hbatch
    · exact preserves_signInput KeyManager.kept_pairsGenerated true _ 0 inp k hk.pairs
    · rcases signInputTemporal_cases hbatch (hk.registered.trans hregistered)
        (.transaction hashData) inp with ⟨-, hsign⟩ | ⟨-, inp', hsign, -⟩
      · rw [hsign]
        exact hk.registered
      · rw [hsign]
        exact hk.registered
  · refine ⟨⟨seed, n, ?_⟩, ?_, ?_⟩
    · exact preserves_signInput KeyManager.kept_atBatch false _ w.currentEpoch inp k hbatch
    · exact preserves_signInput KeyManager.kept_pairsGenerated false _ w.currentEpoch inp k hk.pairs
    · rcases signInputLegacy_cases hk.pairs (.transaction hashData) w.currentEpoch inp with
        ⟨e, hsign⟩ | ⟨inp', k', hsign, -, -, -, hsame⟩
      · rw [hsign]
        exact hk.registered
      · rw [hsign]
        exact hsame.trans hk.registered

/-- The size of a signed input: proofs count two for each of their ten entries. -/
def signedSize {S : Type} (w : Wallet S) : ℕ := if w.keyManager.isRegistered then 4348 else 4328

theorem size_of_signInput {k : KeyManager Bytes} (hk : w.Signs k) {hashData : Bytes}
    {inp inp' : TxInput} (hinp : inp.authProof = none)
    (h : (signInput hashData w inp k).1 = .ok inp') : inp'.size = w.signedSize := by
  obtain ⟨seed, n, hbatch⟩ := hk.batch
  unfold signInput at h
  unfold signedSize
  split_ifs at h ⊢ with hregistered
  · rcases signInputTemporal_cases hbatch (hk.registered.trans hregistered)
      (.transaction hashData) inp with ⟨-, hsign⟩ | ⟨-, signed, hsign, hsize⟩
    · rw [hsign] at h
      cases h
    · rw [hsign] at h
      obtain rfl := Except.ok.inj h
      exact hsize
  · rcases signInputLegacy_cases hk.pairs (.transaction hashData) w.currentEpoch inp with
      ⟨e, hsign⟩ | ⟨signed, k', hsign, hsize, -, -, -⟩
    · rw [hsign] at h
      cases h
    · rw [hsign] at h
      obtain rfl := Except.ok.inj h
      exact hsize hinp

section

variable {k : KeyManager Bytes} {hashData : Bytes}

theorem signInput_registered (hregistered : w.keyManager.isRegistered = true) :
    signInput hashData w = signInputTemporal (.transaction hashData) :=
  if_pos hregistered

theorem snd_forEach_registered (hk : w.Signs k) (hregistered : w.keyManager.isRegistered = true)
    {inputs inputs' : List TxInput} (h : (forEach (signInput hashData w) inputs k).1 = .ok inputs') :
    (forEach (signInput hashData w) inputs k).2 =
      (KeyManager.signedNext (.transaction hashData))^[inputs.length] k := by
  induction inputs generalizing k inputs' with
  | nil => rfl
  | cons inp inputs ih =>
    obtain ⟨inp', rest, hinp, hrest, rfl⟩ := forEach_cons_eq_ok.mp h
    obtain ⟨seed, n, hbatch⟩ := hk.batch
    have hnext := preserves_signs hashData inp k hk
    rw [snd_forEach_cons inputs hinp, ih hnext hrest, List.length_cons,
      Function.iterate_succ_apply]
    rw [signInput_registered hregistered] at hinp ⊢
    rcases signInputTemporal_cases hbatch (hk.registered.trans hregistered)
      (.transaction hashData) inp with ⟨-, hsign⟩ | ⟨-, signed, hsign, -⟩
    · rw [hsign] at hinp
      cases hinp
    · rw [hsign]

theorem forEach_registered_returns (hk : w.Signs k)
    (hregistered : w.keyManager.isRegistered = true) {inputs : List TxInput}
    (hleft : k.authTree.keyIndex + inputs.length ≤ USABLE_KEYS) :
    ∃ inputs', (forEach (signInput hashData w) inputs k).1 = .ok inputs' := by
  induction inputs generalizing k with
  | nil => exact ⟨[], rfl⟩
  | cons inp inputs ih =>
    obtain ⟨seed, n, hbatch⟩ := hk.batch
    have hnext := preserves_signs hashData inp k hk
    rw [List.length_cons] at hleft
    rcases signInputTemporal_cases hbatch (hk.registered.trans hregistered)
      (.transaction hashData) inp with ⟨hused, -⟩ | ⟨-, inp', hsign, -⟩
    · omega
    · rw [← signInput_registered hregistered] at hsign
      have hkey : (signInput hashData w inp k).2.authTree.keyIndex = k.authTree.keyIndex + 1 := by
        rw [hsign]
        rfl
      obtain ⟨inputs', hinputs⟩ := ih hnext (by rw [hkey]; omega)
      exact ⟨inp' :: inputs', forEach_cons_eq_ok.mpr ⟨inp', inputs', by rw [hsign], hinputs, rfl⟩⟩

theorem Spending.create_returns (hk : w.Signs w.keyManager)
    (hregistered : w.keyManager.isRegistered = true) {p : Spending} (hfunded : p.Funded w)
    {fresh : Fresh} (hpackable : (p.draft fresh w).Packable)
    (hleft : w.keyManager.authTree.keyIndex + (p.picked w).length ≤ USABLE_KEYS) :
    ∃ tx, (p.create fresh w).1 = .ok (some tx) := by
  obtain ⟨hashData, hdata⟩ := (p.draft fresh w).hashData_returns.mpr hpackable
  have hlength : (p.draft fresh w).inputs.length = (p.picked w).length := List.length_map _
  rw [← hlength] at hleft
  obtain ⟨inputs, hinputs⟩ := forEach_registered_returns hk hregistered hleft
  exact ⟨_, Spending.create_eq_ok.mpr ⟨hfunded, hashData, inputs, hdata, hinputs, rfl⟩⟩

end

end Wallet

end Qrtb
