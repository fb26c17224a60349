import Qrtb.Wallet.Estimates
import Qrtb.Wallet.RotationTx

/-!
# What a failed builder leaves behind

Nothing is rolled back. A builder that refuses changes nothing, except that a
rotation has prepared the next batch before it looks at the funds. A builder that
raises while it signs keeps the keys of the inputs it has signed, which are not to
be used again, and no more.
-/

namespace Qrtb

open Stateful SeedSpace

namespace Wallet

section

variable {S : Type} [SeedSpace S]

theorem snd_signBuilt {built : Transaction} {w : Wallet S} {hashData : Bytes}
    (h : built.hashData = .ok hashData) :
    (signBuilt (some built) w).2 =
      { w with keyManager := (forEach (signInput hashData w) built.inputs w.keyManager).2 } := by
  have hsign : (signInputs built w).2 =
      { w with keyManager := (forEach (signInput hashData w) built.inputs w.keyManager).2 } := by
    rw [signInputs, h, ofExcept_ok_bind, reads_bind, reads_bind, snd_bind_pure]
    rfl
  rw [← hsign]
  exact snd_bind_pure _ _ _

theorem signBuilt_of_hashData_error {built : Transaction} {w : Wallet S} {e : PyError}
    (h : built.hashData = .error e) : signBuilt (some built) w = (.error e, w) := by
  have hsign : signInputs built w = (.error e, w) := by rw [signInputs, h]; rfl
  have herror : (signInputs built w).1 = .error e := by rw [hsign]
  rw [signBuilt, bind_of_error herror, hsign]

end

variable {w : Wallet Bytes} {fresh : Fresh}

theorem snd_signInput_of_error {k : KeyManager Bytes} (hk : w.Signs k) {hashData : Bytes}
    {inp : TxInput} {e : PyError} (h : (signInput hashData w inp k).1 = .error e) :
    (signInput hashData w inp k).2 = k := by
  obtain ⟨seed, n, hbatch⟩ := hk.batch
  unfold signInput at h ⊢
  split_ifs at h ⊢ with hregistered
  · rcases signInputTemporal_cases hbatch (hk.registered.trans hregistered)
      (.transaction hashData) inp with ⟨-, hsign⟩ | ⟨-, signed, hsign, -⟩
    · rw [hsign]
    · rw [hsign] at h
      cases h
  · rcases signInputLegacy_cases hk.pairs (.transaction hashData) w.currentEpoch inp with
      ⟨e, hsign⟩ | ⟨signed, k', hsign, -⟩
    · rw [hsign]
    · rw [hsign] at h
      cases h

/-- The wallet after the inputs before a failing one were signed, and nothing more. -/
def BrokenOff (w : Wallet Bytes) (tx : Transaction) (w' : Wallet Bytes) : Prop :=
  ∃ hashData before inp rest, tx.hashData = .ok hashData ∧ tx.inputs = before ++ inp :: rest ∧
    (∃ signed, (forEach (signInput hashData w) before w.keyManager).1 = .ok signed) ∧
    (∃ e, (signInput hashData w inp w'.keyManager).1 = .error e) ∧
    w' = { w with keyManager := (forEach (signInput hashData w) before w.keyManager).2 }

theorem signBuilt_error (hk : w.Signs w.keyManager) {built : Transaction} {e : PyError}
    (h : (signBuilt (some built) w).1 = .error e) :
    (signBuilt (some built) w).2 = w ∨ BrokenOff w built (signBuilt (some built) w).2 := by
  cases hdata : built.hashData with
  | error e' => exact Or.inl (by rw [signBuilt_of_hashData_error hdata])
  | ok hashData =>
    rw [snd_signBuilt hdata]
    cases hinputs : (forEach (signInput hashData w) built.inputs w.keyManager).1 with
    | ok inputs =>
      cases (signBuilt_eq_ok.mpr ⟨hashData, inputs, hdata, hinputs, rfl⟩).symm.trans h
    | error e' =>
      obtain ⟨before, inp, rest, signed, hsplit, hbefore, hfails, hstate⟩ := forEach_error hinputs
      have hkeys := Preserves.forEach (preserves_signs hashData) before w.keyManager hk
      rw [hstate, snd_signInput_of_error hkeys hfails]
      exact Or.inr ⟨hashData, before, inp, rest, hdata, hsplit, ⟨signed, hbefore⟩, ⟨e', hfails⟩, rfl⟩

/-- The keys of the batch are used up, and only their counter has moved. -/
def UsedUp (w : Wallet Bytes) (tx : Transaction) (w' : Wallet Bytes) : Prop :=
  ∃ m < tx.inputs.length, USABLE_KEYS ≤ w.keyManager.authTree.keyIndex + m ∧
    w'.keyManager.authTree =
      { w.keyManager.authTree with keyIndex := w.keyManager.authTree.keyIndex + m } ∧
    w'.keyManager.keyCache = w.keyManager.keyCache ∧
    w'.keyManager.keyIndex = w.keyManager.keyIndex ∧ w'.keyManager.next = w.keyManager.next

theorem BrokenOff.registered (hk : w.Signs w.keyManager)
    (hregistered : w.keyManager.isRegistered = true) {tx : Transaction} {w' : Wallet Bytes}
    (h : BrokenOff w tx w') : w.UsedUp tx w' := by
  obtain ⟨hashData, before, inp, rest, -, hsplit, ⟨signed, hbefore⟩, ⟨e, hfails⟩, rfl⟩ := h
  have hkeys := Preserves.forEach (preserves_signs hashData) before w.keyManager hk
  have hstate := snd_forEach_registered hk hregistered hbefore
  generalize (forEach (signInput hashData w) before w.keyManager).2 = k at hkeys hstate hfails ⊢
  rw [KeyManager.iterate_signedNext] at hstate
  obtain ⟨seed, n, hbatch⟩ := hkeys.batch
  refine ⟨before.length, ?_, ?_, ?_⟩
  · rw [hsplit, List.length_append, List.length_cons]
    omega
  · rw [signInput_registered hregistered] at hfails
    rcases signInputTemporal_cases hbatch (hkeys.registered.trans hregistered)
      (.transaction hashData) inp with ⟨hused, -⟩ | ⟨-, inp', hsign, -⟩
    · rw [hstate] at hused
      exact hused
    · rw [hsign] at hfails
      cases hfails
  · rw [hstate]
    exact ⟨rfl, rfl, rfl, rfl⟩

/-- Without registration neither the batch nor a prepared rotation is touched. -/
theorem BrokenOff.unregistered (hk : w.Signs w.keyManager)
    (hregistered : w.keyManager.isRegistered = false) {tx : Transaction} {w' : Wallet Bytes}
    (h : BrokenOff w tx w') :
    w'.keyManager.authTree = w.keyManager.authTree ∧ w'.keyManager.next = w.keyManager.next := by
  obtain ⟨hashData, before, inp, rest, -, -, -, -, rfl⟩ := h
  let I := fun k : KeyManager Bytes => w.Signs k ∧ k.authTree = w.keyManager.authTree ∧
    k.next = w.keyManager.next
  have hI : ∀ inp, Preserves I (signInput hashData w inp) := by
    intro inp k hIk
    refine ⟨preserves_signs hashData inp k hIk.1, ?_⟩
    unfold signInput
    rw [if_neg (by simp [hregistered])]
    rcases signInputLegacy_cases hIk.1.pairs (.transaction hashData) w.currentEpoch inp with
      ⟨e, hsign⟩ | ⟨inp', k', hsign, -, htree, hnext, -⟩
    · rw [hsign]
      exact hIk.2
    · rw [hsign]
      exact ⟨htree.trans hIk.2.1, hnext.trans hIk.2.2⟩
  exact (Preserves.forEach hI before w.keyManager ⟨hk, rfl, rfl⟩).2

theorem createRegistrationTx_fails {S : Type} [SeedSpace S] {w : Wallet S} {fee : Option ℤ}
    (h : ∀ tx, (createRegistrationTx fresh fee w).1 ≠ .ok (some tx)) :
    (createRegistrationTx fresh fee w).2 = w := by
  rw [createRegistrationTx, reads_bind] at h ⊢
  cases hbuilt : w.registrationTx fresh fee with
  | error e => rfl
  | ok drafted =>
    rw [hbuilt, ofExcept_ok_bind] at h
    cases drafted with
    | none => rfl
    | some tx =>
      rw [ofExcept_ok_bind]
      cases hdata : tx.hashData with
      | error e =>
        have hsign : signRegistration tx w = (.error e, w) := by rw [signRegistration, hdata]; rfl
        simp only [bind_of_error (congrArg Prod.fst hsign), hsign]
      | ok hashData =>
        obtain ⟨signed, hsigned⟩ : ∃ signed, (signRegistration tx w).1 = .ok signed := by
          rw [signRegistration, hdata]
          exact ⟨_, rfl⟩
        exact absurd (bind_eq_ok.mpr ⟨signed, hsigned, rfl⟩) (h signed)

/-- The second half of a rotation: the draft is signed with a reserved key. -/
def signRotation {S : Type} [SeedSpace S] (tx : Transaction) :
    Stateful (Wallet S) (Option Transaction) := do
  let hashData ← ofExcept tx.hashData
  let s ← onKeys (KeyManager.temporalSignRotation (.transaction hashData))
  let field ← ofExcept (rotationField s.publicKey s.proof s.keyIndex)
  return some { tx with
    inputs := tx.inputs.map fun inp => { inp with signature := s.signature, publicKey := field } }

/-- A draft is signed unless it cannot be hashed or no reserved key is left; then nothing moves. -/
theorem snd_signRotation_of_fails (hk : w.Signs w.keyManager)
    (hregistered : w.keyManager.isRegistered = true) {tx : Transaction}
    (h : ∀ signed, (signRotation tx w).1 ≠ .ok (some signed)) : (signRotation tx w).2 = w := by
  obtain ⟨seed, n, hbatch⟩ := hk.batch
  cases hdata : tx.hashData with
  | error e => rw [signRotation, hdata]; rfl
  | ok hashData =>
    rcases lt_or_ge w.keyManager.authTree.rotationIndex RESERVED_ROTATION with hleft | hused
    · have hindex : w.keyManager.nextReserved < TOTAL_KEYS_PER_BATCH := by
        rw [RESERVED_ROTATION] at hleft
        simp only [KeyManager.nextReserved, USABLE_KEYS, RESERVED_ROTATION, TOTAL_KEYS_PER_BATCH]
        omega
      obtain ⟨proof, field, hproof, hfield, -⟩ := exists_rotationField (batchSeed seed n) hindex
      obtain ⟨s, hs, hput⟩ : ∃ s, (onKeys (KeyManager.temporalSignRotation
          (.transaction hashData)) w).1 = .ok s ∧
          rotationField s.publicKey s.proof s.keyIndex = .ok field :=
        ⟨_, hbatch.temporalSignRotation hregistered hleft hproof (.transaction hashData), hfield⟩
      have hreturns : ∃ signed, (signRotation tx w).1 = .ok (some signed) := by
        rw [signRotation, hdata, ofExcept_ok_bind, bind_of_ok hs, hput]
        exact ⟨_, rfl⟩
      obtain ⟨signed, hsigned⟩ := hreturns
      exact absurd hsigned (h signed)
    · have hrefused : KeyManager.temporalSignRotation (.transaction hashData) w.keyManager =
          (.error .valueError, w.keyManager) :=
        KeyManager.signOnTree_refused hregistered
          (by rw [TemporalAuthTree.signRotation, if_pos hused])
      have hfst : (onKeys (KeyManager.temporalSignRotation (.transaction hashData)) w).1 =
          .error .valueError := congrArg Prod.fst hrefused
      rw [signRotation, hdata, ofExcept_ok_bind, bind_of_error hfst, snd_onKeys, hrefused]

/-- The wallet once the next batch is prepared. -/
def prepared (w : Wallet Bytes) : Wallet Bytes :=
  { w with
    keyManager := { w.keyManager with
      next := some ⟨nextBatch w.keyManager.currentBatchSeed,
        .init (nextBatch w.keyManager.currentBatchSeed), w.keyManager.nextRoot⟩ } }

theorem createRotationTx_registered (hregistered : w.keyManager.isRegistered = true)
    (fee : Option ℤ) :
    createRotationTx fresh fee w =
      (do
        match ← ofExcept (w.prepared.announceTx .rotateAuth fresh w.keyManager.nextRoot
            (w.rotationFee fee)) with
        | none => return none
        | some tx => signRotation tx) w.prepared := by
  have hroot : (onKeys KeyManager.prepareRotation w).1 = .ok w.keyManager.nextRoot := rfl
  rw [createRotationTx, reads_bind, if_neg (by simp [hregistered]), bind_of_ok hroot, snd_onKeys]
  rfl

/-- A rotation that fails has prepared the next batch and done nothing else. -/
theorem createRotationTx_fails (hk : w.Signs w.keyManager)
    (hregistered : w.keyManager.isRegistered = true) {fee : Option ℤ}
    (h : ∀ tx, (createRotationTx fresh fee w).1 ≠ .ok (some tx)) :
    (createRotationTx fresh fee w).2 = w.prepared := by
  rw [createRotationTx_registered hregistered] at h ⊢
  cases hbuilt : w.prepared.announceTx .rotateAuth fresh w.keyManager.nextRoot
      (w.rotationFee fee) with
  | error e => rfl
  | ok drafted =>
    rw [hbuilt, ofExcept_ok_bind] at h
    rw [ofExcept_ok_bind]
    cases drafted with
    | none => rfl
    | some tx =>
      obtain ⟨seed, n, hbatch⟩ := hk.batch
      have hprepared : w.prepared.Signs w.prepared.keyManager :=
        ⟨⟨seed, n, KeyManager.kept_atBatch.prepareRotation _ hbatch⟩,
          KeyManager.kept_pairsGenerated.prepareRotation _ hk.pairs, rfl⟩
      exact snd_signRotation_of_fails hprepared hregistered h

/-- What a failed builder may have done to the wallet. -/
def Builder.Leaves (fresh : Fresh) (w w' : Wallet Bytes) : Builder → Prop
  | .spending p => BrokenOff w (p.draft fresh w) w' ∧
      (w.keyManager.isRegistered = true → w.UsedUp (p.draft fresh w) w') ∧
      (w.keyManager.isRegistered = false →
        w'.keyManager.authTree = w.keyManager.authTree ∧ w'.keyManager.next = w.keyManager.next)
  | .registration _ => False
  | .rotation _ => w.keyManager.isRegistered = true ∧ w' = w.prepared

theorem Spending.create_fails (hk : w.Signs w.keyManager) {p : Spending}
    (h : ∀ tx, (p.create fresh w).1 ≠ .ok (some tx)) :
    (p.create fresh w).2 = w ∨
      (∃ e, (p.create fresh w).1 = .error e) ∧ BrokenOff w (p.draft fresh w) (p.create fresh w).2 := by
  rw [Spending.create_apply] at h ⊢
  cases hbuilt : p.unsigned fresh w with
  | none => exact Or.inl rfl
  | some built =>
    obtain ⟨-, rfl⟩ := Spending.unsigned_eq_some.mp hbuilt
    rw [hbuilt] at h
    cases hresult : (signBuilt (some (p.draft fresh w)) w).1 with
    | error e => exact (signBuilt_error hk hresult).imp_right fun hbroken => ⟨⟨e, rfl⟩, hbroken⟩
    | ok result =>
      cases result with
      | some tx => exact absurd hresult (h tx)
      | none =>
        obtain ⟨signed, -, hsame⟩ := bind_eq_ok.mp hresult
        cases hsame

/-- A failed builder leaves the wallet alone, or what it leaves is said by `Leaves`; a builder that
spends what it picks has then raised. -/
theorem failed_builder (config : WalletConfig) (masterSeed : Bytes) (calls : List Call)
    (hw : w = after apply calls (init config masterSeed)) {b : Builder}
    (hfail : ∀ tx, (b.create fresh w).1 ≠ .ok (some tx)) :
    (b.create fresh w).2 = w ∨
      b.Leaves fresh w (b.create fresh w).2 ∧
        ((b.create fresh w).1 = .ok none → ∃ fee, b = .rotation fee) := by
  have hk := signs_after config masterSeed calls hw
  cases b with
  | spending p =>
    refine (Spending.create_fails hk hfail).imp_right ?_
    rintro ⟨⟨e, he⟩, hbroken⟩
    refine ⟨⟨hbroken, hbroken.registered hk, hbroken.unregistered hk⟩, fun hnone => ?_⟩
    cases he.symm.trans hnone
  | registration fee => exact Or.inl (createRegistrationTx_fails hfail)
  | rotation fee =>
    cases hregistered : w.keyManager.isRegistered with
    | false =>
      left
      change (createRotationTx fresh fee w).2 = w
      rw [createRotationTx, reads_bind, if_pos hregistered]
      rfl
    | true =>
      exact Or.inr ⟨⟨hregistered, createRotationTx_fails hk hregistered hfail⟩, fun _ => ⟨fee, rfl⟩⟩

/-- With more inputs than keys, the keys that are left are used before the signing breaks off. -/
theorem forEach_breaksOff (hashData : Bytes) {k : KeyManager Bytes} (hk : w.Signs k)
    (hregistered : w.keyManager.isRegistered = true) {inputs : List TxInput}
    (hleft : k.authTree.keyIndex ≤ USABLE_KEYS)
    (hmore : USABLE_KEYS < k.authTree.keyIndex + inputs.length) :
    (forEach (signInput hashData w) inputs k).1 = .error .valueError ∧
      (forEach (signInput hashData w) inputs k).2.authTree.keyIndex = USABLE_KEYS := by
  induction inputs generalizing k with
  | nil =>
    rw [List.length_nil] at hmore
    omega
  | cons inp inputs ih =>
    obtain ⟨seed, n, hbatch⟩ := hk.batch
    have hkept := preserves_signs hashData inp k hk
    rw [signInput_registered hregistered] at ih hkept ⊢
    rw [List.length_cons] at hmore
    rcases signInputTemporal_cases hbatch (hk.registered.trans hregistered)
      (.transaction hashData) inp with ⟨hused, hsign⟩ | ⟨hfree, inp', hsign, -⟩
    · rw [forEach, bind_of_error (by rw [hsign]), hsign]
      exact ⟨rfl, hleft.antisymm hused⟩
    · have hfirst : (signInputTemporal (.transaction hashData) inp k).1 = .ok inp' := by rw [hsign]
      have hnext : (signInputTemporal (.transaction hashData) inp k).2.authTree.keyIndex =
          k.authTree.keyIndex + 1 := by rw [hsign]; rfl
      obtain ⟨hfails, hstate⟩ := ih hkept (by omega) (by omega)
      rw [hsign] at hfails hstate
      rw [snd_forEach_cons _ hfirst, forEach, bind_of_ok hfirst, hsign, bind_of_error hfails]
      exact ⟨rfl, hstate⟩

/-- A builder that needs more keys than are left uses them up and returns nothing. -/
theorem Spending.create_breaksOff (hk : w.Signs w.keyManager)
    (hregistered : w.keyManager.isRegistered = true) {p : Spending} (hfunded : p.Funded w)
    (hpackable : (p.draft fresh w).Packable)
    (hleft : w.keyManager.authTree.keyIndex ≤ USABLE_KEYS)
    (hmore : USABLE_KEYS < w.keyManager.authTree.keyIndex + (p.draft fresh w).inputs.length) :
    (∀ tx, (p.create fresh w).1 ≠ .ok (some tx)) ∧
      (p.create fresh w).2.keyManager.authTree.keyIndex = USABLE_KEYS := by
  obtain ⟨hashData, hdata⟩ := (p.draft fresh w).hashData_returns.mpr hpackable
  obtain ⟨hfails, hstate⟩ := forEach_breaksOff hashData hk hregistered hleft hmore
  refine ⟨?_, ?_⟩
  · intro tx htx
    obtain ⟨-, hashData', inputs, hdata', hsigned, -⟩ := Spending.create_eq_ok.mp htx
    obtain rfl := Except.ok.inj (hdata'.symm.trans hdata)
    cases hsigned.symm.trans hfails
  · rw [Spending.create_apply, Spending.unsigned_eq_some.mpr ⟨hfunded, rfl⟩, snd_signBuilt hdata]
    exact hstate

theorem Spending.draft_of_signed (p : Spending) (tree : TemporalAuthTree Bytes)
    (signed : List (Signing Bytes)) :
    p.draft fresh { w with keyManager := { w.keyManager with authTree := tree, signed := signed } } =
      p.draft fresh w := by
  cases p <;> rfl

theorem Spending.funded_of_keys (p : Spending) (k : KeyManager Bytes) :
    p.Funded { w with keyManager := k } ↔ p.Funded w := by
  cases p <;> rfl

/-- Messages are signed as long as keys are left, and nothing else happens to the wallet. -/
theorem after_temporalSign {m : ℕ} {message : Bytes} (hk : w.Signs w.keyManager)
    (hregistered : w.keyManager.isRegistered = true)
    (hleft : w.keyManager.authTree.keyIndex + m ≤ USABLE_KEYS) :
    after apply (List.replicate m (.keys (.temporalSign message))) w =
      { w with keyManager := (KeyManager.signedNext (.raw message))^[m] w.keyManager } := by
  induction m generalizing w with
  | zero => rfl
  | succ m ih =>
    obtain ⟨seed, n, hbatch⟩ := hk.batch
    obtain ⟨s, hsign, -⟩ := hbatch.temporalSign hregistered (by omega) (.raw message)
    have hcall : (apply (.keys (.temporalSign message)) w).2 =
        { w with keyManager := w.keyManager.signedNext (.raw message) } := by
      have hkeys : (KeyManager.apply (.temporalSign message) w.keyManager).2 =
          w.keyManager.signedNext (.raw message) := by
        rw [KeyManager.apply, snd_bind_pure, hsign]
      rw [← hkeys]
      rfl
    have hnext : (apply (.keys (.temporalSign message)) w).2.Signs
        (apply (.keys (.temporalSign message)) w).2.keyManager := by
      refine ⟨⟨seed, n, ?_⟩, preserves_pairsGenerated_apply _ w hk.pairs, rfl⟩
      have hkept := KeyManager.kept_atBatch.temporalSign (.raw message) _ hbatch
      rw [hsign] at hkept
      rwa [hcall]
    rw [List.replicate_succ, after, List.foldl_cons]
    change after apply _ _ = _
    rw [ih hnext (by rw [hcall]; exact hregistered) ?_, hcall]
    · rfl
    · rw [hcall]
      change w.keyManager.authTree.keyIndex + 1 + m ≤ USABLE_KEYS
      omega

/-- Two outputs of 3000 and one key of the batch left. -/
def drainedCalls : List Call :=
  thriftyCalls [3000, 3000] ++ List.replicate 1021 (.keys (.temporalSign []))

def drainedWallet : Wallet Bytes :=
  after apply drainedCalls (init { feeRate := 1 } KeyManager.exampleSeed)

theorem drainedWallet_eq : drainedWallet =
    { thriftyWallet [3000, 3000] with
      keyManager := (KeyManager.signedNext (.raw []))^[1021]
        (thriftyWallet [3000, 3000]).keyManager } := by
  rw [drainedWallet, drainedCalls, after, List.foldl_append]
  exact after_temporalSign (signs_thriftyWallet [3000, 3000]) rfl (by decide)

theorem keyIndex_drainedWallet : drainedWallet.keyManager.authTree.keyIndex = 1021 := by
  rw [drainedWallet_eq, KeyManager.iterate_signedNext]
  rfl

theorem signs_drainedWallet : drainedWallet.Signs drainedWallet.keyManager :=
  signs_after { feeRate := 1 } _ drainedCalls rfl

/-- The transfer takes both outputs, so one of its inputs is signed and the other is not. -/
theorem smallTransfer_breaksOff :
    (∀ tx, (smallTransfer.create ⟨1000, List.replicate 8 0⟩ drainedWallet).1 ≠ .ok (some tx)) ∧
    (smallTransfer.create ⟨1000, List.replicate 8 0⟩
      drainedWallet).2.keyManager.authTree.keyIndex = USABLE_KEYS := by
  have hdraft : smallTransfer.draft ⟨1000, List.replicate 8 0⟩ drainedWallet =
      smallTransfer.draft ⟨1000, List.replicate 8 0⟩ (thriftyWallet [3000, 3000]) := by
    rw [drainedWallet_eq, KeyManager.iterate_signedNext, Spending.draft_of_signed]
  refine Spending.create_breaksOff signs_drainedWallet ?_ ?_ ?_ ?_ ?_
  · rw [drainedWallet_eq, KeyManager.iterate_signedNext]
    rfl
  · rw [drainedWallet_eq, Spending.funded_of_keys]
    decide +kernel
  · rw [hdraft]
    decide +kernel
  · rw [keyIndex_drainedWallet]
    decide
  · rw [keyIndex_drainedWallet, hdraft]
    decide +kernel

/-- A transfer that raises has used a key, a rotation that returns nothing has prepared a batch. -/
theorem failed_builders_leave_traces :
    ((∀ tx, (createTransfer ⟨1000, List.replicate 8 0⟩ (List.replicate 64 2) 1000 none
        drainedWallet).1 ≠ .ok (some tx)) ∧
      (createTransfer ⟨1000, List.replicate 8 0⟩ (List.replicate 64 2) 1000 none
        drainedWallet).2.keyManager.authTree.keyIndex ≠
          drainedWallet.keyManager.authTree.keyIndex) ∧
    (createRotationTx ⟨1000, List.replicate 8 0⟩ none (thriftyWallet [])).1 = .ok none ∧
      (thriftyWallet []).keyManager.next.isSome = false ∧
      (createRotationTx ⟨1000, List.replicate 8 0⟩ none
        (thriftyWallet [])).2.keyManager.next.isSome = true := by
  obtain ⟨hfails, hstate⟩ := smallTransfer_breaksOff
  have hcreate : ∀ w : Wallet Bytes, createTransfer ⟨1000, List.replicate 8 0⟩
      (List.replicate 64 2) 1000 none w = smallTransfer.create ⟨1000, List.replicate 8 0⟩ w :=
    fun _ => rfl
  rw [hcreate, hstate, keyIndex_drainedWallet]
  refine ⟨⟨hfails, by decide⟩, ?_⟩
  rw [createRotationTx_registered rfl]
  exact ⟨rfl, rfl, rfl⟩

theorem failed_smallTransfer :
    (smallTransfer.create ⟨1000, List.replicate 8 0⟩ drainedWallet).2 = drainedWallet ∨
      (Builder.spending smallTransfer).Leaves ⟨1000, List.replicate 8 0⟩ drainedWallet
        (smallTransfer.create ⟨1000, List.replicate 8 0⟩ drainedWallet).2 ∧
      ((smallTransfer.create ⟨1000, List.replicate 8 0⟩ drainedWallet).1 = .ok none →
        ∃ fee, Builder.spending smallTransfer = .rotation fee) :=
  failed_builder { feeRate := 1 } _ drainedCalls rfl (b := .spending smallTransfer)
    smallTransfer_breaksOff.1

end Wallet

end Qrtb
