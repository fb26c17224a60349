import Qrtb.Ledger.Runs
import Qrtb.Wallet.RotationTx

/-!
# Wallet and chain across rotations

A wallet is in step with the chain when its address is registered there under the
root of its current batch. A rotation is accepted under the entry of the owner of
the output it spends, and replaces the entry of that owner. So wallet and chain
stay in step exactly when the output is at the address of the wallet, apart from
outputs of an owner with the same root.
-/

namespace Qrtb

open Keccak Stateful Ledger Transition

namespace Wallet

/-- The registry has the address of the wallet under the root of its current batch. -/
def InStep (L : Ledger) (w : Wallet Bytes) : Prop :=
  L.authRegistry.isRegistered w.address = true ∧
    ∃ root, w.keyManager.authRoot = .ok root ∧ L.authRegistry.getAuthRoot w.address = some root

/-- A rotation at the default fee rate: a reserved key is left, and the largest spendable output pays
the fee and is an unspent output of the chain. The wallet spends no locked outputs. -/
structure Ready (L : Ledger) (w : Wallet Bytes) (u : Utxo) : Prop where
  feeRate : w.config.feeRate = DEFAULT_FEE_RATE
  unused : 0 < w.keyManager.authTree.remainingRotationKeys
  largest : w.largestSpendable = some u
  pays : w.rotationFee none ≤ u.output.value
  onChain : ∃ v, L.utxoSet.getUtxo u.txHash u.outputIndex = some v ∧ v.output = u.output ∧
    v.isSpent = false

/-- The owner of the output is the wallet itself. Otherwise it is registered with the same root, and
the next root is that root again or the rotation is stored over the output it spends. -/
def SelectsOwn (L : Ledger) (w : Wallet Bytes) (fresh : Fresh) (u : Utxo) : Prop :=
  u.output.address = w.address ∨
    L.authRegistry.isRegistered u.output.address = true ∧
      L.authRegistry.getAuthRoot u.output.address = L.authRegistry.getAuthRoot w.address ∧
      (w.keyManager.authRoot = .ok w.keyManager.nextRoot ∨
        (w.nextDraft fresh (w.rotationFee none) u).Creates (u.txHash, u.outputIndex))

variable {L : Ledger} {w : Wallet Bytes} {u : Utxo} {fresh : Fresh}

theorem Ready.fee (h : Ready L w u) : w.rotationFee none = 45940 := by
  rw [rotationFee, h.feeRate]
  rfl

theorem Ready.unlocked (h : Ready L w u) : u.output.lockEpoch ≤ w.currentEpoch :=
  (largestSpendable_spec h.largest).2.2.1

section Signed

variable {batchSeed hashData field : Bytes} {i : ℕ} {proof : List ProofEntry}
  {draft tx : Transaction}

theorem IsRotation.hashData_eq (h : IsRotation batchSeed i draft hashData proof field tx) :
    tx.hashData = .ok hashData := by
  rw [h.signed, hashData_signedDraft, h.data]

theorem IsRotation.txHash_eq (h : IsRotation batchSeed i draft hashData proof field tx) :
    tx.txHash = draft.txHash := by
  rw [Transaction.txHash, Transaction.txHash, h.hashData_eq, h.data]

theorem IsRotation.creates_iff (h : IsRotation batchSeed i draft hashData proof field tx)
    (k : OutRef) : tx.Creates k ↔ draft.Creates k := by
  have houtputs : tx.outputs = draft.outputs := by
    rw [h.signed]
    rfl
  rw [Transaction.Creates, Transaction.Creates, h.txHash_eq, houtputs]

/-- A signed rotation is accepted exactly when the owner of the output is registered with the root
of the batch that signed. -/
theorem IsRotation.accepts_iff {root : Bytes} {fee : ℤ}
    (h : IsRotation batchSeed i (w.rotationDraft fresh root fee u) hashData proof field tx)
    (hroot : root.length = 32) (hminimum : 5000 ≤ fee) (hpays : fee ≤ u.output.value)
    (hunlocked : u.output.lockEpoch ≤ w.currentEpoch) {v : Utxo}
    (hv : L.utxoSet.getUtxo u.txHash u.outputIndex = some v) (houtput : v.output = u.output)
    (hunspent : v.isSpent = false) :
    L.Accepts tx w.currentEpoch ↔
      L.authRegistry.isRegistered u.output.address = true ∧
        L.authRegistry.getAuthRoot u.output.address = some (batchRoot batchSeed) := by
  have hi : i < 1024 := h.reserved.2
  have hhash : tx.signingHash = .ok (sha3_256 hashData) := by
    rw [Transaction.signingHash, h.hashData_eq]
    rfl
  have hproved : ∀ authRoot, TemporalAuthTree.verifyAgainstRoot (sha3_256 hashData)
      (keySignature batchSeed i hashData) (field.take wotsPubSize) (rotationProof field) authRoot = true ↔
        authRoot = batchRoot batchSeed := by
    rw [h.reads.publicKey, h.reads.proof]
    exact TemporalAuthTree.verifyAgainstRoot_iff_of_getProof batchSeed _ hi h.path
  obtain rfl := h.signed
  constructor
  · intro haccepts
    have hrule := ((L.accepts_iff _ _).mp haccepts).2
    obtain ⟨inp, out, v', signingHash, authRoot, rule⟩ :=
      (L.validateRotateAuth_eq_ok _ _).mp hrule
    obtain rfl := List.singleton_injective rule.inputs
    obtain rfl := Option.some.inj (hv.symm.trans rule.unspent.1)
    obtain rfl := Except.ok.inj (hhash.symm.trans rule.hash)
    rw [← houtput, rule.currentRoot, (hproved authRoot).mp rule.proved]
    exact ⟨rule.registered, rfl⟩
  · intro howner
    have hsignature : (keySignature batchSeed i hashData).length = 2144 := Wots.length_sign _ _
    have hfind : L.findUtxo (signedInput (keySignature batchSeed i hashData) field u) = some v := hv
    have htotal := @totalOutput_rotationDraft w u fresh root fee hpays
    have hrule : L.RotateOk
        (signedDraft (keySignature batchSeed i hashData) field (w.rotationDraft fresh root fee u))
        w.currentEpoch (signedInput (keySignature batchSeed i hashData) field u)
        { value := 0, address := w.address, data := root } v (sha3_256 hashData)
        (batchRoot batchSeed) :=
      { inputs := rfl
        outputs := rfl
        dataLength := hroot
        unspent := ⟨hfind, hunspent⟩
        unlocked := by rwa [houtput]
        registered := by rw [houtput]; exact howner.1
        fieldLength := by simp [signedInput, h.reads.length, wotsPubSize]
        proofLength := by simp [signedInput, h.reads.length, h.reads.proofLength, wotsPubSize]
        hash := hhash
        currentRoot := by rw [houtput]; exact howner.2
        proved := (hproved _).mpr rfl
        reserved := by
          change 1022 ≤ rotationKeyIndex field
          rw [h.reads.keyIndex]
          exact h.reserved.1
        conserves := by
          rw [L.conserves_singleton (inputs_signedDraft _ _) hfind, houtput]
          exact htotal }
    refine (L.accepts_iff _ _).mpr ⟨⟨wellFormed_signedDraft hminimum hroot hsignature h.reads.length,
      le_rfl, Int.sub_le_self _ (by decide)⟩, ?_⟩
    exact (L.validateRotateAuth_eq_ok _ _).mpr ⟨_, _, _, _, _, hrule⟩

/-- An accepted rotation applies, and the entry of one owner gets the new root: the owner of the
output that was spent, or the wallet where the rotation is stored over that output. -/
theorem IsRotation.registry_after {root : Bytes} {fee : ℤ}
    (h : IsRotation batchSeed i (w.rotationDraft fresh root fee u) hashData proof field tx)
    (hroot : root.length = 32) {v : Utxo}
    (hv : L.utxoSet.getUtxo u.txHash u.outputIndex = some v) (houtput : v.output = u.output)
    (haccepts : L.Accepts tx w.currentEpoch) :
    (applyTransaction tx L).1 = .ok true ∧
    ∃ owner, (applyTransaction tx L).2.authRegistry = (L.authRegistry.rotateViaTx owner root).2 ∧
      (¬ (w.rotationDraft fresh root fee u).Creates (u.txHash, u.outputIndex) →
        owner = u.output.address) ∧
      ((w.rotationDraft fresh root fee u).Creates (u.txHash, u.outputIndex) →
        owner = w.address) := by
  have htype : tx.txType = .rotateAuth := by
    rw [h.signed]
    rfl
  have hrefs : tx.refs = [(u.txHash, u.outputIndex)] := by
    rw [h.signed]
    rfl
  have happlies : (applyTransaction tx L).1 = .ok true :=
    (applyTransaction_returns_true_iff haccepts).mpr
      ⟨by simp [hrefs], haccepts.packable (by simp [htype])⟩
  obtain ⟨inp, hinputs, href⟩ : ∃ inp, tx.inputs = [inp] ∧ inp.ref = (u.txHash, u.outputIndex) := by
    rw [h.signed]
    exact ⟨_, rfl, rfl⟩
  have hfirst : tx.outputs.head? = some { value := 0, address := w.address, data := root } := by
    rw [h.signed]
    rfl
  have hhead : tx.inputs.head? = some inp := by
    rw [hinputs]
    rfl
  obtain ⟨e, he, hregistry⟩ := authRegistry_applyTransaction_rotate happlies htype hfirst hhead
  have hentry : (applyTransaction tx L).2.utxoSet.utxos.get? (u.txHash, u.outputIndex) = some e := by
    rw [← href]
    exact he
  refine ⟨happlies, e.output.address, ?_, ?_, ?_⟩
  · rw [hregistry, List.take_of_length_le hroot.le]
  · intro hcreates
    rw [← h.creates_iff, ← href] at hcreates
    have hbefore : L.utxoSet.utxos.get? inp.ref = some v := by
      rw [href]
      exact hv
    obtain ⟨t, ht⟩ := get?_applyTransaction_input happlies (List.mem_of_head? hhead) hcreates hbefore
    rw [href, hentry] at ht
    rw [Option.some.inj ht, ← houtput]
    rfl
  · intro hcreates
    rw [← h.creates_iff] at hcreates
    obtain ⟨t, j, out, ht, hj, hkey⟩ := hcreates
    have hout := get?_applyTransaction_output happlies ht hj
    rw [← hkey, hentry] at hout
    rw [Option.some.inj hout]
    rw [h.signed] at hj
    exact @address_of_mem_rotationDraft w u fresh root fee out (List.mem_of_getElem? hj)

end Signed

/-- The wallet after a rotation that was confirmed. -/
def rotated (fresh : Fresh) (w : Wallet Bytes) : Wallet Bytes :=
  (confirmRotation (createRotationTx fresh none w).2).2

section Step

variable {seed : Bytes} {n : ℕ}

theorem inStep_iff (h : w.keyManager.AtBatch seed n) :
    InStep L w ↔ L.authRegistry.isRegistered w.address = true ∧
      L.authRegistry.getAuthRoot w.address = some (batchRoot (batchSeed seed n)) := by
  simp [InStep, h.authRoot]

theorem Ready.cases (h : Ready L w u) (hbatch : w.keyManager.AtBatch seed n)
    (hregistered : w.keyManager.isRegistered = true) (fresh : Fresh) :
    (∃ e, (w.nextDraft fresh (w.rotationFee none) u).hashData = .error e ∧
      (createRotationTx fresh none w).1 = .error e) ∨
    ∃ hashData proof field tx, (createRotationTx fresh none w).1 = .ok (some tx) ∧
      IsRotation (batchSeed seed n) w.keyManager.nextReserved
        (w.nextDraft fresh (w.rotationFee none) u) hashData proof field tx ∧
      (rotated fresh w).keyManager.AtBatch seed (n + 1) := by
  have hunused := h.unused
  rw [TemporalAuthTree.remainingRotationKeys] at hunused
  rcases createRotationTx_cases hbatch hregistered (by omega) h.largest h.pays fresh with
    herror | ⟨hashData, proof, field, tx, htx, hrotation, hnext⟩
  · exact Or.inl herror
  · have hkept := preserves_createRotationTx KeyManager.kept_atBatch fresh none w hbatch
    obtain ⟨p, hp⟩ := Option.isSome_iff_exists.mp hnext
    exact Or.inr ⟨hashData, proof, field, tx, htx, hrotation, (hkept.execute hp).2⟩

theorem length_nextRoot (w : Wallet Bytes) : w.keyManager.nextRoot.length = 32 :=
  MerkleTree.length_root (TemporalAuthTree.publicKeys_ne_nil _)

theorem Ready.isRotation (h : Ready L w u) (hbatch : w.keyManager.AtBatch seed n) {tx : Transaction}
    (htx : (createRotationTx fresh none w).1 = .ok (some tx)) :
    ∃ hashData proof field,
      IsRotation (batchSeed seed n) w.keyManager.nextReserved
        (w.nextDraft fresh (w.rotationFee none) u) hashData proof field tx ∧
      (rotated fresh w).keyManager.AtBatch seed (n + 1) := by
  rcases h.cases hbatch (isRegistered_of_createRotationTx htx) fresh with
    ⟨e, -, herror⟩ | ⟨hashData, proof, field, tx', htx', hrotation⟩
  · cases htx.symm.trans herror
  · obtain rfl : tx = tx' := Option.some.inj (Except.ok.inj (htx.symm.trans htx'))
    exact ⟨hashData, proof, field, hrotation⟩

/-- The chain accepts the rotation exactly when the owner of the output is registered under the root
of the current batch. -/
theorem accepts_rotation_iff (hbatch : w.keyManager.AtBatch seed n) (hready : Ready L w u)
    {tx : Transaction} (htx : (createRotationTx fresh none w).1 = .ok (some tx)) :
    L.Accepts tx w.currentEpoch ↔
      L.authRegistry.isRegistered u.output.address = true ∧
        L.authRegistry.getAuthRoot u.output.address = some (batchRoot (batchSeed seed n)) := by
  obtain ⟨hashData, proof, field, hrotation, -⟩ := hready.isRotation hbatch htx
  obtain ⟨v, hv, houtput, hunspent⟩ := hready.onChain
  have hfee : 5000 ≤ w.rotationFee none := by
    rw [hready.fee]
    decide
  exact hrotation.accepts_iff (length_nextRoot w) hfee hready.pays hready.unlocked hv houtput hunspent

/-- After a confirmed rotation the two are in step exactly when the owner whose entry was replaced
is the wallet, or the root did not change. -/
theorem inStep_rotated_iff (hbatch : w.keyManager.AtBatch seed n)
    (hnext : (rotated fresh w).keyManager.AtBatch seed (n + 1)) (hstep : InStep L w) {M : Ledger}
    {owner : Bytes} (howner : L.authRegistry.isRegistered owner = true)
    (hM : M.authRegistry = (L.authRegistry.rotateViaTx owner w.keyManager.nextRoot).2) :
    InStep M (rotated fresh w) ↔
      owner = w.address ∨ w.keyManager.authRoot = .ok w.keyManager.nextRoot := by
  have haddress : (rotated fresh w).address = w.address := hnext.address.trans hbatch.address.symm
  obtain ⟨hregistered, hroot⟩ := (inStep_iff hbatch).mp hstep
  rw [inStep_iff hnext, haddress, hM, AuthRegistry.isRegistered_rotateViaTx,
    AuthRegistry.getAuthRoot_rotateViaTx howner, hbatch.authRoot, hbatch.nextRoot, hroot]
  simp only [hregistered, true_and]
  split_ifs with hsame
  · simp [hsame]
  · simp [Ne.symm hsame]

/-- A rotation is accepted and leaves the two in step exactly when it spends an own output. -/
theorem rotation_iff_selectsOwn (hbatch : w.keyManager.AtBatch seed n) (hstep : InStep L w)
    (hready : Ready L w u) {tx : Transaction}
    (htx : (createRotationTx fresh none w).1 = .ok (some tx)) :
    L.Accepts tx w.currentEpoch ∧ InStep (applyTransaction tx L).2 (rotated fresh w) ↔
      SelectsOwn L w fresh u := by
  obtain ⟨hown, hroot⟩ := (inStep_iff hbatch).mp hstep
  obtain ⟨v, hv, houtput, -⟩ := hready.onChain
  obtain ⟨hashData, proof, field, hrotation, hnext⟩ := hready.isRotation hbatch htx
  have haccepts_iff := accepts_rotation_iff hbatch hready htx
  have hafter : ∀ haccepts : L.Accepts tx w.currentEpoch,
      InStep (applyTransaction tx L).2 (rotated fresh w) ↔
        u.output.address = w.address ∨ w.keyManager.authRoot = .ok w.keyManager.nextRoot ∨
          (w.nextDraft fresh (w.rotationFee none) u).Creates (u.txHash, u.outputIndex) := by
    intro haccepts
    obtain ⟨-, owner, hM, hforeign, hcreated⟩ :=
      hrotation.registry_after (length_nextRoot w) hv houtput haccepts
    by_cases hcreates : (w.nextDraft fresh (w.rotationFee none) u).Creates (u.txHash, u.outputIndex)
    · rw [hcreated hcreates] at hM
      simp [inStep_rotated_iff hbatch hnext hstep hown hM, hcreates]
    · rw [hforeign hcreates] at hM
      simp [inStep_rotated_iff hbatch hnext hstep (haccepts_iff.mp haccepts).1 hM, hcreates]
  rw [SelectsOwn, hroot]
  constructor
  · intro h
    rcases (hafter h.1).mp h.2 with hsame | hother
    · exact Or.inl hsame
    · obtain ⟨hregistry, hequal⟩ := haccepts_iff.mp h.1
      exact Or.inr ⟨hregistry, hequal, hother⟩
  · intro h
    rcases h with hsame | ⟨hregistry, hequal, hother⟩
    · have haccepts := haccepts_iff.mpr (by rw [hsame]; exact ⟨hown, hroot⟩)
      exact ⟨haccepts, (hafter haccepts).mpr (Or.inl hsame)⟩
    · have haccepts := haccepts_iff.mpr ⟨hregistry, hequal⟩
      exact ⟨haccepts, (hafter haccepts).mpr (Or.inr hother)⟩

/-- A ready wallet returns a rotation once it is marked as registered and the draft can be hashed. -/
theorem exists_rotation_iff (hbatch : w.keyManager.AtBatch seed n) (hready : Ready L w u) :
    (∃ tx, (createRotationTx fresh none w).1 = .ok (some tx)) ↔
      w.keyManager.isRegistered = true ∧ (w.nextDraft fresh (w.rotationFee none) u).Packable := by
  constructor
  · rintro ⟨tx, htx⟩
    have hregistered := isRegistered_of_createRotationTx htx
    refine ⟨hregistered, ?_⟩
    obtain ⟨hashData, proof, field, hrotation, -⟩ := hready.isRotation hbatch htx
    exact (Transaction.hashData_returns _).mp ⟨hashData, hrotation.data⟩
  · rintro ⟨hregistered, hpackable⟩
    rcases hready.cases hbatch hregistered fresh with
      ⟨e, herror, -⟩ | ⟨hashData, proof, field, tx, htx, -⟩
    · obtain ⟨hashData, hdata⟩ := (Transaction.hashData_returns _).mpr hpackable
      cases hdata.symm.trans herror
    · exact ⟨tx, htx⟩

end Step

/-- What happens between a wallet and the chain: a rotation and what its application returned, a
call on the wallet, or a transaction of somebody else. -/
inductive FlowEvent where
  | rotation (fresh : Fresh) (u : Utxo) (outcome : Option (Except PyError Bool))
  | call (call : Call)
  | transaction (tx : Transaction) (epoch : ℤ)

/-- The rotation of a ready wallet is submitted at once, and confirmed when it was applied. Other
calls do not move to the next batch, and other transactions leave the entry of the wallet alone. -/
inductive FlowStep : Ledger × Wallet Bytes → FlowEvent → Ledger × Wallet Bytes → Prop
  | rotation {L M : Ledger} {w : Wallet Bytes} {u : Utxo} {fresh : Fresh} {tx : Transaction}
      {outcome : Option (Except PyError Bool)} :
      Ready L w u → (createRotationTx fresh none w).1 = .ok (some tx) →
      submit tx w.currentEpoch L = (outcome, M) →
      FlowStep (L, w) (.rotation fresh u outcome)
        (M, if outcome = some (.ok true) then rotated fresh w else (createRotationTx fresh none w).2)
  | call {L : Ledger} {w : Wallet Bytes} {call : Call} : call.rotates = false →
      FlowStep (L, w) (.call call) (L, (apply call w).2)
  | transaction {L M : Ledger} {w : Wallet Bytes} {tx : Transaction} {epoch : ℤ}
      {outcome : Option (Except PyError Bool)} : submit tx epoch L = (outcome, M) →
      M.authRegistry.isRegistered w.address = L.authRegistry.isRegistered w.address →
      M.authRegistry.getAuthRoot w.address = L.authRegistry.getAuthRoot w.address →
      FlowStep (L, w) (.transaction tx epoch) (M, w)

def FlowEvent.SelectsOwn (s : Ledger × Wallet Bytes) : FlowEvent → Prop
  | .rotation fresh u _ => Wallet.SelectsOwn s.1 s.2 fresh u
  | _ => True

def FlowEvent.Applied : FlowEvent → Prop
  | .rotation _ _ outcome => outcome = some (.ok true)
  | _ => True

/-- The wallet is at a batch of its seed and in step with the chain. -/
def Follows (seed : Bytes) (s : Ledger × Wallet Bytes) : Prop :=
  (∃ n, s.2.keyManager.AtBatch seed n) ∧ InStep s.1 s.2

theorem Follows.step {seed : Bytes} {s t : Ledger × Wallet Bytes} {e : FlowEvent}
    (h : Follows seed s) (hown : e.SelectsOwn s) (hstep : FlowStep s e t) :
    Follows seed t ∧ e.Applied := by
  obtain ⟨⟨n, hbatch⟩, hinStep⟩ := h
  cases hstep with
  | @rotation L M w u fresh tx outcome hready htx hsubmit =>
    obtain ⟨haccepts, hafter⟩ := (rotation_iff_selectsOwn hbatch hinStep hready htx).mpr hown
    obtain ⟨hashData, proof, field, hrotation, hnext⟩ := hready.isRotation hbatch htx
    obtain ⟨v, hv, houtput, -⟩ := hready.onChain
    obtain ⟨happlies, -⟩ := hrotation.registry_after (length_nextRoot w) hv houtput haccepts
    rw [submit, if_pos haccepts, happlies] at hsubmit
    obtain ⟨rfl, rfl⟩ := Prod.mk.inj hsubmit
    rw [if_pos rfl]
    exact ⟨⟨⟨n + 1, hnext⟩, hafter⟩, rfl⟩
  | @call L w call hcall =>
    have hkept := atBatch_apply hbatch hcall
    have haddress : (apply call w).2.address = w.address := hkept.address.trans hbatch.address.symm
    refine ⟨⟨⟨n, hkept⟩, (inStep_iff hkept).mpr ?_⟩, trivial⟩
    rw [haddress]
    exact (inStep_iff hbatch).mp hinStep
  | @transaction L M w tx epoch outcome hsubmit hregistered hroot =>
    refine ⟨⟨⟨n, hbatch⟩, (inStep_iff hbatch).mpr ?_⟩, trivial⟩
    simp only [hregistered, hroot]
    exact (inStep_iff hbatch).mp hinStep

theorem Follows.run {seed : Bytes} {s t : Ledger × Wallet Bytes} {events : List FlowEvent}
    (hrun : Run (fun s e t => e.SelectsOwn s ∧ FlowStep s e t) s events t) (h : Follows seed s) :
    Follows seed t ∧ ∀ e ∈ events, e.Applied := by
  induction hrun with
  | nil s => exact ⟨h, by simp⟩
  | cons hstep _ ih =>
    obtain ⟨hnext, happlied⟩ := h.step hstep.1 hstep.2
    obtain ⟨hend, hrest⟩ := ih hnext
    exact ⟨hend, List.forall_mem_cons.mpr ⟨happlied, hrest⟩⟩

/-- The wallet was started from a seed and used since. -/
def Started (w : Wallet Bytes) : Prop :=
  ∃ config seed calls, w = after apply calls (init config seed)

/-- A wallet in step with the chain returns a rotation that is accepted and keeps the two in step
exactly when it spends an own output. In runs whose rotations all do, every rotation is applied and
the two are in step at the end. -/
theorem rotations_inStep_iff (hstarted : Started w) (hstep : InStep L w) :
    (∀ fresh u, Ready L w u →
      ((∃ tx, (createRotationTx fresh none w).1 = .ok (some tx)) ↔
        w.keyManager.isRegistered = true ∧
          (w.nextDraft fresh (w.rotationFee none) u).Packable) ∧
      ∀ tx, (createRotationTx fresh none w).1 = .ok (some tx) →
        (L.Accepts tx w.currentEpoch ∧ InStep (applyTransaction tx L).2 (rotated fresh w) ↔
          SelectsOwn L w fresh u)) ∧
    ∀ events M w', Run (fun s e t => e.SelectsOwn s ∧ FlowStep s e t) (L, w) events (M, w') →
      InStep M w' ∧ ∀ e ∈ events, e.Applied := by
  obtain ⟨config, seed, calls, rfl⟩ := hstarted
  obtain ⟨n, hbatch⟩ := exists_atBatch config seed calls
  constructor
  · intro fresh u hready
    exact ⟨exists_rotation_iff hbatch hready, fun tx htx =>
      rotation_iff_selectsOwn hbatch hstep hready htx⟩
  · intro events M w' hrun
    obtain ⟨hend, happlied⟩ := Follows.run hrun ⟨⟨n, hbatch⟩, hstep⟩
    exact ⟨hend.2, happlied⟩

/-- A registered wallet with one output, of an owner that is still to be chosen. -/
def twoAddresses (owner : Bytes) : Wallet Bytes :=
  after apply
    [.keys .markRegistered, .keys (.generateKeypair 0),
      .addUtxo (List.replicate 32 1) 0 { value := 1000000, address := owner } 0]
    (init {} KeyManager.exampleSeed)

def ownAddress : Bytes := (KeyManager.init KeyManager.exampleSeed).address

def legacyAddress : Bytes := ((KeyManager.init KeyManager.exampleSeed).newKeyPair 0).address

def paidUtxo (owner : Bytes) : Utxo :=
  { txHash := List.replicate 32 1
    outputIndex := 0
    output := { value := 1000000, address := owner }
    epochCreated := 0 }

def registeredChain (owner : Bytes) : Ledger where
  utxoSet := { utxos := OrderedDict.set ∅ (List.replicate 32 1, 0) (paidUtxo owner) }
  authRegistry :=
    { authRoots := OrderedDict.set ∅ ownAddress (batchRoot (batchSeed KeyManager.exampleSeed 0))
      registeredAddresses := {ownAddress} }

def exampleFresh : Fresh := ⟨0, List.replicate 8 0⟩

theorem started_twoAddresses (owner : Bytes) : Started (twoAddresses owner) := ⟨_, _, _, rfl⟩

theorem isRegistered_twoAddresses (owner : Bytes) :
    (twoAddresses owner).keyManager.isRegistered = true := rfl

theorem atBatch_twoAddresses (owner : Bytes) :
    (twoAddresses owner).keyManager.AtBatch KeyManager.exampleSeed 0 :=
  atBatch_apply (atBatch_apply (atBatch_apply (KeyManager.atBatch_init _) rfl) rfl) rfl

theorem inStep_twoAddresses (owner : Bytes) :
    InStep (registeredChain owner) (twoAddresses owner) := by
  have hbatch := atBatch_twoAddresses owner
  rw [inStep_iff hbatch, show (twoAddresses owner).address = ownAddress from hbatch.address]
  simp [registeredChain, AuthRegistry.isRegistered, AuthRegistry.getAuthRoot]

theorem ready_twoAddresses (owner : Bytes) :
    Ready (registeredChain owner) (twoAddresses owner) (paidUtxo owner) where
  feeRate := rfl
  unused := by
    change (0 : ℤ) < 2
    decide
  largest := rfl
  pays := by
    change (45940 : ℤ) ≤ 1000000
    decide
  onChain := ⟨paidUtxo owner, rfl, rfl, rfl⟩

theorem exists_rotation_twoAddresses (owner : Bytes) :
    ∃ tx, (createRotationTx exampleFresh none (twoAddresses owner)).1 = .ok (some tx) := by
  apply (exists_rotation_iff (atBatch_twoAddresses owner) (ready_twoAddresses owner)).mpr
  have hfee : (twoAddresses owner).rotationFee none = 45940 := (ready_twoAddresses owner).fee
  have hroot := length_nextRoot (twoAddresses owner)
  have hchange : (twoAddresses owner).changeOutputs 954060 =
      [{ value := 954060, address := (twoAddresses owner).address }] := rfl
  refine ⟨isRegistered_twoAddresses owner, ?_⟩
  have hepoch : (twoAddresses owner).currentEpoch = 0 := rfl
  constructor <;>
    simp [nextDraft, rotationDraft, newTx, hfee, hchange, hroot, hepoch, paidUtxo,
      Wallet.unsignedInput, exampleFresh]

theorem rotation_inStep_own : ∃ tx,
    (createRotationTx exampleFresh none (twoAddresses ownAddress)).1 = .ok (some tx) ∧
      (registeredChain ownAddress).Accepts tx 0 ∧
      InStep (applyTransaction tx (registeredChain ownAddress)).2
        (rotated exampleFresh (twoAddresses ownAddress)) := by
  obtain ⟨tx, htx⟩ := exists_rotation_twoAddresses ownAddress
  have hsteps := rotations_inStep_iff (started_twoAddresses ownAddress)
    (inStep_twoAddresses ownAddress)
  have hiff := (hsteps.1 exampleFresh _ (ready_twoAddresses ownAddress)).2 tx htx
  exact ⟨tx, htx, hiff.mpr (Or.inl (atBatch_twoAddresses ownAddress).address.symm)⟩

theorem legacyAddress_ne : legacyAddress ≠ ownAddress := by
  decide +kernel

/-- With a larger output at the address of its legacy key, the rotation is rejected. -/
theorem rotation_of_legacy_output_rejected :
    Started (twoAddresses legacyAddress) ∧
    (twoAddresses legacyAddress).isOurAddress legacyAddress = true ∧
    InStep (registeredChain legacyAddress) (twoAddresses legacyAddress) ∧
    Ready (registeredChain legacyAddress) (twoAddresses legacyAddress) (paidUtxo legacyAddress) ∧
    ∃ tx, (createRotationTx exampleFresh none (twoAddresses legacyAddress)).1 = .ok (some tx) ∧
      ¬ (registeredChain legacyAddress).Accepts tx (twoAddresses legacyAddress).currentEpoch := by
  obtain ⟨tx, htx⟩ := exists_rotation_twoAddresses legacyAddress
  refine ⟨started_twoAddresses _, ?_, inStep_twoAddresses _, ready_twoAddresses _, tx, htx, ?_⟩
  · have hpairs : (twoAddresses legacyAddress).keyManager.keyCache.values.flatten =
        [(KeyManager.init KeyManager.exampleSeed).newKeyPair 0] := rfl
    rw [isOurAddress, hpairs]
    simp [legacyAddress]
  · intro haccepts
    have howner := ((accepts_rotation_iff (atBatch_twoAddresses _) (ready_twoAddresses _) htx).mp
      haccepts).1
    simp [registeredChain, AuthRegistry.isRegistered, paidUtxo, legacyAddress_ne] at howner

end Wallet

end Qrtb
