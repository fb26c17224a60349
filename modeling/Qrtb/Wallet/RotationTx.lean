import Qrtb.Wallet.KeyFrame

/-!
# The rotation a wallet makes

A rotation spends the largest spendable output, wherever that output is. What the
builder returns is determined by the wallet, that output and what comes from
outside: it is a draft that does not depend on the keys, with the next reserved
key of the batch put into its only input.
-/

namespace Qrtb

open Keccak Stateful SeedSpace

namespace KeyManager

variable {seed : Bytes} {n : ℕ} {k : KeyManager Bytes}

/-- The number of the next reserved key. -/
def nextReserved (k : KeyManager Bytes) : ℕ := USABLE_KEYS + k.authTree.rotationIndex

def nextRoot (k : KeyManager Bytes) : Bytes := batchRoot (nextBatch k.currentBatchSeed)

theorem AtBatch.nextRoot (h : AtBatch seed n k) :
    k.nextRoot = batchRoot (Qrtb.batchSeed seed (n + 1)) := by
  rw [KeyManager.nextRoot, h.batched.current, h.number]
  rfl

theorem AtBatch.temporalSignRotation (h : AtBatch seed n k) (hregistered : k.isRegistered = true)
    (hunused : k.authTree.rotationIndex < RESERVED_ROTATION) {proof : List ProofEntry}
    (hproof : MerkleTree.getProof (publicKeys (Qrtb.batchSeed seed n)) k.nextReserved = .ok proof)
    (payload : Payload) :
    (temporalSignRotation payload k).1 = .ok
      { signature := Wots.sign payload.bytes
          (Wots.keygen (deriveKeySeed (Qrtb.batchSeed seed n) k.nextReserved)).1
        publicKey := batchKey (Qrtb.batchSeed seed n) k.nextReserved
        proof := proof
        keyIndex := k.nextReserved } := by
  have htree : (onTree (TemporalAuthTree.signRotation payload.bytes) k).1 = .ok
      { signature := Wots.sign payload.bytes
          (Wots.keygen (deriveKeySeed (Qrtb.batchSeed seed n) k.nextReserved)).1
        publicKey := batchKey (Qrtb.batchSeed seed n) k.nextReserved
        proof := proof
        keyIndex := k.nextReserved } := by
    change (TemporalAuthTree.signRotation payload.bytes k.authTree).1 = _
    rw [TemporalAuthTree.signRotation, if_neg (by omega), TemporalAuthTree.signWith, h.leaves,
      h.batchSeed]
    rw [nextReserved] at hproof ⊢
    simp only [hproof]
    rfl
  unfold KeyManager.temporalSignRotation signOnTree
  rw [reads_bind, if_neg (by simp [hregistered]), bind_of_ok htree]
  rfl

theorem next_temporalSignRotation (payload : Payload) (k : KeyManager Bytes) :
    (temporalSignRotation payload k).2.next = k.next := by
  unfold temporalSignRotation
  rcases signOnTree_cases TemporalAuthTree.signRotation payload k with hk | hk | ⟨s, -, hk⟩
  · rw [hk]
  · rw [hk]
  · rw [hk]

end KeyManager

namespace Wallet

section

variable {S : Type} {w : Wallet S} {u : Utxo}

/-- The first of the spendable outputs with the largest value. -/
def largestSpendable (w : Wallet S) : Option Utxo :=
  (w.getSpendableUtxos.insertionSort fun a b => b.output.value ≤ a.output.value).head?

theorem largestSpendable_spec (hu : w.largestSpendable = some u) :
    u ∈ w.utxos.values ∧ u.isSpent = false ∧ u.output.lockEpoch ≤ w.currentEpoch ∧
      ∀ v ∈ w.getSpendableUtxos, v.output.value ≤ u.output.value := by
  have : Std.Total fun a b : Utxo => b.output.value ≤ a.output.value :=
    ⟨fun a b => le_total b.output.value a.output.value⟩
  have : IsTrans Utxo fun a b => b.output.value ≤ a.output.value := ⟨fun _ _ _ h h' => h'.trans h⟩
  obtain ⟨rest, hrest⟩ := List.head?_eq_some_iff.mp hu
  have hmem : ∀ v, v ∈ w.getSpendableUtxos ↔ v ∈ u :: rest := by
    intro v
    rw [← hrest, List.mem_insertionSort]
  have hsorted := List.pairwise_insertionSort
    (fun a b : Utxo => b.output.value ≤ a.output.value) w.getSpendableUtxos
  rw [hrest, List.pairwise_cons] at hsorted
  have hspendable := (hmem u).mpr List.mem_cons_self
  simp only [getSpendableUtxos, List.mem_filter, Bool.and_eq_true, Bool.not_eq_true',
    decide_eq_true_eq] at hspendable
  refine ⟨hspendable.1, hspendable.2.1, hspendable.2.2, ?_⟩
  intro v hv
  rcases List.mem_cons.mp ((hmem v).mp hv) with rfl | hv
  · exact le_rfl
  · exact hsorted.1 v hv

theorem selectUtxos_of_largest (hu : w.largestSpendable = some u) {fee : ℤ}
    (hfee : fee ≤ u.output.value) : w.selectUtxos 0 fee = ([u], u.output.value) := by
  obtain ⟨rest, hrest⟩ := List.head?_eq_some_iff.mp hu
  rw [selectUtxos, hrest, selectLoop]
  simp [hfee]

end

def rotationDraft (fresh : Fresh) (newAuthRoot : Bytes) (fee : ℤ) (u : Utxo) (w : Wallet Bytes) :
    Transaction :=
  w.newTx .rotateAuth [u]
    ({ value := 0, address := w.address, data := newAuthRoot } ::
      w.changeOutputs (u.output.value - fee)) fee fresh

/-- Put signature and public-key field into the input. -/
def signedDraft (signature field : Bytes) (tx : Transaction) : Transaction :=
  { tx with
    inputs := tx.inputs.map fun inp => { inp with signature := signature, publicKey := field } }

def signedInput (signature field : Bytes) (u : Utxo) : TxInput :=
  { Wallet.unsignedInput u with signature := signature, publicKey := field }

section

variable {w : Wallet Bytes} {u : Utxo} {fresh : Fresh} {root : Bytes} {fee : ℤ}

theorem announceTx_rotateAuth (hu : w.largestSpendable = some u) (hfee : fee ≤ u.output.value) :
    w.announceTx .rotateAuth fresh root fee = .ok (some (w.rotationDraft fresh root fee u)) := by
  rw [announceTx, selectUtxos_of_largest hu hfee]
  simp only [if_neg (not_lt.mpr hfee)]
  rfl

theorem hashData_signedDraft (signature field : Bytes) (tx : Transaction) :
    (signedDraft signature field tx).hashData = tx.hashData := by
  simp only [signedDraft, Transaction.hashData, List.mapM_map, List.length_map]
  rfl

theorem inputs_signedDraft (signature field : Bytes) :
    (signedDraft signature field (w.rotationDraft fresh root fee u)).inputs =
      [signedInput signature field u] := rfl

theorem address_of_mem_rotationDraft :
    ∀ out ∈ (w.rotationDraft fresh root fee u).outputs, out.address = w.address := by
  unfold rotationDraft newTx changeOutputs
  split_ifs <;> simp

theorem totalOutput_rotationDraft (hfee : fee ≤ u.output.value) :
    (w.rotationDraft fresh root fee u).totalOutput + fee ≤ u.output.value := by
  unfold rotationDraft newTx changeOutputs Transaction.totalOutput
  split_ifs
  · simp
  · simpa using hfee

theorem wellFormed_signedDraft {signature field : Bytes} (hfee : 5000 ≤ fee)
    (hroot : root.length = 32) (hsignature : signature.length = 2144) (hfield : field.length = 2480) :
    (signedDraft signature field (w.rotationDraft fresh root fee u)).WellFormed := by
  have hsize : (signedDraft signature field (w.rotationDraft fresh root fee u)).size ≤ 4896 := by
    unfold signedDraft rotationDraft newTx changeOutputs
    split_ifs <;>
      simp [Transaction.size, TxInput.size, TxInput.proofSize, TxOutput.size, Wallet.unsignedInput,
        hroot, hsignature, hfield]
  exact
    { version := rfl
      hasInputs := by simp [signedDraft, rotationDraft, newTx]
      maxInputs := by simp [signedDraft, rotationDraft, newTx, MAX_INPUTS]
      hasOutputs := by simp [signedDraft, rotationDraft, newTx]
      maxOutputs := by
        unfold signedDraft rotationDraft newTx changeOutputs
        split_ifs <;> simp [MAX_OUTPUTS]
      maxSize := hsize.trans (by decide)
      noDust := by
        unfold signedDraft rotationDraft newTx changeOutputs
        split_ifs with h
        · simp [h]
        · simp
      minFee := by
        intro _
        rw [MIN_FEE_PER_BYTE, mul_one]
        change (_ : ℤ) ≤ fee
        omega }

end

/-- What the validator reads from a public-key field, with the lengths it checks. -/
structure ReadsAs (field pub : Bytes) (entries : List ProofEntry) (index : ℕ) : Prop where
  length : field.length = 2480
  publicKey : field.take wotsPubSize = pub
  proofLength : rotationProofLength field = 330
  proof : rotationProof field = entries
  keyIndex : rotationKeyIndex field = index

/-- The signature over a transaction with a key of a batch. -/
def keySignature (batchSeed : Bytes) (i : ℕ) (hashData : Bytes) : Bytes :=
  Wots.sign (sha3_256 hashData) (Wots.keygen (deriveKeySeed batchSeed i)).1

/-- The draft with the reserved key `i` of a batch in its input. -/
structure IsRotation (batchSeed : Bytes) (i : ℕ) (draft : Transaction) (hashData : Bytes)
    (proof : List ProofEntry) (field : Bytes) (tx : Transaction) : Prop where
  data : draft.hashData = .ok hashData
  reserved : USABLE_KEYS ≤ i ∧ i < TOTAL_KEYS_PER_BATCH
  path : MerkleTree.getProof (publicKeys batchSeed) i = .ok proof
  reads : ReadsAs field (batchKey batchSeed i) proof i
  signed : tx = signedDraft (keySignature batchSeed i hashData) field draft

/-- Proof and number of any key fit the public-key field, and the validator reads them back. -/
theorem exists_rotationField (batchSeed : Bytes) {i : ℕ} (hi : i < TOTAL_KEYS_PER_BATCH) :
    ∃ proof field, MerkleTree.getProof (publicKeys batchSeed) i = .ok proof ∧
      rotationField (batchKey batchSeed i) proof i = .ok field ∧
      ReadsAs field (batchKey batchSeed i) proof i := by
  obtain ⟨proof, hproof, hlength, -, hserial⟩ := Ledger.exists_proof batchSeed hi
  have hbytes := length_serializeProof hserial
  rw [hlength] at hbytes
  rw [TOTAL_KEYS_PER_BATCH] at hi
  obtain ⟨field, hfield⟩ : ∃ field, rotationField (batchKey batchSeed i) proof i = .ok field := by
    simp only [rotationField, Except.bind_eq_ok, structPack_eq_ok]
    exact ⟨_, _, ⟨by rw [hbytes]; omega, rfl⟩, _, ⟨by omega, rfl⟩, rfl⟩
  obtain ⟨hfieldLength, hpub, hproofLength, hparsed, hindex⟩ :=
    rotationField_eq_ok (Wots.length_publicKey _) hserial hfield
  rw [hlength] at hfieldLength hproofLength
  exact ⟨proof, field, hproof, hfield, hfieldLength, hpub, hproofLength, hparsed, hindex⟩

theorem isRegistered_of_createRotationTx {w : Wallet Bytes} {fresh : Fresh} {fee : Option ℤ}
    {tx : Transaction} (h : (createRotationTx fresh fee w).1 = .ok (some tx)) :
    w.keyManager.isRegistered = true := by
  cases hregistered : w.keyManager.isRegistered with
  | true => rfl
  | false =>
    rw [createRotationTx, reads_bind, if_pos hregistered] at h
    cases h

section

variable {seed : Bytes} {n : ℕ} {w : Wallet Bytes} {u : Utxo} {fee : Option ℤ}

/-- The draft of the rotation to the next batch. -/
def nextDraft (fresh : Fresh) (fee : ℤ) (u : Utxo) (w : Wallet Bytes) : Transaction :=
  w.rotationDraft fresh w.keyManager.nextRoot fee u

/-- A wallet at a batch that can pay prepares the next batch and returns the draft with the next
reserved key in its input, or raises when the draft cannot be hashed. -/
theorem createRotationTx_cases (h : w.keyManager.AtBatch seed n)
    (hregistered : w.keyManager.isRegistered = true)
    (hunused : w.keyManager.authTree.rotationIndex < RESERVED_ROTATION)
    (hu : w.largestSpendable = some u) (hfee : w.rotationFee fee ≤ u.output.value)
    (fresh : Fresh) :
    (∃ e, (nextDraft fresh (w.rotationFee fee) u w).hashData = .error e ∧
      (createRotationTx fresh fee w).1 = .error e) ∨
    ∃ hashData proof field tx, (createRotationTx fresh fee w).1 = .ok (some tx) ∧
      IsRotation (batchSeed seed n) w.keyManager.nextReserved
        (nextDraft fresh (w.rotationFee fee) u w) hashData proof field tx ∧
      (createRotationTx fresh fee w).2.keyManager.next.isSome = true := by
  have hprepared : (onKeys KeyManager.prepareRotation w).1 = .ok w.keyManager.nextRoot := rfl
  have hannounce : (onKeys KeyManager.prepareRotation w).2.announceTx .rotateAuth fresh
      w.keyManager.nextRoot ((onKeys KeyManager.prepareRotation w).2.rotationFee fee) =
      .ok (some (nextDraft fresh (w.rotationFee fee) u w)) := announceTx_rotateAuth hu hfee
  rw [createRotationTx, reads_bind, if_neg (by simp [hregistered]), bind_of_ok hprepared,
    reads_bind, hannounce, ofExcept_ok_bind]
  simp only
  cases hdata : (nextDraft fresh (w.rotationFee fee) u w).hashData with
  | error e => exact Or.inl ⟨e, rfl, rfl⟩
  | ok hashData =>
    right
    have hindex : w.keyManager.nextReserved < TOTAL_KEYS_PER_BATCH := by
      rw [RESERVED_ROTATION] at hunused
      simp only [KeyManager.nextReserved, USABLE_KEYS, RESERVED_ROTATION, TOTAL_KEYS_PER_BATCH]
      omega
    obtain ⟨proof, field, hproof, hfield, hreads⟩ := exists_rotationField (batchSeed seed n) hindex
    have hkept : (KeyManager.prepareRotation w.keyManager).2.AtBatch seed n :=
      KeyManager.kept_atBatch.prepareRotation _ h
    have hreserved : (KeyManager.prepareRotation w.keyManager).2.nextReserved =
        w.keyManager.nextReserved := rfl
    have hsigned : (onKeys (KeyManager.temporalSignRotation (.transaction hashData))
        (onKeys KeyManager.prepareRotation w).2).1 = _ :=
      hkept.temporalSignRotation hregistered hunused hproof (.transaction hashData)
    have hnext : (onKeys (KeyManager.temporalSignRotation (.transaction hashData))
        (onKeys KeyManager.prepareRotation w).2).2.keyManager.next =
        (KeyManager.prepareRotation w.keyManager).2.next :=
      KeyManager.next_temporalSignRotation _ _
    have hrotation := IsRotation.mk hdata ⟨Nat.le_add_right _ _, hindex⟩ hproof hreads rfl
    refine ⟨hashData, proof, field, _, ?_, hrotation, ?_⟩
    · rw [ofExcept_ok_bind, bind_of_ok hsigned]
      simp only [hreserved, hfield]
      rfl
    · rw [ofExcept_ok_bind, bind_of_ok hsigned]
      simp only [hreserved, hfield]
      rw [ofExcept_ok_bind, pure_apply, hnext]
      rfl

end

end Wallet

end Qrtb
