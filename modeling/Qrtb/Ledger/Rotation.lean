import Qrtb.Crypto.Soundness
import Qrtb.Ledger.Validator

/-!
# Which keys may rotate

A rotation carries its proof and a key number in the public-key field. The number
is compared with 1022 and with nothing else: the place of the key in the tree is
spelled by the flags of the proof, which are not looked at. So the accepted
rotations are those of any key of the batch.
-/

namespace Qrtb

open Keccak

/-- Every sibling followed by its flag as one byte. -/
def serializeProof (proof : List ProofEntry) : Bytes :=
  proof.flatMap fun e => e.1 ++ [UInt8.ofNat e.2]

/-- `wots_pub || proof_len || proof || key_index`. -/
def rotationField (pub : Bytes) (proof : List ProofEntry) (keyIndex : ℕ) : Except PyError Bytes := do
  let proofBytes := serializeProof proof
  let length ← structPack 2 proofBytes.length
  let index ← structPack 4 keyIndex
  return pub ++ (length ++ (proofBytes ++ index))

/-- A proof that survives serialization: siblings of digest size, flags of one byte. -/
def Serializable (proof : List ProofEntry) : Prop := ∀ e ∈ proof, e.1.length = 32 ∧ e.2 < 256

theorem length_serializeProof {proof : List ProofEntry} (h : Serializable proof) :
    (serializeProof proof).length = 33 * proof.length := by
  induction proof with
  | nil => rfl
  | cons e proof ih =>
    obtain ⟨he, hrest⟩ := List.forall_mem_cons.mp h
    simp only [serializeProof, List.flatMap_cons, List.length_append, List.length_cons,
      List.length_nil, he.1] at ih ⊢
    rw [ih hrest]
    omega

theorem parseProof_serializeProof {proof : List ProofEntry} (h : Serializable proof) :
    parseProof (serializeProof proof) = proof := by
  induction proof with
  | nil =>
    rw [parseProof, dif_neg (by simp [serializeProof])]
  | cons e proof ih =>
    obtain ⟨⟨hlen, hflag⟩, hrest⟩ := List.forall_mem_cons.mp h
    have hsplit : serializeProof (e :: proof) =
        e.1 ++ (UInt8.ofNat e.2 :: serializeProof proof) := by
      simp [serializeProof]
    have hlong : 33 ≤ (serializeProof (e :: proof)).length := by
      rw [length_serializeProof h, List.length_cons]
      omega
    have hget : (serializeProof (e :: proof)).get ⟨32, by omega⟩ = UInt8.ofNat e.2 := by
      simp [hsplit, List.getElem_append_right, hlen]
    rw [parseProof, dif_pos hlong, hget, hsplit, List.take_left' hlen,
      show (33 : ℕ) = 32 + 1 from rfl, ← List.drop_drop, List.drop_left' hlen, List.drop_one,
      List.tail_cons, ih hrest, UInt8.toNat_ofNat', Nat.mod_eq_of_lt hflag]

theorem rotationField_eq_ok {pub : Bytes} (hpub : pub.length = wotsPubSize)
    {proof : List ProofEntry} (hproof : Serializable proof) {keyIndex : ℕ} {field : Bytes}
    (h : rotationField pub proof keyIndex = .ok field) :
    field.length = wotsPubSize + 2 + 33 * proof.length + 4 ∧ field.take wotsPubSize = pub ∧
      rotationProofLength field = 33 * proof.length ∧ rotationProof field = proof ∧
      rotationKeyIndex field = keyIndex := by
  simp only [rotationField, Except.bind_eq_ok, structPack_eq_ok] at h
  obtain ⟨length, ⟨hn, rfl⟩, index, ⟨hi, rfl⟩, hfield⟩ := h
  have hbytes := length_serializeProof hproof
  rw [hbytes] at hn hfield
  obtain rfl := Except.ok.inj hfield
  simp only [Int.toNat_natCast]
  have hparts : pub ++ (Bytes.bigEndian 2 (33 * proof.length) ++
      (serializeProof proof ++ Bytes.bigEndian 4 keyIndex)) =
      [pub, Bytes.bigEndian 2 (33 * proof.length), serializeProof proof,
        Bytes.bigEndian 4 keyIndex].flatten := by simp
  have hlength : rotationProofLength (pub ++ (Bytes.bigEndian 2 (33 * proof.length) ++
      (serializeProof proof ++ Bytes.bigEndian 4 keyIndex))) = 33 * proof.length := by
    rw [rotationProofLength, hparts, Bytes.slice_flatten _ 1 _ _ rfl (by simp [hpub]) (by simp),
      Bytes.toNat_bigEndian (by omega)]
  refine ⟨by simp [hpub, hbytes, Nat.add_assoc], by simp [hpub], hlength, ?_, ?_⟩
  · rw [rotationProof, hlength, hparts, Bytes.slice_flatten _ 2 _ _ rfl (by simp [hpub])
      (by simp [hbytes]), parseProof_serializeProof hproof]
  · rw [rotationKeyIndex, hlength, hparts, Bytes.slice_flatten _ 3 _ _ rfl
      (by simp [hpub, hbytes, Nat.add_assoc]) (by simp), Bytes.toNat_bigEndian (by omega)]

/-- The public key number `i` of a batch. -/
def batchKey (batchSeed : Bytes) (i : ℕ) : Bytes := (Wots.keygen (deriveKeySeed batchSeed i)).2

theorem keygenInputs_subset_treeInputs (batchSeed : Bytes) {i : ℕ} (hi : i < 1024) :
    Wots.keygenInputs (deriveKeySeed batchSeed i) ⊆ TemporalAuthTree.treeInputs batchSeed := by
  intro m hm
  exact List.mem_append_left _ (List.mem_flatMap.mpr ⟨i, List.mem_range.mpr hi, hm⟩)

/-- Equal keys of a batch have equal seeds, or strings hashed for the tree collide. -/
theorem batchKey_inj {batchSeed : Bytes} {i j : ℕ} (hi : i < 1024) (hj : j < 1024)
    (h : batchKey batchSeed i = batchKey batchSeed j) :
    deriveKeySeed batchSeed i = deriveKeySeed batchSeed j ∨
      CollisionIn (TemporalAuthTree.treeInputs batchSeed) := by
  rcases Wots.publicKey_inj h with hseed | hcollision
  · exact Or.inl hseed
  · exact Or.inr (hcollision.mono (List.append_subset.mpr
      ⟨keygenInputs_subset_treeInputs batchSeed hi, keygenInputs_subset_treeInputs batchSeed hj⟩))

theorem length_of_mem_parseProof {data : Bytes} : ∀ e ∈ parseProof data, e.1.length = 32 := by
  induction data using parseProof.induct with
  | case1 data h ih =>
    rw [parseProof, dif_pos h, List.forall_mem_cons]
    refine ⟨?_, ih⟩
    rw [List.length_take]
    omega
  | case2 data h =>
    rw [parseProof, dif_neg h]
    simp

namespace Ledger

variable {L : Ledger} {tx : Transaction} {currentEpoch : ℤ}

/-- The rotation is made with a key reserved for it, or two different strings hashed for the tree
or for the verification collide. -/
def UsesReservedKey (batchSeed signingHash : Bytes) (inp : TxInput) : Prop :=
  (inp.publicKey.take wotsPubSize = batchKey batchSeed 1022 ∨
      inp.publicKey.take wotsPubSize = batchKey batchSeed 1023) ∨
    TemporalAuthTree.Collides batchSeed signingHash inp.signature
      (inp.publicKey.take wotsPubSize) (rotationProof inp.publicKey)

/-- An accepted rotation is made with a reserved key exactly when the flags of its proof spell the
number of one; otherwise two key seeds of the batch are equal, or hashed strings collide. -/
theorem rotation_usesReservedKey_iff (h : L.Accepts tx currentEpoch)
    (htype : tx.txType = .rotateAuth) {batchSeed signingHash : Bytes} {inp : TxInput} {u : Utxo}
    (hinp : tx.inputs = [inp]) (hu : L.findUtxo inp = some u)
    (hroot : L.authRegistry.getAuthRoot u.output.address = some (batchRoot batchSeed))
    (hhash : tx.signingHash = .ok signingHash) :
    UsesReservedKey batchSeed signingHash inp ↔
      (∃ i, (i = 1022 ∨ i = 1023) ∧
        deriveKeySeed batchSeed (HashTree.position (rotationProof inp.publicKey)) =
          deriveKeySeed batchSeed i) ∨
      TemporalAuthTree.Collides batchSeed signingHash inp.signature
        (inp.publicKey.take wotsPubSize) (rotationProof inp.publicKey) := by
  have hrule := ((L.accepts_iff tx currentEpoch).mp h).2
  rw [validateByType, htype] at hrule
  obtain ⟨inp', out, u', sh, root, rule⟩ := (L.validateRotateAuth_eq_ok tx currentEpoch).mp hrule
  obtain rfl : inp' = inp := by simpa [rule.inputs] using hinp
  obtain rfl := Option.some.inj (rule.unspent.1.symm.trans hu)
  obtain rfl := Option.some.inj (rule.currentRoot.symm.trans hroot)
  obtain rfl := Except.ok.inj (rule.hash.symm.trans hhash)
  have hsiblings : ∀ e ∈ rotationProof inp'.publicKey, e.1.length = 32 := length_of_mem_parseProof
  rcases TemporalAuthTree.accepted_at_position hsiblings rule.proved with
    ⟨hlen, hkey⟩ | hcollides
  · have hposition := HashTree.position_lt (rotationProof inp'.publicKey)
    rw [hlen] at hposition
    rw [UsesReservedKey, hkey]
    constructor
    · intro huses
      rcases huses with hreserved | hcollides
      · obtain ⟨i, hi, heq⟩ : ∃ i, (i = 1022 ∨ i = 1023) ∧
            batchKey batchSeed (HashTree.position (rotationProof inp'.publicKey)) =
              batchKey batchSeed i := by
          rcases hreserved with heq | heq
          · exact ⟨1022, Or.inl rfl, heq⟩
          · exact ⟨1023, Or.inr rfl, heq⟩
        rcases batchKey_inj hposition (by omega) heq with hseed | hcollision
        · exact Or.inl ⟨i, hi, hseed⟩
        · exact Or.inr (hcollision.mono (List.subset_append_left _ _))
      · exact Or.inr hcollides
    · intro hcondition
      rcases hcondition with ⟨i, hi, hseed⟩ | hcollides
      · left
        rw [hseed]
        rcases hi with rfl | rfl
        · exact Or.inl rfl
        · exact Or.inr rfl
      · exact Or.inr hcollides
  · exact ⟨fun _ => Or.inr hcollides, fun _ => Or.inr hcollides⟩

def rotationOwner : Bytes := List.replicate 64 9

def rotationRef : OutRef := (List.replicate 32 1, 0)

def rotationUtxo : Utxo :=
  { txHash := rotationRef.1, outputIndex := rotationRef.2,
    output := { value := 1000000, address := rotationOwner }, epochCreated := 0 }

def rotationLedger (batchSeed : Bytes) : Ledger where
  utxoSet := { utxos := OrderedDict.set ∅ rotationRef rotationUtxo }
  authRegistry :=
    { authRoots := OrderedDict.set ∅ rotationOwner (batchRoot batchSeed)
      registeredAddresses := {rotationOwner} }

def rotationInput (signature field : Bytes) : TxInput :=
  { prevTxHash := rotationRef.1, outputIndex := rotationRef.2, signature := signature,
    publicKey := field }

def rotationOutput : TxOutput :=
  { value := 0, address := rotationOwner, data := List.replicate 32 7 }

def rotationTx (signature field : Bytes) : Transaction where
  version := TX_VERSION
  txType := .rotateAuth
  inputs := [rotationInput signature field]
  outputs := [rotationOutput]
  epoch := 0
  timestamp := 0
  fee := 100000
  nonce := List.replicate 8 0

theorem packable_rotationTx : (rotationTx [] []).Packable := by decide

theorem wellFormed_rotationTx {signature field : Bytes} (hs : signature.length = 2144)
    (hf : field.length = 2480) : (rotationTx signature field).WellFormed := by
  have hsize : (rotationTx signature field).size = 4814 := by
    simp [rotationTx, Transaction.size, TxInput.size, TxInput.proofSize, TxOutput.size,
      rotationInput, rotationOutput, hs, hf]
  exact
    { version := rfl
      hasInputs := by simp [rotationTx]
      maxInputs := by simp [rotationTx, MAX_INPUTS]
      hasOutputs := by simp [rotationTx]
      maxOutputs := by simp [rotationTx, MAX_OUTPUTS]
      maxSize := by rw [hsize]; decide
      noDust := by simp [rotationTx, rotationOutput]
      minFee := by
        intro _
        rw [hsize]
        norm_num [rotationTx, MIN_FEE_PER_BYTE] }

theorem exists_proof (batchSeed : Bytes) {i : ℕ} (hi : i < 1024) :
    ∃ proof, MerkleTree.getProof (publicKeys batchSeed) i = .ok proof ∧ proof.length = 10 ∧
      HashTree.position proof = i ∧ Serializable proof := by
  have hleaf : i < (publicKeys batchSeed).length := by rwa [TemporalAuthTree.length_publicKeys]
  have hdepth := TemporalAuthTree.depth_publicKeys batchSeed
  have hi' : i < 2 ^ (MerkleTree.depth (publicKeys batchSeed) - 0) := by
    rw [hdepth]
    exact hi
  refine ⟨_, MerkleTree.getProof_eq_ok hleaf, ?_, ?_, ?_⟩
  · rw [HashTree.length_path, hdepth]
  · rw [HashTree.position_path, hdepth]
    exact Nat.mod_eq_of_lt hi
  · intro e he
    have hk : 0 + MerkleTree.depth (publicKeys batchSeed) ≤
        MerkleTree.depth (publicKeys batchSeed) := by omega
    have hlen := MerkleTree.length_of_mem_path (TemporalAuthTree.publicKeys_ne_nil batchSeed)
      hk hi' e he
    have hflag := HashTree.flag_lt_of_mem_path MerkleTree.joinHash _ e he
    exact ⟨hlen, by omega⟩

/-- The rotation with a key of the batch is accepted, whatever the number of the key. -/
theorem accepts_rotationTx (batchSeed : Bytes) {i : ℕ} (hi : i < 1024) {proof : List ProofEntry}
    (hproof : MerkleTree.getProof (publicKeys batchSeed) i = .ok proof)
    {signingHash signature field : Bytes}
    (hhash : (rotationTx [] []).signingHash = .ok signingHash)
    (hsignature : signature = Wots.sign signingHash (Wots.keygen (deriveKeySeed batchSeed i)).1)
    (hlength : field.length = 2480) (hpub : field.take wotsPubSize = batchKey batchSeed i)
    (hproofLength : rotationProofLength field = 330) (hparsed : rotationProof field = proof)
    (hindex : rotationKeyIndex field = 1022) :
    (rotationLedger batchSeed).Accepts (rotationTx signature field) 0 := by
  have hwell : (rotationTx signature field).WellFormed := by
    apply wellFormed_rotationTx _ hlength
    rw [hsignature]
    exact Wots.length_sign _ _
  refine ((rotationLedger batchSeed).accepts_iff _ _).mpr ⟨⟨hwell, le_rfl, ?_⟩, ?_⟩
  · show (0 : ℤ) - 1 ≤ 0
    decide
  apply ((rotationLedger batchSeed).validateRotateAuth_eq_ok _ _).mpr
  refine ⟨rotationInput signature field, rotationOutput, rotationUtxo, signingHash,
    batchRoot batchSeed, ?_⟩
  exact
    { inputs := rfl
      outputs := rfl
      dataLength := rfl
      unspent := ⟨rfl, rfl⟩
      unlocked := le_rfl
      registered := by simp [rotationLedger, AuthRegistry.isRegistered, rotationUtxo]
      fieldLength := by simp [rotationInput, hlength, wotsPubSize]
      proofLength := by simp [rotationInput, hlength, hproofLength, wotsPubSize]
      hash := hhash
      currentRoot := by simp [rotationLedger, AuthRegistry.getAuthRoot, rotationUtxo]
      proved := by
        simp only [rotationInput, hparsed, hpub, hsignature]
        exact TemporalAuthTree.verifyAgainstRoot_of_getProof batchSeed signingHash hi hproof
      reserved := by simp [rotationInput, hindex]
      conserves := (conserves_singleton _ rfl rfl).mpr (by
        simp [Transaction.totalOutput, rotationTx, rotationOutput, rotationUtxo]) }

/-- Checking a signature with a key of the batch hashes nothing but the message and strings that
were hashed for the tree. -/
theorem verifyInputs_subset (batchSeed message : Bytes) {i : ℕ} (hi : i < 1024)
    {proof : List ProofEntry} (hproof : MerkleTree.getProof (publicKeys batchSeed) i = .ok proof) :
    TemporalAuthTree.verifyInputs message
        (Wots.sign message (Wots.keygen (deriveKeySeed batchSeed i)).1) (batchKey batchSeed i) proof ⊆
      message :: TemporalAuthTree.treeInputs batchSeed := by
  have hleaf : i < (publicKeys batchSeed).length := by rwa [TemporalAuthTree.length_publicKeys]
  have hkey := TemporalAuthTree.getElem_publicKeys batchSeed hleaf
  have hclimb := MerkleTree.climbInputs_getProof_subset hleaf hproof
  rw [hkey] at hclimb
  have hbuild : ∀ m ∈ MerkleTree.buildInputs (publicKeys batchSeed),
      m ∈ message :: TemporalAuthTree.treeInputs batchSeed := by
    intro m hm
    exact List.mem_cons_of_mem _ (List.mem_append_right _ hm)
  intro m hm
  rcases List.mem_append.mp hm with hm | hm
  · rcases List.mem_cons.mp (Wots.verifyInputs_sign_subset message _ hm) with rfl | hm
    · exact List.mem_cons_self
    · exact List.mem_cons_of_mem _ (keygenInputs_subset_treeInputs batchSeed hi hm)
  · rcases List.mem_cons.mp hm with rfl | hm
    · apply hbuild
      apply List.mem_append_left
      have hmem := List.getElem_mem hleaf
      rwa [hkey] at hmem
    · exact hbuild m (hclimb hm)

/-- Any key of a batch can rotate, and at most strings hashed for the tree and the signing hash
could collide. -/
theorem exists_rotation (batchSeed : Bytes) {i : ℕ} (hi : i < 1024) :
    ∃ (L : Ledger) (tx : Transaction) (inp : TxInput) (u : Utxo) (signingHash : Bytes),
      L.Accepts tx 0 ∧ tx.txType = .rotateAuth ∧ tx.inputs = [inp] ∧ L.findUtxo inp = some u ∧
      L.authRegistry.getAuthRoot u.output.address = some (batchRoot batchSeed) ∧
      tx.signingHash = .ok signingHash ∧
      inp.publicKey.take wotsPubSize = batchKey batchSeed i ∧
      HashTree.position (rotationProof inp.publicKey) = i ∧
      (TemporalAuthTree.Collides batchSeed signingHash inp.signature
          (inp.publicKey.take wotsPubSize) (rotationProof inp.publicKey) →
        CollisionIn (signingHash :: TemporalAuthTree.treeInputs batchSeed)) := by
  obtain ⟨signingHash, hhash⟩ := (rotationTx [] []).txHash_returns.mpr packable_rotationTx
  obtain ⟨proof, hproof, hlength, hposition, hserial⟩ := exists_proof batchSeed hi
  have hbytes := length_serializeProof hserial
  obtain ⟨field, hfield⟩ : ∃ field, rotationField (batchKey batchSeed i) proof 1022 = .ok field := by
    rw [rotationField, hbytes, hlength]
    exact ⟨_, rfl⟩
  obtain ⟨hfieldLength, hpub, hproofLength, hparsed, hindex⟩ :=
    rotationField_eq_ok (Wots.length_publicKey _) hserial hfield
  rw [hlength] at hfieldLength hproofLength
  have haccepts := accepts_rotationTx batchSeed hi hproof hhash rfl hfieldLength hpub hproofLength
    hparsed hindex
  refine ⟨_, _, rotationInput _ field, rotationUtxo, signingHash, haccepts, rfl, rfl, rfl, ?_,
    hhash, hpub, ?_, ?_⟩
  · simp [rotationLedger, AuthRegistry.getAuthRoot, rotationUtxo]
  · exact (congrArg HashTree.position hparsed).trans hposition
  · intro hcollides
    simp only [rotationInput, hparsed, hpub] at hcollides
    apply hcollides.mono
    rw [List.append_subset]
    exact ⟨List.subset_cons_self _ _, verifyInputs_subset batchSeed signingHash hi hproof⟩

theorem rotation_usesReservedKey_last : ∃ (L : Ledger) (tx : Transaction) (inp : TxInput)
    (signingHash : Bytes), L.Accepts tx 0 ∧ tx.inputs = [inp] ∧
      UsesReservedKey [] signingHash inp := by
  obtain ⟨L, tx, inp, u, h, haccepts, htype, hinp, hu, hroot, hhash, -, hposition, -⟩ :=
    exists_rotation [] (i := 1023) (by omega)
  refine ⟨L, tx, inp, h, haccepts, hinp, ?_⟩
  rw [rotation_usesReservedKey_iff haccepts htype hinp hu hroot hhash, hposition]
  exact Or.inl ⟨1023, Or.inr rfl, rfl⟩

theorem first_chain_ne :
    Wots.hashChain (Wots.chainSeed (deriveKeySeed [] 0) 0) 15 ∉
      [Wots.hashChain (Wots.chainSeed (deriveKeySeed [] 1022) 0) 15,
        Wots.hashChain (Wots.chainSeed (deriveKeySeed [] 1023) 0) 15] := by
  decide +kernel

/-- The first key of a batch rotates. The claim of a reserved key could only be saved by a collision
among the signing hash and the strings hashed to build an honest tree. -/
theorem ordinary_key_rotates : ∃ (L : Ledger) (tx : Transaction) (inp : TxInput) (u : Utxo)
    (signingHash : Bytes),
      L.Accepts tx 0 ∧ tx.txType = .rotateAuth ∧ tx.inputs = [inp] ∧ L.findUtxo inp = some u ∧
      L.authRegistry.getAuthRoot u.output.address = some (batchRoot []) ∧
      tx.signingHash = .ok signingHash ∧ inp.publicKey.take wotsPubSize = batchKey [] 0 ∧
      batchKey [] 0 ≠ batchKey [] 1022 ∧ batchKey [] 0 ≠ batchKey [] 1023 ∧
      (UsesReservedKey [] signingHash inp →
        CollisionIn (signingHash :: TemporalAuthTree.treeInputs [])) := by
  obtain ⟨L, tx, inp, u, h, haccepts, htype, hinp, hu, hroot, hhash, hpub, -, hcollides⟩ :=
    exists_rotation [] (i := 0) (by omega)
  have hchains := first_chain_ne
  rw [List.mem_cons, List.mem_singleton, not_or] at hchains
  have hne : ∀ j, Wots.hashChain (Wots.chainSeed (deriveKeySeed [] 0) 0) 15 ≠
      Wots.hashChain (Wots.chainSeed (deriveKeySeed [] j) 0) 15 → batchKey [] 0 ≠ batchKey [] j := by
    intro j hj he
    apply hj
    have hblock : ∀ seed, Wots.chainBlock (Wots.keygen seed).2 0 =
        Wots.hashChain (Wots.chainSeed seed 0) 15 :=
      fun seed => Wots.chainBlock_publicKey seed (by decide)
    rw [← hblock, ← hblock]
    exact congrArg (Wots.chainBlock · 0) he
  refine ⟨L, tx, inp, u, h, haccepts, htype, hinp, hu, hroot, hhash, hpub, hne 1022 hchains.1,
    hne 1023 hchains.2, ?_⟩
  intro huses
  rcases huses with (heq | heq) | hcollision
  · exact absurd (hpub.symm.trans heq) (hne 1022 hchains.1)
  · exact absurd (hpub.symm.trans heq) (hne 1023 hchains.2)
  · exact hcollides hcollision

end Ledger

end Qrtb
