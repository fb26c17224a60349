import Qrtb.Crypto.TemporalAuth

/-!
# Keys accepted under a batch root

What `verify_against_root` accepts against the root of a batch is a key of that
batch, and the flags of the proof spell its number. A shorter proof would present
an inner node as a key, which is too short for the checksum chains of a
signature; a longer one would hash a pair of digests to the digest of a key.
-/

namespace Qrtb

open Keccak MerkleTree

namespace MerkleTree

theorem climbInputs_append (current : Bytes) (front back : List ProofEntry) :
    climbInputs current (front ++ back) =
      climbInputs current front ++ climbInputs (front.foldl climb current) back := by
  induction front generalizing current with
  | nil => rfl
  | cons entry front ih => simp [climbInputs, ih]

/-- A climb of at least one step ends in the digest of two joined digests. -/
theorem exists_last_climbInput {current : Bytes} {proof : List ProofEntry}
    (hcurrent : current.length = 32) (hproof : ∀ e ∈ proof, e.1.length = 32) (hne : proof ≠ []) :
    ∃ m ∈ climbInputs current proof, proof.foldl climb current = sha3_256 m ∧ m.length = 64 := by
  induction proof generalizing current with
  | nil => exact absurd rfl hne
  | cons entry proof ih =>
    rw [List.forall_mem_cons] at hproof
    cases hrest : proof with
    | nil =>
      refine ⟨_, List.mem_cons_self, ?_, ?_⟩
      · simp only [List.foldl_cons, List.foldl_nil, climb]
        split_ifs <;> rfl
      · split_ifs <;> simp [hcurrent, hproof.1]
    | cons next rest =>
      have hlen : (climb current entry).length = 32 := by
        unfold climb
        split_ifs <;> exact length_sha3_256 _
      obtain ⟨m, hm, hfold, hlength⟩ := ih hlen hproof.2 (by simp [hrest])
      rw [hrest] at hm hfold
      exact ⟨m, List.mem_cons_of_mem _ hm, hfold, hlength⟩

/-- An inner node is the digest of a string of 64 bytes hashed in the construction. -/
theorem exists_nodeInput {leaves : List Bytes} (hne : leaves ≠ []) {k i : ℕ}
    (hk : k < depth leaves) (hi : i < 2 ^ (depth leaves - (k + 1))) :
    ∃ m ∈ buildInputs leaves, nodeAt leaves (k + 1) i = sha3_256 m ∧ m.length = 64 := by
  have hd : depth leaves - k = depth leaves - (k + 1) + 1 := by omega
  have hchildren : ∀ j < 2 * 2 ^ (depth leaves - (k + 1)), (nodeAt leaves k j).length = 32 := by
    intro j hj
    apply length_nodeAt leaves hne
    rwa [hd, pow_succ']
  refine ⟨_, mem_buildInputs_of_isTreePair hne ⟨k, i, hk, hi, rfl⟩, rfl, ?_⟩
  have hleft := hchildren (2 * i) (by omega)
  have hright := hchildren (2 * i + 1) (by omega)
  rw [nodeAt] at hleft hright
  simp [hleft, hright]

end MerkleTree

namespace TemporalAuthTree

/-- The strings hashed while a tree is built. -/
def treeInputs (batchSeed : Bytes) : List Bytes :=
  ((List.range TOTAL_KEYS_PER_BATCH).flatMap fun i =>
    Wots.keygenInputs (deriveKeySeed batchSeed i)) ++ buildInputs (publicKeys batchSeed)

/-- The strings hashed by an accepting `verify_against_root`. -/
def verifyInputs (message signature publicKey : Bytes) (proof : List ProofEntry) : List Bytes :=
  Wots.verifyInputs message signature ++
    publicKey :: climbInputs (sha3_256 publicKey) proof

/-- Two different strings hashed in the construction or in the verification collide. -/
def Collides (batchSeed message signature publicKey : Bytes) (proof : List ProofEntry) : Prop :=
  CollisionIn (treeInputs batchSeed ++ verifyInputs message signature publicKey proof)

theorem depth_publicKeys (batchSeed : Bytes) : depth (publicKeys batchSeed) = 10 := by
  rw [depth, length_publicKeys]
  decide

theorem verifyAgainstRoot_eq_true {message signature publicKey authRoot : Bytes}
    {proof : List ProofEntry} :
    verifyAgainstRoot message signature publicKey proof authRoot = true ↔
      Wots.verify message signature publicKey = true ∧
        proof.foldl climb (sha3_256 publicKey) = authRoot := by
  rw [verifyAgainstRoot, Bool.and_eq_true, verifyProof, if_neg (by simp [length_sha3_256]),
    beq_iff_eq]

section

variable {batchSeed message signature publicKey : Bytes} {proof : List ProofEntry}

theorem mem_inputs_of_mem_buildInputs {m : Bytes} (h : m ∈ buildInputs (publicKeys batchSeed)) :
    m ∈ treeInputs batchSeed ++ verifyInputs message signature publicKey proof :=
  List.mem_append_left _ (List.mem_append_right _ h)

theorem mem_inputs_of_mem_climbInputs {m : Bytes}
    (h : m ∈ climbInputs (sha3_256 publicKey) proof) :
    m ∈ treeInputs batchSeed ++ verifyInputs message signature publicKey proof :=
  List.mem_append_right _ (List.mem_append_right _ (List.mem_cons_of_mem _ h))

theorem publicKey_mem_inputs :
    publicKey ∈ treeInputs batchSeed ++ verifyInputs message signature publicKey proof :=
  List.mem_append_right _ (List.mem_append_right _ List.mem_cons_self)

theorem exists_leafInput (batchSeed : Bytes) {i : ℕ} (hi : i < 1024) :
    ∃ key ∈ buildInputs (publicKeys batchSeed), nodeAt (publicKeys batchSeed) 0 i = sha3_256 key ∧
      key = (Wots.keygen (deriveKeySeed batchSeed i)).2 := by
  have hi' : i < (publicKeys batchSeed).length := by rwa [length_publicKeys]
  refine ⟨(publicKeys batchSeed)[i], List.mem_append_left _ (List.getElem_mem hi'),
    leafAt_of_lt hi', getElem_publicKeys batchSeed hi'⟩

theorem collides_of_long_proof (hproof : ∀ e ∈ proof, e.1.length = 32) (hlong : 10 < proof.length)
    (hroot : proof.foldl climb (sha3_256 publicKey) = batchRoot batchSeed) :
    Collides batchSeed message signature publicKey proof := by
  let front := proof.take (proof.length - 10)
  let back := proof.drop (proof.length - 10)
  have hsplit : front ++ back = proof := List.take_append_drop _ _
  have hback : back.length = 10 := by
    rw [List.length_drop]
    omega
  have hfront : front ≠ [] := by
    apply List.ne_nil_of_length_pos
    rw [List.length_take]
    omega
  have hparts : (∀ e ∈ front, e.1.length = 32) ∧ ∀ e ∈ back, e.1.length = 32 := by
    rw [← hsplit] at hproof
    exact List.forall_mem_append.mp hproof
  have hinputs := climbInputs_append (sha3_256 publicKey) front back
  rw [hsplit] at hinputs
  obtain ⟨m, hm, hfold, hlen⟩ :=
    exists_last_climbInput (length_sha3_256 publicKey) hparts.1 hfront
  rw [← hsplit, List.foldl_append] at hroot
  have hdigest : (front.foldl climb (sha3_256 publicKey)).length = 32 := by
    rw [hfold]
    exact length_sha3_256 _
  rcases foldl_climb_sound (publicKeys_ne_nil batchSeed) hdigest hparts.2
      (by rw [depth_publicKeys, hback]) hroot with hnode | hcollision
  · rw [depth_publicKeys, hback, hfold] at hnode
    have hposition : HashTree.position back < 1024 := by
      have h := HashTree.position_lt back
      rwa [hback] at h
    obtain ⟨key, hkey, hleaf, hgen⟩ := exists_leafInput batchSeed hposition
    rw [Nat.sub_self, hleaf] at hnode
    have hm' : m ∈ climbInputs (sha3_256 publicKey) proof := by
      rw [hinputs]
      exact List.mem_append_left _ hm
    rcases eq_or_collisionIn (mem_inputs_of_mem_climbInputs hm')
        (mem_inputs_of_mem_buildInputs hkey) hnode with rfl | hcollision
    · rw [hgen, Wots.length_publicKey] at hlen
      omega
    · exact hcollision
  · apply hcollision.mono
    intro m hm
    rcases List.mem_append.mp hm with h | h
    · exact mem_inputs_of_mem_buildInputs h
    · apply mem_inputs_of_mem_climbInputs
      rw [hinputs]
      exact List.mem_append_right _ h

/-- An accepted key is the key at the position its proof spells, or there is a collision. -/
theorem accepted_at_position (hproof : ∀ e ∈ proof, e.1.length = 32)
    (h : verifyAgainstRoot message signature publicKey proof (batchRoot batchSeed) = true) :
    (proof.length = 10 ∧
      publicKey = (Wots.keygen (deriveKeySeed batchSeed (HashTree.position proof))).2) ∨
    Collides batchSeed message signature publicKey proof := by
  obtain ⟨hwots, hroot⟩ := verifyAgainstRoot_eq_true.mp h
  by_cases hlong : 10 < proof.length
  · exact Or.inr (collides_of_long_proof hproof hlong hroot)
  · have hne := publicKeys_ne_nil batchSeed
    have hposition := HashTree.position_lt proof
    rcases foldl_climb_sound hne (length_sha3_256 publicKey) hproof
        (by rw [depth_publicKeys]; omega) hroot with hnode | hcollision
    · rw [depth_publicKeys] at hnode
      by_cases hfull : proof.length = 10
      · rw [hfull] at hposition
        obtain ⟨key, hkey, hleaf, hgen⟩ := exists_leafInput batchSeed hposition
        rw [hfull, Nat.sub_self, hleaf] at hnode
        rcases eq_or_collisionIn publicKey_mem_inputs (mem_inputs_of_mem_buildInputs hkey) hnode
          with rfl | hcollision
        · exact Or.inl ⟨hfull, hgen⟩
        · exact Or.inr hcollision
      · -- an inner node: what hashes to it has 64 bytes, fewer than a verified key has
        obtain ⟨k, hk⟩ : ∃ k, 10 - proof.length = k + 1 := ⟨10 - proof.length - 1, by omega⟩
        obtain ⟨m, hm, hinner, hlen⟩ := exists_nodeInput hne
          (k := k) (i := HashTree.position proof) (by rw [depth_publicKeys]; omega)
          (by rwa [depth_publicKeys, show 10 - (k + 1) = proof.length by omega])
        rw [hk, hinner] at hnode
        rcases eq_or_collisionIn publicKey_mem_inputs (mem_inputs_of_mem_buildInputs hm) hnode
          with rfl | hcollision
        · have hlong' := Wots.length_of_verify hwots
          omega
        · exact Or.inr hcollision
    · right
      apply hcollision.mono
      intro m hm
      rcases List.mem_append.mp hm with hm | hm
      · exact mem_inputs_of_mem_buildInputs hm
      · exact mem_inputs_of_mem_climbInputs hm

/-- What is accepted against the root of a batch is a key of the batch. -/
theorem accepted_mem_publicKeys (hproof : ∀ e ∈ proof, e.1.length = 32)
    (h : verifyAgainstRoot message signature publicKey proof (batchRoot batchSeed) = true) :
    publicKey ∈ publicKeys batchSeed ∨ Collides batchSeed message signature publicKey proof := by
  rcases accepted_at_position hproof h with ⟨hlen, hkey⟩ | hcollides
  · left
    have hposition := HashTree.position_lt proof
    rw [hlen] at hposition
    rw [hkey]
    exact List.mem_map.mpr ⟨_, List.mem_range.mpr hposition, rfl⟩
  · exact Or.inr hcollides

end

theorem accepted_mem_publicKeys_first : ∃ (signature publicKey : Bytes) (proof : List ProofEntry),
    (∀ e ∈ proof, e.1.length = 32) ∧
      verifyAgainstRoot [] signature publicKey proof (batchRoot []) = true ∧
      (publicKey ∈ publicKeys [] ∨ Collides [] [] signature publicKey proof) := by
  have hi : 0 < (publicKeys []).length := by simp [length_publicKeys]
  have hverify := verifyAgainstRoot_of_getProof [] [] (by omega) (getProof_eq_ok hi)
  have hsiblings := length_of_mem_path (publicKeys_ne_nil []) (k := 0) (Nat.zero_add _).le
    (Nat.two_pow_pos _)
  exact ⟨_, _, _, hsiblings, hverify, accepted_mem_publicKeys hsiblings hverify⟩

end TemporalAuthTree

end Qrtb
