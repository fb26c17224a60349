import Qrtb.Crypto.Soundness

/-!
# What a Merkle root says about its leaves

A proof made by the tree is accepted for the digest of its leaf. A leaf of 32
bytes is taken for a digest by `verify_proof`, while the tree has hashed it like
every other leaf. Leaves, inner nodes and padding are not marked in any way, yet
for leaves of 32 bytes the lengths of the hashed strings tell them apart, so the
root of such a list stands for one list only.
-/

namespace Qrtb

open Keccak

namespace MerkleTree

theorem verifyProof_eq_true {leaf : Bytes} {proof : List ProofEntry} {top : Bytes} :
    verifyProof leaf proof top = true ↔
      proof.foldl climb (if leaf.length ≠ 32 then sha3_256 leaf else leaf) = top :=
  beq_iff_eq

/-- The strings hashed when a 32-byte leaf is checked start from the leaf itself. -/
theorem unhashed_leaf_accepted {leaves : List Bytes} {i : ℕ} (hi : i < leaves.length)
    (hsize : leaves[i].length = 32) {proof : List ProofEntry}
    (hproof : getProof leaves i = .ok proof)
    (haccept : verifyProof leaves[i] proof (root leaves) = true) :
    leaves[i] = sha3_256 leaves[i] ∨
      CollisionIn (buildInputs leaves ++ climbInputs leaves[i] proof) := by
  obtain ⟨hne, hplace⟩ := lt_two_pow_depth hi
  rw [verifyProof_eq_true, if_neg (not_not.mpr hsize)] at haccept
  rw [getProof_eq_ok hi] at hproof
  obtain rfl := Except.ok.inj hproof
  have hsiblings := length_of_mem_path hne (k := 0) (Nat.zero_add _).le hplace
  have hlength := HashTree.length_path joinHash (leafAt leaves) 0 (depth leaves) i
  rcases foldl_climb_sound hne hsize hsiblings hlength.le haccept with hnode | hcollision
  · left
    rw [hlength, Nat.sub_self, HashTree.position_path, Nat.mod_eq_of_lt hplace] at hnode
    exact hnode.trans (leafAt_of_lt hi)
  · exact Or.inr hcollision

/-- The proof of a leaf is accepted for the leaf, unless it has the size of a digest, and for its
digest; a leaf of digest size is accepted only where hashing it makes no difference. -/
theorem verifyProof_getProof (leaves : List Bytes) {i : ℕ} (hi : i < leaves.length) :
    ∃ proof, getProof leaves i = .ok proof ∧
      verifyProof (sha3_256 leaves[i]) proof (root leaves) = true ∧
      (leaves[i].length ≠ 32 → verifyProof leaves[i] proof (root leaves) = true) ∧
      (leaves[i].length = 32 → verifyProof leaves[i] proof (root leaves) = true →
        leaves[i] = sha3_256 leaves[i] ∨
          CollisionIn (buildInputs leaves ++ climbInputs leaves[i] proof)) := by
  have hproof := getProof_eq_ok hi
  have hclimb := foldl_climb_getProof hi hproof
  refine ⟨_, hproof, ?_, ?_, fun hsize => unhashed_leaf_accepted hi hsize hproof⟩
  · rw [verifyProof_eq_true, if_neg (not_not.mpr (length_sha3_256 _)), hclimb]
  · intro hsize
    rw [verifyProof_eq_true, if_pos hsize, hclimb]

theorem verifyProof_getProof_pair :
    ∃ proof, getProof [[1], [2]] 0 = .ok proof ∧
      verifyProof (sha3_256 [1]) proof (root [[1], [2]]) = true ∧
      ([(1 : UInt8)].length ≠ 32 → verifyProof [1] proof (root [[1], [2]]) = true) ∧
      ([(1 : UInt8)].length = 32 → verifyProof [1] proof (root [[1], [2]]) = true →
        [1] = sha3_256 [1] ∨
          CollisionIn (buildInputs [[1], [2]] ++ climbInputs [1] proof)) :=
  verifyProof_getProof [[1], [2]] (i := 0) (by decide)

/-- A single leaf of 32 bytes. -/
theorem not_verifyProof_getProof :
    ¬ ∀ (leaves : List Bytes) (i : ℕ) (hi : i < leaves.length), ∃ proof,
      getProof leaves i = .ok proof ∧ verifyProof leaves[i] proof (root leaves) = true := by
  intro h
  have hlt : 0 < [List.replicate 32 (0 : UInt8)].length := by decide
  have hdigest : sha3_256 (List.replicate 32 0) ≠ List.replicate 32 0 := by decide +kernel
  have hne : [List.replicate 32 (0 : UInt8)] ≠ [] := List.cons_ne_nil _ _
  obtain ⟨proof, hproof, haccept⟩ := h [List.replicate 32 0] 0 hlt
  rw [getProof_eq_ok hlt] at hproof
  obtain rfl := Except.ok.inj hproof
  rw [verifyProof_eq_true, if_neg (by simp), root_eq hne] at haccept
  exact hdigest ((leafAt_of_lt hlt).symm.trans haccept.symm)

theorem leafAt_of_ge {leaves : List Bytes} {i : ℕ} (hge : leaves.length ≤ i)
    (hi : i < 2 ^ depth leaves) : leafAt leaves i = sha3_256 (ascii ['p', 'a', 'd']) := by
  have hcount : i - leaves.length < 1 <<< Nat.size (leaves.length - 1) - leaves.length := by
    rw [Nat.one_shiftLeft]
    rw [depth] at hi
    omega
  rw [leafAt, paddedLeaves, List.getD_eq_getElem?_getD,
    List.getElem?_append_right (by simpa using hge), List.length_map,
    List.getElem?_replicate_of_lt hcount]
  rfl

theorem leaf_mem_buildInputs {leaves : List Bytes} {i : ℕ} (hi : i < leaves.length) :
    leaves[i] ∈ buildInputs leaves :=
  List.mem_append_left _ (List.getElem_mem hi)

theorem pad_mem_buildInputs (leaves : List Bytes) :
    ascii ['p', 'a', 'd'] ∈ buildInputs leaves :=
  List.mem_append_right _ List.mem_cons_self

section Binding

variable {leaves leaves' : List Bytes}

theorem collisionIn_comm (h : CollisionIn (buildInputs leaves' ++ buildInputs leaves)) :
    CollisionIn (buildInputs leaves ++ buildInputs leaves') :=
  h.mono fun _ hm => List.mem_append.mpr (List.mem_append.mp hm).symm

theorem collisionIn_of_treeCollision (hne : leaves ≠ []) (hne' : leaves' ≠ [])
    (h : HashTree.TreeCollision joinHash (leafAt leaves) (leafAt leaves') (depth leaves)
      (depth leaves')) :
    CollisionIn (buildInputs leaves ++ buildInputs leaves') := by
  have hleft : ∀ {leaves : List Bytes}, leaves ≠ [] → ∀ {p : Bytes × Bytes},
      HashTree.IsTreePair joinHash (leafAt leaves) (depth leaves) p → p.1.length = 32 := by
    rintro leaves hne p ⟨k, i, hk, hi, rfl⟩
    apply length_nodeAt leaves hne
    rw [show depth leaves - k = depth leaves - (k + 1) + 1 by omega, pow_succ']
    omega
  obtain ⟨p, hp, q, hq, hpq, hjoin⟩ := h
  refine ⟨_, List.mem_append_left _ (mem_buildInputs_of_isTreePair hne hp), _,
    List.mem_append_right _ (mem_buildInputs_of_isTreePair hne' hq), ?_, hjoin⟩
  intro heq
  obtain ⟨hfirst, hsecond⟩ := List.append_inj heq ((hleft hne hp).trans (hleft hne' hq).symm)
  exact hpq (Prod.ext hfirst hsecond)

theorem collisionIn_of_pad (hsize' : ∀ leaf ∈ leaves', leaf.length = 32)
    (hlt : leaves.length < leaves'.length) (hplace : leaves.length < 2 ^ depth leaves)
    (h : leafAt leaves leaves.length = leafAt leaves' leaves.length) :
    CollisionIn (buildInputs leaves ++ buildInputs leaves') := by
  rw [leafAt_of_ge le_rfl hplace, leafAt_of_lt hlt] at h
  refine ⟨_, List.mem_append_left _ (pad_mem_buildInputs leaves), _,
    List.mem_append_right _ (leaf_mem_buildInputs hlt), ?_, h⟩
  intro heq
  have hlength := hsize' _ (List.getElem_mem hlt)
  rw [← heq] at hlength
  exact absurd hlength (by decide)

theorem eq_of_leafAt_eq (hsize : ∀ leaf ∈ leaves, leaf.length = 32)
    (hsize' : ∀ leaf ∈ leaves', leaf.length = 32) (hdepth : depth leaves = depth leaves')
    (h : ∀ i < 2 ^ depth leaves, leafAt leaves i = leafAt leaves' i) :
    leaves = leaves' ∨ CollisionIn (buildInputs leaves ++ buildInputs leaves') := by
  rcases lt_trichotomy leaves.length leaves'.length with hlt | hlength | hlt
  · have hplace := (lt_two_pow_depth hlt).2
    rw [← hdepth] at hplace
    exact Or.inr (collisionIn_of_pad hsize' hlt hplace (h _ hplace))
  · by_cases hall : ∀ i (hi : i < leaves.length) (hi' : i < leaves'.length),
        leaves[i] = leaves'[i]
    · exact Or.inl (List.ext_getElem hlength hall)
    · right
      push Not at hall
      obtain ⟨i, hi, hi', hne⟩ := hall
      have hdigest := h i (lt_two_pow_depth hi).2
      rw [leafAt_of_lt hi, leafAt_of_lt hi'] at hdigest
      exact ⟨_, List.mem_append_left _ (leaf_mem_buildInputs hi), _,
        List.mem_append_right _ (leaf_mem_buildInputs hi'), hne, hdigest⟩
  · have hplace := (lt_two_pow_depth hlt).2
    have hagree := h _ hplace
    rw [hdepth] at hplace
    exact Or.inr (collisionIn_comm (collisionIn_of_pad hsize hlt hplace hagree.symm))

/-- The shallower tree first: a leaf that is an inner node of the deeper tree has two preimages,
one of 32 bytes and one of 64. -/
theorem root_binding_of_depth_le (hne : leaves ≠ []) (hne' : leaves' ≠ [])
    (hsize : ∀ leaf ∈ leaves, leaf.length = 32) (hsize' : ∀ leaf ∈ leaves', leaf.length = 32)
    (hdepth : depth leaves ≤ depth leaves') (hroot : root leaves = root leaves') :
    leaves = leaves' ∨ CollisionIn (buildInputs leaves ++ buildInputs leaves') := by
  obtain ⟨e, he⟩ := Nat.exists_eq_add_of_le' hdepth
  rw [root_eq hne, root_eq hne', he] at hroot
  rcases HashTree.leaves_agree joinHash hroot with hagree | hcollision
  · cases e with
    | zero => exact eq_of_leafAt_eq hsize hsize' (by omega) hagree
    | succ e =>
      right
      have hpos : 0 < leaves.length := List.length_pos_iff.mpr hne
      obtain ⟨m, hm, hnode, hlength⟩ := exists_nodeInput hne' (k := e) (i := 0) (by omega)
        (Nat.two_pow_pos _)
      have hdigest := hagree 0 (Nat.two_pow_pos _)
      rw [leafAt_of_lt hpos] at hdigest
      refine ⟨_, List.mem_append_left _ (leaf_mem_buildInputs hpos), _,
        List.mem_append_right _ hm, ?_, hdigest.trans hnode⟩
      intro heq
      have hleaf := hsize _ (List.getElem_mem hpos)
      rw [heq, hlength] at hleaf
      omega
  · right
    apply collisionIn_of_treeCollision hne hne'
    rwa [he]

/-- Lists of 32-byte strings with one root are equal, or two of the strings hashed collide. -/
theorem root_binding (leaves leaves' : List Bytes) (hne : leaves ≠ []) (hne' : leaves' ≠ [])
    (hsize : ∀ leaf ∈ leaves, leaf.length = 32) (hsize' : ∀ leaf ∈ leaves', leaf.length = 32)
    (hroot : root leaves = root leaves') :
    leaves = leaves' ∨ CollisionIn (buildInputs leaves ++ buildInputs leaves') := by
  rcases le_total (depth leaves) (depth leaves') with hdepth | hdepth
  · exact root_binding_of_depth_le hne hne' hsize hsize' hdepth hroot
  · rcases root_binding_of_depth_le hne' hne hsize' hsize hdepth hroot.symm with heq | hcollision
    · exact Or.inl heq.symm
    · exact Or.inr (collisionIn_comm hcollision)

def threeLeaves : List Bytes := [.replicate 32 1, .replicate 32 2, .replicate 32 3]

theorem root_binding_threeLeaves : depth threeLeaves = 2 ∧
    (threeLeaves = threeLeaves ∨
      CollisionIn (buildInputs threeLeaves ++ buildInputs threeLeaves)) := by
  have hsize : ∀ leaf ∈ threeLeaves, leaf.length = 32 := by decide
  exact ⟨by decide, root_binding threeLeaves threeLeaves (List.cons_ne_nil _ _)
    (List.cons_ne_nil _ _) hsize hsize rfl⟩

end Binding

end MerkleTree

end Qrtb
