import Qrtb.Native.MerkleRoot

/-!
# Merkle roots in one buffer, in Rust and in C (`native/src/merkle.rs`, `native/csrc/merkle.c`)

C reduces its levels as Rust does, in one buffer and with the same rounds; only that its
nodes are bytes one behind the other. So it goes wherever the Rust code goes, and both
arrive at the root that the level-by-level construction finds and its proofs lead to.
-/

namespace Qrtb

open Keccak Buffer Native

namespace Rust

/-- The node above, with the sibling on the side the flag says. -/
def verifyEntry (current : Bytes) (entry : MerkleProofEntry) : Bytes :=
  if entry.isRight then hashNodes entry.sibling current else hashNodes current entry.sibling

def merkleVerifyProof (leafHash : Bytes) (proof : MerkleProof) (root : Bytes) : Bool :=
  proof.entries.foldl verifyEntry leafHash == root

theorem verifyEntry_eq (current : Bytes) (entry : MerkleProofEntry) :
    verifyEntry current entry =
      MerkleTree.climb current (entry.sibling, entry.isRight.toNat) := by
  unfold verifyEntry MerkleTree.climb hashNodes
  cases entry.isRight <;> rfl

theorem merkleVerifyProof_eq (leafHash : Bytes) (proof : MerkleProof) (root : Bytes) :
    merkleVerifyProof leafHash proof root =
      (proof.view.foldl MerkleTree.climb leafHash == root) := by
  rw [merkleVerifyProof, MerkleProof.view, List.foldl_map]
  simp only [← verifyEntry_eq]

theorem merkleVerifyProof_of_build {leaves : List Bytes} {leafIndex : ℕ}
    (h : leafIndex < leaves.length) {root : Bytes} {proof : MerkleProof}
    (hbuild : merkleBuildWithProof leaves leafIndex = some (root, proof)) :
    merkleVerifyProof (sha3_256 leaves[leafIndex]) proof root = true := by
  obtain ⟨proof', hbuild', hview⟩ := merkleBuildWithProof_eq h
  obtain ⟨rfl, rfl⟩ := Prod.mk.inj (Option.some.inj (hbuild.symm.trans hbuild'))
  have hproof : MerkleTree.getProof leaves leafIndex = .ok proof.view := by
    rw [MerkleTree.getProof_of_lt h, hview]
  rw [merkleVerifyProof_eq, MerkleTree.foldl_climb_getProof h hproof, beq_self_eq_true]

end Rust

namespace C

/-- `hash_nodes` from two places of the buffer into a third. -/
def reduceRound (i : ℕ) (hashes : Bytes) : Option Bytes := nodeRound hashes i hashes

/-- `while (level_size > 1)`. -/
def rootLoop (hashes : Bytes) (levelSize : ℕ) : Option Bytes :=
  if levelSize > 1 then do
    let hashes ← forRange (levelSize / 2) reduceRound hashes
    rootLoop hashes (levelSize / 2)
  else some hashes
termination_by levelSize

/-- `hashes` is the allocation; the result is what is written to `root_out`. -/
def merkleBuildRoot (hashes leaves : Bytes) (numLeaves leafSize : ℕ) : Option Bytes :=
  if numLeaves = 0 then some (sha3_256 (ascii ['e', 'm', 'p', 't', 'y']))
  else do
    let paddedSize := nextPow2 numLeaves
    let hashes ← forRange numLeaves (leafRound leaves leafSize) hashes
    let hashes ← forFrom numLeaves paddedSize padRound hashes
    let hashes ← rootLoop hashes paddedSize
    load hashes 0 MERKLE_HASH_SIZE

/-- The bytes are those of the nodes. -/
structure Holds (hashes : List Bytes) (buf : Bytes) : Prop where
  size : ∀ b ∈ hashes, b.length = MERKLE_HASH_SIZE
  bytes : buf = hashes.flatten

theorem Holds.reduceRound {hashes hashes' : List Bytes} {buf : Bytes} (h : Holds hashes buf)
    {i : ℕ} (hround : Rust.reduceRound i hashes = some hashes') :
    ∃ buf', C.reduceRound i buf = some buf' ∧ Holds hashes' buf' := by
  simp only [Rust.reduceRound, Option.bind_eq_bind, Option.bind_eq_some_iff] at hround
  obtain ⟨left, hleft, right, hright, hstore⟩ := hround
  have hi : i < hashes.length := by
    have := (List.getElem?_eq_some_iff.mp hright).1
    omega
  have hnode : (hashNodes left right).length = MERKLE_HASH_SIZE := length_sha3_256 _
  rw [store_singleton hi] at hstore
  obtain rfl := Option.some.inj hstore
  have hloadLeft := load_block h.size [] hleft
  have hloadRight := load_block h.size [] hright
  rw [List.append_nil, ← h.bytes] at hloadLeft hloadRight
  refine ⟨_, ?_, ⟨?_, rfl⟩⟩
  · rw [C.reduceRound, nodeRound, hloadLeft, hloadRight]
    simp only [Option.bind_eq_bind, Option.bind_some]
    rw [h.bytes]
    exact store_block h.size hi hnode
  · intro b hb
    rcases List.mem_or_eq_of_mem_set hb with hb | rfl
    · exact h.size b hb
    · exact hnode

theorem Holds.rootLoop {hashes hashes' : List Bytes} {buf : Bytes} (h : Holds hashes buf)
    {levelSize : ℕ} (hloop : Rust.rootLoop hashes levelSize = some hashes') :
    ∃ buf', C.rootLoop buf levelSize = some buf' ∧ Holds hashes' buf' := by
  induction levelSize using Nat.strongRecOn generalizing hashes buf with
  | ind levelSize ih =>
    rw [Rust.rootLoop] at hloop
    rw [C.rootLoop]
    split_ifs at hloop ⊢ with hlarge
    · rw [Option.bind_eq_bind, Option.bind_eq_some_iff] at hloop
      obtain ⟨mid, hrounds, hrest⟩ := hloop
      obtain ⟨mid', hrounds', hmid⟩ :=
        forRange_simulates (fun i _ _ _ _ hb hround => hb.reduceRound hround) h hrounds
      rw [hrounds']
      exact ih (levelSize / 2) (by omega) hmid hrest
    · obtain rfl := Option.some.inj hloop
      exact ⟨buf, rfl, h⟩

theorem merkleBuildRoot_eq {leaves : List Bytes} {leafSize : ℕ} {hashes : Bytes}
    (hsize : ∀ b ∈ leaves, b.length = leafSize) (hne : leaves ≠ [])
    (hhashes : hashes.length = nextPow2 leaves.length * MERKLE_HASH_SIZE) :
    merkleBuildRoot hashes leaves.flatten leaves.length leafSize =
      some (MerkleTree.root leaves) := by
  have hpadded := paddedLevel_eq hsize hne hhashes
  have hholds : Holds (MerkleTree.paddedLeaves leaves) (MerkleTree.paddedLeaves leaves).flatten :=
    ⟨length_of_mem_paddedLeaves leaves, rfl⟩
  obtain ⟨rest, hrust⟩ := Rust.rootLoop_eq (MerkleTree.length_paddedLeaves hne) []
  rw [List.append_nil] at hrust
  obtain ⟨buf, hloop, hbuf⟩ := hholds.rootLoop hrust
  obtain ⟨top, htop⟩ := List.length_eq_one_iff.mp
    (MerkleTree.length_reduce (MerkleTree.length_paddedLeaves hne))
  rw [htop] at hbuf
  have hload := load_block hbuf.size [] (i := 0) (b := top) rfl
  rw [List.append_nil, Nat.zero_mul, ← hbuf.bytes] at hload
  rw [merkleBuildRoot, if_neg (by simpa using hne)]
  rw [← bind_assoc, hpadded, nextPow2_length]
  simp only [Option.bind_eq_bind, Option.bind_some, hloop, hload]
  rw [MerkleTree.root, htop]
  rfl

end C

/-- Every construction finds one root, and the proof of each leaf is accepted under it. The leaves
of the C code have one size, and its buffer has room for the padded level. -/
theorem merkleRoots_agree (leaves : List Bytes) (leafIndex : ℕ) (h : leafIndex < leaves.length) :
    ∃ root proof, Rust.merkleBuildWithProof leaves leafIndex = some (root, proof) ∧
      Rust.merkleBuildRoot leaves = some root ∧
      (∀ (leafSize : ℕ) (hashes : Bytes), (∀ b ∈ leaves, b.length = leafSize) →
        hashes.length = nextPow2 leaves.length * MERKLE_HASH_SIZE →
        C.merkleBuildRoot hashes leaves.flatten leaves.length leafSize = some root) ∧
      Rust.merkleVerifyProof (sha3_256 leaves[leafIndex]) proof root = true := by
  have hne : leaves ≠ [] := (MerkleTree.lt_two_pow_depth h).1
  obtain ⟨proof, hbuild, -⟩ := Rust.merkleBuildWithProof_eq h
  exact ⟨MerkleTree.root leaves, proof, hbuild, Rust.merkleBuildRoot_of_ne_nil hne,
    fun _ _ hsize hhashes => C.merkleBuildRoot_eq hsize hne hhashes,
    Rust.merkleVerifyProof_of_build h hbuild⟩

theorem merkleRoots_agree_three :
    ∃ root proof, Rust.merkleBuildWithProof [[1], [2], [3]] 2 = some (root, proof) ∧
      Rust.merkleBuildRoot [[1], [2], [3]] = some root ∧
      C.merkleBuildRoot (List.replicate 128 0) [1, 2, 3] 3 1 = some root ∧
      Rust.merkleVerifyProof (sha3_256 [3]) proof root = true := by
  obtain ⟨root, proof, hbuild, hroot, hc, hverify⟩ :=
    merkleRoots_agree [[1], [2], [3]] 2 (by decide)
  have hnext : nextPow2 3 = 4 := nextPow2_eq 3
  exact ⟨root, proof, hbuild, hroot, hc 1 (List.replicate 128 0) (by decide)
    (by rw [List.length_replicate, List.length_cons]; simp [hnext, MERKLE_HASH_SIZE]), hverify⟩

end Qrtb
