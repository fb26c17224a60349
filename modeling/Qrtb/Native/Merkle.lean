import Qrtb.Crypto.Merkle
import Qrtb.Lib.Buffer

/-!
# Merkle proofs in Rust and in C (`src/native/src/merkle.rs`, `src/native/csrc/merkle.c`)

Both build a tree level by level and keep the sibling of every level they leave.
Rust grows vectors; C fills two buffers that change places after every level and
a proof of eleven places. Root and proof are those of the stored levels of the
Python code.
-/

namespace Qrtb

open Keccak Buffer

namespace Native

def MERKLE_HASH_SIZE : ℕ := 32
def MERKLE_MAX_DEPTH : ℕ := 11

/-- `while p < n { p <<= 1; }`. -/
def doubleWhile (n p : ℕ) (hp : 0 < p) : ℕ :=
  if p < n then doubleWhile n (p <<< 1) (by rw [Nat.shiftLeft_eq]; omega) else p
termination_by n - p
decreasing_by
  rw [Nat.shiftLeft_eq]
  omega

def nextPow2 (n : ℕ) : ℕ := doubleWhile n 1 Nat.one_pos

def hashNodes (left right : Bytes) : Bytes := sha3_256 (left ++ right)

def padHash : Bytes := sha3_256 (ascii ['p', 'a', 'd'])

theorem doubleWhile_eq {n k : ℕ} (hk : k ≤ Nat.size (n - 1)) :
    doubleWhile n (2 ^ k) (Nat.two_pow_pos k) = 2 ^ Nat.size (n - 1) := by
  obtain ⟨steps, hsteps⟩ := Nat.exists_eq_add_of_le hk
  induction steps generalizing k with
  | zero =>
    have hsize : n - 1 < 2 ^ k := by
      rw [← Nat.size_le]
      omega
    rw [doubleWhile, if_neg (by omega), hsteps, Nat.add_zero]
  | succ steps ih =>
    have hsize : 2 ^ k ≤ n - 1 := by
      rw [← Nat.lt_size]
      omega
    have hpos := Nat.two_pow_pos k
    have hdouble : 2 ^ k <<< 1 = 2 ^ (k + 1) := by
      rw [Nat.shiftLeft_eq, Nat.pow_one, ← Nat.pow_succ]
    have hrest := ih (k := k + 1) (by omega) (by omega)
    rw [doubleWhile, if_pos (by omega)]
    simpa only [hdouble] using hrest

/-- The doubling loop finds the power of two that the Python code computes from a bit length. -/
theorem nextPow2_eq (n : ℕ) : nextPow2 n = 1 <<< Nat.size (n - 1) := by
  rw [Nat.one_shiftLeft]
  exact doubleWhile_eq (Nat.zero_le _)

theorem nextPow2_length (leaves : List Bytes) :
    nextPow2 leaves.length = 2 ^ MerkleTree.depth leaves := by
  rw [nextPow2_eq, Nat.one_shiftLeft, MerkleTree.depth]

theorem length_of_mem_nextLevel (nodes : List Bytes) :
    ∀ b ∈ MerkleTree.nextLevel nodes, b.length = MERKLE_HASH_SIZE := by
  intro b hb
  rw [MerkleTree.nextLevel_eq] at hb
  obtain ⟨input, -, rfl⟩ := List.mem_map.mp hb
  exact length_sha3_256 input

theorem length_of_mem_paddedLeaves (leaves : List Bytes) :
    ∀ b ∈ MerkleTree.paddedLeaves leaves, b.length = MERKLE_HASH_SIZE := by
  intro b hb
  rcases List.mem_append.mp hb with hleaf | hpad
  · obtain ⟨leaf, -, rfl⟩ := List.mem_map.mp hleaf
    exact length_sha3_256 leaf
  · rw [List.eq_of_mem_replicate hpad]
    exact length_sha3_256 _

section Level

variable {nodes : List Bytes} {d idx : ℕ}

/-- A level above the leaves has half the nodes, and the parent of a node is one of them. -/
theorem one_level_up (hidx : idx < 2 ^ (d + 1)) :
    2 ^ (d + 1) > 1 ∧ 2 ^ (d + 1) / 2 = 2 ^ d ∧ idx / 2 < 2 ^ d := by
  refine ⟨Nat.one_lt_two_pow (by omega), ?_⟩
  rw [pow_succ] at hidx ⊢
  omega

theorem length_nextLevel_of_pow (h : nodes.length = 2 ^ (d + 1)) :
    (MerkleTree.nextLevel nodes).length = 2 ^ d := by
  rw [MerkleTree.length_nextLevel, h, pow_succ]
  omega

theorem reduce_of_pow (h : nodes.length = 2 ^ (d + 1)) :
    MerkleTree.reduce nodes = MerkleTree.reduce (MerkleTree.nextLevel nodes) := by
  have hlt : 1 < 2 ^ (d + 1) := Nat.one_lt_two_pow (by omega)
  rw [MerkleTree.reduce, if_pos (by omega)]

theorem proofFrom_levels_of_pow (h : nodes.length = 2 ^ (d + 1)) {sibling : Bytes}
    (hsibling : nodes[idx ^^^ 1]? = some sibling) :
    MerkleTree.proofFrom (MerkleTree.levels nodes) idx =
      (sibling, idx % 2) ::
        MerkleTree.proofFrom (MerkleTree.levels (MerkleTree.nextLevel nodes)) (idx / 2) := by
  have hlt : 1 < 2 ^ (d + 1) := Nat.one_lt_two_pow (by omega)
  rw [MerkleTree.levels, if_pos (by omega)]
  cases hl : MerkleTree.levels (MerkleTree.nextLevel nodes) with
  | nil =>
    rw [MerkleTree.levels] at hl
    split_ifs at hl
  | cons next above => simp [MerkleTree.proofFrom, hsibling]

theorem levels_of_length_one (h : nodes.length = 2 ^ 0) : MerkleTree.levels nodes = [nodes] := by
  rw [MerkleTree.levels, if_neg (by simp [h])]

theorem reduce_of_length_one (h : nodes.length = 2 ^ 0) : MerkleTree.reduce nodes = nodes := by
  rw [MerkleTree.reduce, if_neg (by simp [h])]

theorem exists_sibling (h : nodes.length = 2 ^ (d + 1)) (hidx : idx < 2 ^ (d + 1)) :
    ∃ sibling, nodes[idx ^^^ 1]? = some sibling := by
  have hlt := HashTree.xor_one_lt hidx
  rw [← h] at hlt
  exact ⟨_, List.getElem?_eq_getElem hlt⟩

theorem exists_children {i : ℕ} (hi : i < nodes.length / 2) :
    ∃ left right, nodes[2 * i]? = some left ∧ nodes[2 * i + 1]? = some right ∧
      (MerkleTree.nextLevel nodes)[i]? = some (hashNodes left right) := by
  have hleft : nodes[2 * i]? = some nodes[2 * i] := List.getElem?_eq_getElem _
  have hright : nodes[2 * i + 1]? = some nodes[2 * i + 1] := List.getElem?_eq_getElem _
  exact ⟨_, _, hleft, hright, MerkleTree.getElem?_nextLevel hleft hright⟩

end Level

end Native

namespace Rust

open Native

structure MerkleProofEntry where
  sibling : Bytes
  isRight : Bool

structure MerkleProof where
  entries : List MerkleProofEntry

/-- `while hashes.len() < padded_size { hashes.push(pad); }`. -/
def padTo (paddedSize : ℕ) (hashes : List Bytes) : List Bytes :=
  if hashes.length < paddedSize then padTo paddedSize (hashes ++ [padHash]) else hashes
termination_by paddedSize - hashes.length
decreasing_by
  rw [List.length_append, List.length_singleton]
  omega

def pushRound (level : List Bytes) (i : ℕ) (nextLevel : List Bytes) : Option (List Bytes) := do
  let left ← level[2 * i]?
  let right ← level[2 * i + 1]?
  return nextLevel ++ [hashNodes left right]

/-- `while level_size > 1`. -/
def proofLoop (level : List Bytes) (levelSize idx : ℕ) (entries : List MerkleProofEntry) :
    Option (Bytes × MerkleProof) :=
  if levelSize > 1 then do
    let sibling := idx ^^^ 1
    let entries ←
      if sibling < levelSize then do
        let node ← level[sibling]?
        pure (entries ++ [{ sibling := node, isRight := idx % 2 == 1 }])
      else pure entries
    let nextLevel ← forRange (levelSize / 2) (pushRound level) []
    proofLoop nextLevel (levelSize / 2) (idx / 2) entries
  else do
    let root ← level[0]?
    return (root, { entries := entries })
termination_by levelSize

def merkleBuildWithProof (leaves : List Bytes) (leafIndex : ℕ) : Option (Bytes × MerkleProof) :=
  if leaves.isEmpty then none
  else if ¬ leafIndex < leaves.length then none
  else
    let paddedSize := nextPow2 leaves.length
    let level := padTo paddedSize (leaves.map sha3_256)
    proofLoop level paddedSize leafIndex []

/-- A proof as the list of its siblings and flags. -/
def MerkleProof.view (p : MerkleProof) : List ProofEntry :=
  p.entries.map fun e => (e.sibling, e.isRight.toNat)

theorem padTo_eq (paddedSize : ℕ) (hashes : List Bytes) :
    padTo paddedSize hashes = hashes ++ List.replicate (paddedSize - hashes.length) padHash := by
  induction hashes using padTo.induct paddedSize with
  | case1 hashes h ih =>
    have hcount : paddedSize - hashes.length = paddedSize - (hashes.length + 1) + 1 := by omega
    rw [padTo, if_pos h, ih, List.length_append, List.length_singleton, hcount,
      List.replicate_succ, List.append_assoc, List.singleton_append]
  | case2 hashes h =>
    have hcount : paddedSize - hashes.length = 0 := by omega
    rw [padTo, if_neg h, hcount, List.replicate_zero, List.append_nil]

theorem pushRounds_eq (level : List Bytes) :
    forRange (level.length / 2) (pushRound level) [] = some (MerkleTree.nextLevel level) := by
  have hrounds : ∀ i < level.length / 2, pushRound level i ((MerkleTree.nextLevel level).take i) =
      some ((MerkleTree.nextLevel level).take (i + 1)) := by
    intro i hi
    obtain ⟨left, right, hleft, hright, hnode⟩ := exists_children hi
    obtain ⟨hlt, hnode⟩ := List.getElem?_eq_some_iff.mp hnode
    rw [pushRound, hleft, hright, List.take_succ_eq_append_getElem hlt, hnode]
    rfl
  have hall : (MerkleTree.nextLevel level).take (level.length / 2) = MerkleTree.nextLevel level :=
    List.take_of_length_le (MerkleTree.length_nextLevel level).le
  have hloop := forRange_eq_some hrounds
  rwa [hall] at hloop

theorem proofLoop_eq {nodes : List Bytes} {d idx : ℕ} (hnodes : nodes.length = 2 ^ d)
    (hidx : idx < 2 ^ d) (entries : List MerkleProofEntry) :
    ∃ proof, proofLoop nodes (2 ^ d) idx entries =
        some ((MerkleTree.reduce nodes).headD [], proof) ∧
      proof.view = MerkleProof.view { entries := entries } ++
        MerkleTree.proofFrom (MerkleTree.levels nodes) idx := by
  induction d generalizing nodes idx entries with
  | zero =>
    obtain ⟨root, rfl⟩ := List.length_eq_one_iff.mp hnodes
    refine ⟨{ entries := entries }, ?_, ?_⟩
    · rw [proofLoop, if_neg (by simp), reduce_of_length_one hnodes]
      rfl
    · rw [levels_of_length_one hnodes, MerkleTree.proofFrom, List.append_nil]
      simp
  | succ d ih =>
    obtain ⟨hlarge, hhalf, hup⟩ := one_level_up hidx
    have hnext := pushRounds_eq nodes
    rw [hnodes, hhalf] at hnext
    obtain ⟨sibling, hsibling⟩ := exists_sibling hnodes hidx
    obtain ⟨proof, hloop, hview⟩ := ih (length_nextLevel_of_pow hnodes) hup
      (entries ++ [{ sibling := sibling, isRight := idx % 2 == 1 }])
    refine ⟨proof, ?_, ?_⟩
    · rw [proofLoop, if_pos hlarge, if_pos (HashTree.xor_one_lt hidx), hsibling, hhalf,
        reduce_of_pow hnodes, ← hloop, hnext]
      rfl
    · have hflag : (idx % 2 == 1).toNat = idx % 2 := by
        rcases Nat.mod_two_eq_zero_or_one idx with h | h <;> rw [h] <;> rfl
      rw [hview, proofFrom_levels_of_pow hnodes hsibling]
      simp [MerkleProof.view, hflag]

theorem merkleBuildWithProof_eq {leaves : List Bytes} {leafIndex : ℕ}
    (h : leafIndex < leaves.length) :
    ∃ proof, merkleBuildWithProof leaves leafIndex = some (MerkleTree.root leaves, proof) ∧
      proof.view = MerkleTree.proofFrom (MerkleTree.buildTree leaves) leafIndex := by
  obtain ⟨hne, hidx⟩ := MerkleTree.lt_two_pow_depth h
  have hpadded : padTo (2 ^ MerkleTree.depth leaves) (leaves.map sha3_256) =
      MerkleTree.paddedLeaves leaves := by
    rw [← nextPow2_length, padTo_eq, nextPow2_eq, List.length_map]
    rfl
  obtain ⟨proof, hloop, hview⟩ := proofLoop_eq (MerkleTree.length_paddedLeaves hne) hidx []
  refine ⟨proof, ?_, hview⟩
  rw [merkleBuildWithProof, if_neg (by simpa using hne), if_neg (not_not.mpr h)]
  simp only [nextPow2_length, hpadded]
  exact hloop

end Rust

namespace C

open Native

structure MerkleProofEntry where
  sibling : Bytes
  isRight : UInt8

/-- The array of entries has a fixed size; the entries from `depth` on mean nothing. -/
structure MerkleProof where
  entries : List MerkleProofEntry
  depth : ℕ

/-- The hash of one leaf into its place. -/
def leafRound (leaves : Bytes) (leafSize i : ℕ) (level : Bytes) : Option Bytes := do
  let leaf ← load leaves (i * leafSize) leafSize
  store level (i * MERKLE_HASH_SIZE) (sha3_256 leaf)

def padRound (i : ℕ) (level : Bytes) : Option Bytes := store level (i * MERKLE_HASH_SIZE) padHash

def nodeRound (level : Bytes) (i : ℕ) (nextLevel : Bytes) : Option Bytes := do
  let left ← load level (2 * i * MERKLE_HASH_SIZE) MERKLE_HASH_SIZE
  let right ← load level ((2 * i + 1) * MERKLE_HASH_SIZE) MERKLE_HASH_SIZE
  store nextLevel (i * MERKLE_HASH_SIZE) (hashNodes left right)

/-- A write of one more entry, which must be inside of the array. -/
def MerkleProof.push (proof : MerkleProof) (entry : MerkleProofEntry) : Option MerkleProof := do
  let entries ← store proof.entries proof.depth [entry]
  return { entries := entries, depth := proof.depth + 1 }

/-- `while (level_size > 1)`; the two buffers are swapped at its end. -/
def proofLoop (level nextLevel : Bytes) (levelSize idx : ℕ) (proof : MerkleProof) :
    Option (Bytes × MerkleProof) :=
  if levelSize > 1 then do
    let sibling := idx ^^^ 1
    let proof ←
      if sibling < levelSize then do
        let node ← load level (sibling * MERKLE_HASH_SIZE) MERKLE_HASH_SIZE
        proof.push { sibling := node, isRight := UInt8.ofNat (idx % 2) }
      else pure proof
    let nextLevel ← forRange (levelSize / 2) (nodeRound level) nextLevel
    proofLoop nextLevel level (levelSize / 2) (idx / 2) proof
  else do
    let root ← load level 0 MERKLE_HASH_SIZE
    return (root, proof)
termination_by levelSize

/-- `level` and `next_level` are the two allocations, `proof` what `proof_out` points to. -/
def merkleBuildWithProof (level nextLevel leaves : Bytes) (numLeaves leafSize leafIndex : ℕ)
    (proof : MerkleProof) : Option (Bytes × MerkleProof) := do
  let paddedSize := nextPow2 numLeaves
  let level ← forRange numLeaves (leafRound leaves leafSize) level
  let level ← forFrom numLeaves paddedSize padRound level
  proofLoop level nextLevel paddedSize leafIndex { proof with depth := 0 }

/-- The entries up to the depth as a list of siblings and flags. -/
def MerkleProof.view (p : MerkleProof) : List ProofEntry :=
  (p.entries.take p.depth).map fun e => (e.sibling, e.isRight.toNat)

theorem push_eq {proof : MerkleProof} (h : proof.depth < proof.entries.length)
    (entry : MerkleProofEntry) :
    ∃ proof', proof.push entry = some proof' ∧ proof'.depth = proof.depth + 1 ∧
      proof'.entries.length = proof.entries.length ∧
      proof'.view = proof.view ++ [(entry.sibling, entry.isRight.toNat)] := by
  obtain ⟨pre, old, post, hentries, hpre, hold⟩ := exists_split (show proof.depth + 1 ≤ _ from h)
  have hstore : store proof.entries proof.depth [entry] = some (pre ++ ([entry] ++ post)) := by
    rw [hentries, ← hpre]
    exact store_append pre old post hold.symm
  refine ⟨{ entries := pre ++ ([entry] ++ post), depth := proof.depth + 1 }, ?_, rfl, ?_, ?_⟩
  · rw [MerkleProof.push, hstore]
    rfl
  · rw [hentries]
    simp [hold, Nat.add_comm]
  · have hbefore : proof.view = pre.map fun e => (e.sibling, e.isRight.toNat) := by
      rw [MerkleProof.view, hentries, ← hpre, List.take_left]
    have hafter : (pre ++ ([entry] ++ post)).take (proof.depth + 1) = pre ++ [entry] := by
      rw [← List.append_assoc]
      exact List.take_left' (by simp [hpre])
    rw [hbefore, MerkleProof.view, hafter, List.map_append]
    rfl

/-- The buffer of a level ends as its nodes, whatever is behind them in either buffer. -/
theorem nodeRounds_eq {nodes : List Bytes} (hsize : ∀ b ∈ nodes, b.length = MERKLE_HASH_SIZE)
    (rest : Bytes) {nextLevel : Bytes} (hroom : nodes.length / 2 * MERKLE_HASH_SIZE ≤ nextLevel.length) :
    forRange (nodes.length / 2) (nodeRound (nodes.flatten ++ rest)) nextLevel =
      some ((MerkleTree.nextLevel nodes).flatten ++
        nextLevel.drop (nodes.length / 2 * MERKLE_HASH_SIZE)) := by
  have hlength := MerkleTree.length_nextLevel nodes
  have hround : ∀ i b, (MerkleTree.nextLevel nodes)[i]? = some b → ∀ buf,
      nodeRound (nodes.flatten ++ rest) i buf = store buf (i * MERKLE_HASH_SIZE) b := by
    intro i b hb buf
    have hi : i < nodes.length / 2 := by
      rw [← hlength]
      exact (List.getElem?_eq_some_iff.mp hb).1
    obtain ⟨left, right, hleft, hright, hnode⟩ := exists_children hi
    obtain rfl : hashNodes left right = b := Option.some.inj (hnode.symm.trans hb)
    rw [nodeRound, load_block hsize rest hleft, load_block hsize rest hright]
    rfl
  rw [← hlength] at hroom ⊢
  exact forRange_fill (length_of_mem_nextLevel nodes) hroom hround

theorem proofLoop_eq {nodes : List Bytes} {d idx : ℕ} {nextLevel : Bytes} {proof : MerkleProof}
    (hsize : ∀ b ∈ nodes, b.length = MERKLE_HASH_SIZE) (hnodes : nodes.length = 2 ^ d)
    (hidx : idx < 2 ^ d) (rest : Bytes) (hbuffer : 2 ^ d / 2 * MERKLE_HASH_SIZE ≤ nextLevel.length)
    (hroom : proof.depth + d ≤ proof.entries.length) :
    ∃ proof', proofLoop (nodes.flatten ++ rest) nextLevel (2 ^ d) idx proof =
        some ((MerkleTree.reduce nodes).headD [], proof') ∧
      proof'.view = proof.view ++ MerkleTree.proofFrom (MerkleTree.levels nodes) idx := by
  induction d generalizing nodes idx rest nextLevel proof with
  | zero =>
    obtain ⟨root, rfl⟩ := List.length_eq_one_iff.mp hnodes
    refine ⟨proof, ?_, ?_⟩
    · have hload := load_block hsize rest (i := 0) rfl
      rw [Nat.zero_mul] at hload
      rw [proofLoop, if_neg (by simp), reduce_of_length_one hnodes, hload]
      rfl
    · rw [levels_of_length_one hnodes, MerkleTree.proofFrom, List.append_nil]
      simp
  | succ d ih =>
    obtain ⟨hlarge, hhalf, hup⟩ := one_level_up hidx
    obtain ⟨sibling, hsibling⟩ := exists_sibling hnodes hidx
    obtain ⟨pushed, hpush, hdepth, hentries, hpushed⟩ :=
      push_eq (show proof.depth < proof.entries.length by omega)
        { sibling := sibling, isRight := UInt8.ofNat (idx % 2) }
    have hwrite : nodes.length / 2 * MERKLE_HASH_SIZE ≤ nextLevel.length := by rwa [hnodes]
    have hnext := nodeRounds_eq hsize rest hwrite
    rw [hnodes, hhalf] at hnext
    have hlevel : 2 ^ d / 2 * MERKLE_HASH_SIZE ≤ (nodes.flatten ++ rest).length := by
      rw [List.length_append, length_flatten_of_size hsize, hnodes]
      have hle : 2 ^ d / 2 ≤ 2 ^ (d + 1) := by
        rw [pow_succ]
        omega
      exact (Nat.mul_le_mul_right _ hle).trans (Nat.le_add_right _ _)
    obtain ⟨proof', hloop, hview⟩ := ih (length_of_mem_nextLevel nodes)
      (length_nextLevel_of_pow hnodes) hup (nextLevel.drop (2 ^ d * MERKLE_HASH_SIZE)) hlevel
      (show pushed.depth + d ≤ pushed.entries.length by omega)
    refine ⟨proof', ?_, ?_⟩
    · rw [proofLoop, if_pos hlarge, if_pos (HashTree.xor_one_lt hidx),
        load_block hsize rest hsibling, hhalf, reduce_of_pow hnodes, ← hloop]
      simp only [Option.bind_eq_bind, Option.bind_some, hpush, hnext]
    · have hflag : (UInt8.ofNat (idx % 2)).toNat = idx % 2 := by
        rw [UInt8.toNat_ofNat', Nat.mod_eq_of_lt (by omega)]
      rw [hview, hpushed, proofFrom_levels_of_pow hnodes hsibling, hflag, List.append_assoc]
      rfl

section Build

variable {leaves : List Bytes} {leafSize : ℕ} {level : Bytes}

theorem paddedLevel_eq (hsize : ∀ b ∈ leaves, b.length = leafSize) (hne : leaves ≠ [])
    (hlevel : level.length = nextPow2 leaves.length * MERKLE_HASH_SIZE) :
    (do
      let level ← forRange leaves.length (leafRound leaves.flatten leafSize) level
      forFrom leaves.length (nextPow2 leaves.length) padRound level) =
    some (MerkleTree.paddedLeaves leaves).flatten := by
  have hblocks := length_of_mem_paddedLeaves leaves
  have hcount : (MerkleTree.paddedLeaves leaves).length = nextPow2 leaves.length := by
    rw [MerkleTree.length_paddedLeaves hne, nextPow2_length]
  have hroom : (MerkleTree.paddedLeaves leaves).length * MERKLE_HASH_SIZE ≤ level.length := by
    rw [hcount, hlevel]
  have hleaves : ∀ i < leaves.length, leafRound leaves.flatten leafSize i
      (filled (MerkleTree.paddedLeaves leaves) MERKLE_HASH_SIZE level i) =
        some (filled (MerkleTree.paddedLeaves leaves) MERKLE_HASH_SIZE level (i + 1)) := by
    intro i hi
    have hload := load_block hsize [] (List.getElem?_eq_getElem hi)
    have hnode : (MerkleTree.paddedLeaves leaves)[i]? = some (sha3_256 leaves[i]) := by
      rw [MerkleTree.paddedLeaves, List.getElem?_append_left (by simpa using hi)]
      simp [hi]
    rw [List.append_nil] at hload
    rw [leafRound, hload]
    exact store_filled hblocks hnode hroom
  have hpads : ∀ i, leaves.length ≤ i → i < nextPow2 leaves.length → padRound i
      (filled (MerkleTree.paddedLeaves leaves) MERKLE_HASH_SIZE level i) =
        some (filled (MerkleTree.paddedLeaves leaves) MERKLE_HASH_SIZE level (i + 1)) := by
    intro i hle hi
    have hnode : (MerkleTree.paddedLeaves leaves)[i]? = some padHash := by
      rw [nextPow2_eq] at hi
      rw [MerkleTree.paddedLeaves, List.getElem?_append_right (by simpa using hle),
        List.length_map, List.getElem?_replicate, if_pos (by omega)]
      rfl
    exact store_filled hblocks hnode hroom
  have hle : leaves.length ≤ nextPow2 leaves.length := by
    rw [← hcount, MerkleTree.paddedLeaves, List.length_append, List.length_map]
    exact Nat.le_add_right _ _
  have hfirst := forRange_eq_some hleaves
  have hsecond := forFrom_eq_some hle hpads
  rw [filled_zero] at hfirst
  rw [hfirst, Option.bind_eq_bind, Option.bind_some, hsecond, ← hcount]
  exact congrArg some (filled_eq_flatten (by rw [hcount, hlevel]))

theorem merkleBuildWithProof_eq {nextLevel : Bytes} {leafIndex : ℕ} {proof : MerkleProof}
    (hsize : ∀ b ∈ leaves, b.length = leafSize)
    (hlevel : level.length = nextPow2 leaves.length * MERKLE_HASH_SIZE)
    (hnext : nextLevel.length = (nextPow2 leaves.length / 2 + 1) * MERKLE_HASH_SIZE)
    (hindex : leafIndex < leaves.length)
    (hroom : MerkleTree.depth leaves ≤ proof.entries.length) :
    ∃ proof', merkleBuildWithProof level nextLevel leaves.flatten leaves.length leafSize leafIndex
        proof = some (MerkleTree.root leaves, proof') ∧
      proof'.view = MerkleTree.proofFrom (MerkleTree.buildTree leaves) leafIndex := by
  obtain ⟨hne, hidx⟩ := MerkleTree.lt_two_pow_depth hindex
  have hbuffer : 2 ^ MerkleTree.depth leaves / 2 * MERKLE_HASH_SIZE ≤ nextLevel.length := by
    rw [hnext, nextPow2_length]
    exact Nat.mul_le_mul_right _ (Nat.le_succ _)
  have hempty : ({ proof with depth := 0 } : MerkleProof).depth + MerkleTree.depth leaves ≤
      ({ proof with depth := 0 } : MerkleProof).entries.length := by
    simpa using hroom
  obtain ⟨proof', hloop, hview⟩ := proofLoop_eq (length_of_mem_paddedLeaves leaves)
    (MerkleTree.length_paddedLeaves hne) hidx [] hbuffer hempty
  refine ⟨proof', ?_, ?_⟩
  · have hpadded := paddedLevel_eq hsize hne hlevel
    rw [List.append_nil] at hloop
    rw [merkleBuildWithProof]
    rw [← bind_assoc, hpadded, nextPow2_length]
    exact hloop
  · rw [hview, MerkleProof.view]
    rfl

end Build

end C

end Qrtb
