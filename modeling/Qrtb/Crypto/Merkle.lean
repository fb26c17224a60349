import Qrtb.Crypto.Wots
import Qrtb.Lib.HashTree
import Mathlib.Data.Nat.Size

/-!
# Merkle trees and temporal authentication (`src/crypto.py`)

`MerkleTree` hashes its leaves, pads them to a power of two and hashes pairs
level by level. A proof is the list of siblings from the leaf upwards, each with
a flag that is set when the path node is a right child.
-/

namespace Qrtb

open Keccak

/-- A sibling digest and its position flag (any non-zero flag counts as set). -/
abbrev ProofEntry := Bytes × ℕ

namespace MerkleTree

/-- One pass of `_build_tree`: hash consecutive pairs. -/
def nextLevel : List Bytes → List Bytes
  | a :: b :: rest => sha3_256 (a ++ b) :: nextLevel rest
  | _ => []

theorem length_nextLevel (level : List Bytes) : (nextLevel level).length = level.length / 2 := by
  induction level using nextLevel.induct with
  | case1 a b rest ih => simp only [nextLevel, List.length_cons, ih]; omega
  | case2 level h =>
    rcases level with - | ⟨a, - | ⟨b, rest⟩⟩
    · rfl
    · simp [nextLevel]
    · exact absurd rfl (h a b rest)

/-- The leaves after hashing and padding to the next power of two. -/
def paddedLeaves (leaves : List Bytes) : List Bytes :=
  leaves.map sha3_256 ++
    List.replicate (1 <<< Nat.size (leaves.length - 1) - leaves.length)
      (sha3_256 (ascii ['p', 'a', 'd']))

/-- Reduce one level to the single node on top. -/
def reduce (level : List Bytes) : List Bytes :=
  if level.length > 1 then reduce (nextLevel level) else level
termination_by level.length
decreasing_by
  rw [length_nextLevel]
  omega

/-- The root of a tree over a non-empty list of leaves. -/
def root (leaves : List Bytes) : Bytes := (reduce (paddedLeaves leaves)).headD []

/-- One step of a proof: hash the path node with its sibling on the side the flag says. -/
def climb (current : Bytes) (entry : ProofEntry) : Bytes :=
  if entry.2 ≠ 0 then sha3_256 (entry.1 ++ current) else sha3_256 (current ++ entry.1)

/-- A 32-byte leaf is taken as already hashed. -/
def verifyProof (leaf : Bytes) (proof : List ProofEntry) (root : Bytes) : Bool :=
  let start := if leaf.length ≠ 32 then sha3_256 leaf else leaf
  proof.foldl climb start == root

/-- The strings one pass of `_build_tree` hashes. -/
def pairInputs : List Bytes → List Bytes
  | a :: b :: rest => (a ++ b) :: pairInputs rest
  | _ => []

/-- All levels, from the padded leaves to the one with the root alone. -/
def levels (level : List Bytes) : List (List Bytes) :=
  if level.length > 1 then level :: levels (nextLevel level) else [level]
termination_by level.length
decreasing_by
  rw [length_nextLevel]
  omega

/-- `tree` of a Merkle tree over a non-empty list of leaves. -/
def buildTree (leaves : List Bytes) : List (List Bytes) := levels (paddedLeaves leaves)

/-- The loop of `get_proof` over `tree[:-1]`. -/
def proofFrom : List (List Bytes) → ℕ → List ProofEntry
  | level :: next :: above, idx =>
    (level[idx ^^^ 1]?.map fun sibling => (sibling, idx % 2)).toList ++
      proofFrom (next :: above) (idx / 2)
  | _, _ => []

def getProof (leaves : List Bytes) (index : ℕ) : Except PyError (List ProofEntry) :=
  if index ≥ leaves.length then .error .indexError
  else .ok (proofFrom (buildTree leaves) index)

/-- The strings hashed by a construction: the leaves, the padding and the pairs of all levels. -/
def buildInputs (leaves : List Bytes) : List Bytes :=
  leaves ++ ascii ['p', 'a', 'd'] :: (buildTree leaves).flatMap pairInputs

/-- The strings hashed on the way up from a node. -/
def climbInputs (current : Bytes) : List ProofEntry → List Bytes
  | [] => []
  | entry :: entries =>
    (if entry.2 ≠ 0 then entry.1 ++ current else current ++ entry.1) ::
      climbInputs (climb current entry) entries

def joinHash (a b : Bytes) : Bytes := sha3_256 (a ++ b)

def leafAt (leaves : List Bytes) (i : ℕ) : Bytes := (paddedLeaves leaves).getD i []

/-- The node at a height and a position. -/
def nodeAt (leaves : List Bytes) : ℕ → ℕ → Bytes := HashTree.nodeAt joinHash (leafAt leaves)

def depth (leaves : List Bytes) : ℕ := Nat.size (leaves.length - 1)

theorem climb_eq (current : Bytes) (entry : ProofEntry) :
    climb current entry = HashTree.climb joinHash current entry := by
  unfold climb HashTree.climb HashTree.pair joinHash
  split_ifs <;> rfl

theorem length_paddedLeaves {leaves : List Bytes} (h : leaves ≠ []) :
    (paddedLeaves leaves).length = 2 ^ depth leaves := by
  have hpos : 0 < leaves.length := List.length_pos_iff.mpr h
  have hlt := Nat.lt_size_self (leaves.length - 1)
  simp only [paddedLeaves, depth, List.length_append, List.length_map, List.length_replicate,
    Nat.one_shiftLeft]
  omega

theorem lt_two_pow_depth {leaves : List Bytes} {i : ℕ} (hi : i < leaves.length) :
    leaves ≠ [] ∧ i < 2 ^ depth leaves := by
  have hlt := Nat.lt_size_self (leaves.length - 1)
  constructor
  · rintro rfl
    simp at hi
  · rw [depth]
    omega

theorem depth_le_iff {leaves : List Bytes} (h : leaves ≠ []) (k : ℕ) :
    depth leaves ≤ k ↔ leaves.length ≤ 2 ^ k := by
  have hpos : 0 < leaves.length := List.length_pos_iff.mpr h
  rw [depth, Nat.size_le]
  omega

theorem leafAt_of_lt {leaves : List Bytes} {i : ℕ} (hi : i < leaves.length) :
    leafAt leaves i = sha3_256 leaves[i] := by
  simp [leafAt, paddedLeaves, List.getD_eq_getElem?_getD, List.getElem?_append_left, hi]

theorem range_two_mul (m : ℕ) :
    List.range (2 * (m + 1)) = 0 :: 1 :: (List.range (2 * m)).map (· + 2) := by
  rw [Nat.mul_succ, List.range_succ_eq_map, List.range_succ_eq_map]
  simp

theorem pairInputs_range (f : ℕ → Bytes) (m : ℕ) :
    pairInputs ((List.range (2 * m)).map f) =
      (List.range m).map fun i => f (2 * i) ++ f (2 * i + 1) := by
  induction m generalizing f with
  | zero => rfl
  | succ m ih =>
    rw [range_two_mul, List.map_cons, List.map_cons, List.map_map, pairInputs, ih,
      List.range_succ_eq_map, List.map_cons, List.map_map]
    rfl

theorem nextLevel_eq (level : List Bytes) : nextLevel level = (pairInputs level).map sha3_256 := by
  induction level using nextLevel.induct with
  | case1 a b rest ih => simp [nextLevel, pairInputs, ih]
  | case2 level h =>
    rcases level with - | ⟨a, - | ⟨b, rest⟩⟩
    · rfl
    · rfl
    · exact absurd rfl (h a b rest)

theorem getElem?_pairInputs {level : List Bytes} {i : ℕ} {a b : Bytes}
    (ha : level[2 * i]? = some a) (hb : level[2 * i + 1]? = some b) :
    (pairInputs level)[i]? = some (a ++ b) := by
  induction level using pairInputs.induct generalizing i with
  | case1 c d rest ih =>
    cases i with
    | zero =>
      obtain rfl : c = a := by simpa using ha
      obtain rfl : d = b := by simpa using hb
      rfl
    | succ i => exact ih ha hb
  | case2 level h =>
    rcases level with - | ⟨c, - | ⟨d, rest⟩⟩
    · simp at ha
    · simp at hb
    · exact absurd rfl (h c d rest)

/-- A node of the next level is made of the two nodes at its double place. -/
theorem getElem?_nextLevel {level : List Bytes} {i : ℕ} {a b : Bytes}
    (ha : level[2 * i]? = some a) (hb : level[2 * i + 1]? = some b) :
    (nextLevel level)[i]? = some (joinHash a b) := by
  rw [nextLevel_eq, List.getElem?_map, getElem?_pairInputs ha hb]
  rfl

/-- The level at a height, when the tree below it has the given depth. -/
def levelAt (leaves : List Bytes) (k d : ℕ) : List Bytes := (List.range (2 ^ d)).map (nodeAt leaves k)

theorem nextLevel_levelAt (leaves : List Bytes) (k d : ℕ) :
    nextLevel (levelAt leaves k (d + 1)) = levelAt leaves (k + 1) d := by
  rw [nextLevel_eq, levelAt, pow_succ', pairInputs_range, List.map_map]
  rfl

theorem paddedLeaves_eq {leaves : List Bytes} (h : leaves ≠ []) :
    paddedLeaves leaves = levelAt leaves 0 (depth leaves) := by
  apply List.ext_getElem?
  intro i
  by_cases hi : i < 2 ^ depth leaves
  · have hi' : i < (paddedLeaves leaves).length := by rwa [length_paddedLeaves h]
    simp [levelAt, nodeAt, HashTree.nodeAt, leafAt, hi, hi']
  · have hi' : ¬ i < (paddedLeaves leaves).length := by rwa [length_paddedLeaves h]
    simp [levelAt, hi, hi']

theorem length_levelAt (leaves : List Bytes) (k d : ℕ) : (levelAt leaves k d).length = 2 ^ d := by
  simp [levelAt]

theorem levels_levelAt_zero (leaves : List Bytes) (k : ℕ) :
    levels (levelAt leaves k 0) = [levelAt leaves k 0] := by
  rw [levels, if_neg (by simp [length_levelAt])]

theorem levels_levelAt_succ (leaves : List Bytes) (k d : ℕ) :
    levels (levelAt leaves k (d + 1)) =
      levelAt leaves k (d + 1) :: levels (levelAt leaves (k + 1) d) := by
  have hlen : 1 < 2 ^ (d + 1) := Nat.one_lt_two_pow (by omega)
  rw [levels, if_pos (by rwa [length_levelAt]), nextLevel_levelAt]

theorem reduce_levelAt (leaves : List Bytes) (k d : ℕ) :
    reduce (levelAt leaves k d) = levelAt leaves (k + d) 0 := by
  induction d generalizing k with
  | zero => rw [reduce, if_neg (by simp [length_levelAt]), Nat.add_zero]
  | succ d ih =>
    have hlen : 1 < 2 ^ (d + 1) := Nat.one_lt_two_pow (by omega)
    rw [reduce, if_pos (by rwa [length_levelAt]), nextLevel_levelAt, ih]
    congr 1
    omega

theorem root_eq {leaves : List Bytes} (h : leaves ≠ []) :
    root leaves = nodeAt leaves (depth leaves) 0 := by
  rw [root, paddedLeaves_eq h, reduce_levelAt]
  simp [levelAt]

theorem proofFrom_levelAt (leaves : List Bytes) {k d i : ℕ} (hi : i < 2 ^ d) :
    proofFrom (levels (levelAt leaves k d)) i = HashTree.path joinHash (leafAt leaves) k d i := by
  induction d generalizing k i with
  | zero =>
    rw [levels_levelAt_zero]
    rfl
  | succ d ih =>
    have hsibling := HashTree.xor_one_lt hi
    have hhalf : i / 2 < 2 ^ d := by
      rw [pow_succ'] at hi
      omega
    have hrest := ih (k := k + 1) hhalf
    rw [HashTree.path, ← hrest, levels_levelAt_succ]
    have hget : (levelAt leaves k (d + 1))[i ^^^ 1]? = some (nodeAt leaves k (i ^^^ 1)) := by
      simp [levelAt, hsibling]
    cases hl : levels (levelAt leaves (k + 1) d) with
    | nil =>
      rw [levels] at hl
      split_ifs at hl
    | cons next above => simp [proofFrom, hget, nodeAt]

theorem proofFrom_buildTree {leaves : List Bytes} {index : ℕ} (hi : index < leaves.length) :
    proofFrom (buildTree leaves) index =
      HashTree.path joinHash (leafAt leaves) 0 (depth leaves) index := by
  obtain ⟨hne, hi'⟩ := lt_two_pow_depth hi
  rw [buildTree, paddedLeaves_eq hne, proofFrom_levelAt leaves hi']

theorem length_proofFrom {leaves : List Bytes} {index : ℕ} (hi : index < leaves.length) :
    (proofFrom (buildTree leaves) index).length = depth leaves := by
  rw [proofFrom_buildTree hi, HashTree.length_path]

theorem getProof_of_lt {leaves : List Bytes} {index : ℕ} (hi : index < leaves.length) :
    getProof leaves index = .ok (proofFrom (buildTree leaves) index) :=
  if_neg (Nat.not_le.mpr hi)

theorem getProof_eq_ok {leaves : List Bytes} {index : ℕ} (hi : index < leaves.length) :
    getProof leaves index =
      .ok (HashTree.path joinHash (leafAt leaves) 0 (depth leaves) index) := by
  rw [getProof_of_lt hi, proofFrom_buildTree hi]

theorem foldl_climb_getProof {leaves : List Bytes} {index : ℕ} (hi : index < leaves.length)
    {proof : List ProofEntry} (hp : getProof leaves index = .ok proof) :
    proof.foldl climb (sha3_256 leaves[index]) = root leaves := by
  obtain ⟨hne, hi'⟩ := lt_two_pow_depth hi
  have hclimb : climb = HashTree.climb joinHash := by
    funext current entry
    exact climb_eq current entry
  rw [getProof_eq_ok hi] at hp
  obtain rfl := Except.ok.inj hp
  have h := HashTree.climb_path joinHash (leafAt leaves) 0 (depth leaves) index
  rw [Nat.zero_add, Nat.div_eq_of_lt hi'] at h
  rw [hclimb, root_eq hne, ← leafAt_of_lt hi]
  exact h

theorem length_nodeAt (leaves : List Bytes) (hne : leaves ≠ []) {k i : ℕ}
    (hi : i < 2 ^ (depth leaves - k)) : (nodeAt leaves k i).length = 32 := by
  cases k with
  | zero =>
    have hi' : i < (paddedLeaves leaves).length := by rwa [length_paddedLeaves hne]
    have hall : ∀ node ∈ paddedLeaves leaves, node.length = 32 := by
      intro node hnode
      rcases List.mem_append.mp hnode with h | h
      · obtain ⟨leaf, -, rfl⟩ := List.mem_map.mp h
        exact length_sha3_256 _
      · rw [List.eq_of_mem_replicate h]
        exact length_sha3_256 _
    have hget : leafAt leaves i = (paddedLeaves leaves)[i] := by simp [leafAt, hi']
    change (leafAt leaves i).length = 32
    rw [hget]
    exact hall _ (List.getElem_mem hi')
  | succ k => exact length_sha3_256 _

theorem length_root {leaves : List Bytes} (hne : leaves ≠ []) : (root leaves).length = 32 := by
  rw [root_eq hne]
  exact length_nodeAt leaves hne (Nat.two_pow_pos _)

theorem length_of_mem_path {leaves : List Bytes} (hne : leaves ≠ []) {k count i : ℕ}
    (hk : k + count ≤ depth leaves) (hi : i < 2 ^ (depth leaves - k)) :
    ∀ e ∈ HashTree.path joinHash (leafAt leaves) k count i, e.1.length = 32 := by
  induction count generalizing k i with
  | zero => simp [HashTree.path]
  | succ count ih =>
    have hd : depth leaves - k = depth leaves - (k + 1) + 1 := by omega
    rw [hd] at hi
    rw [HashTree.path, List.forall_mem_cons]
    constructor
    · apply length_nodeAt leaves hne
      rw [hd]
      exact HashTree.xor_one_lt hi
    · rw [pow_succ'] at hi
      exact ih (by omega) (by omega)

theorem levelAt_mem_levels (leaves : List Bytes) {j d k : ℕ} (hk : k ≤ d) :
    levelAt leaves (j + k) (d - k) ∈ levels (levelAt leaves j d) := by
  induction d generalizing j k with
  | zero =>
    obtain rfl : k = 0 := by omega
    simp [levels_levelAt_zero]
  | succ d ih =>
    rw [levels_levelAt_succ]
    cases k with
    | zero => exact List.mem_cons_self
    | succ k =>
      apply List.mem_cons_of_mem
      have h := ih (j := j + 1) (k := k) (by omega)
      rw [show d + 1 - (k + 1) = d - k by omega, show j + (k + 1) = j + 1 + k by omega]
      exact h

theorem mem_buildInputs_of_isTreePair {leaves : List Bytes} (hne : leaves ≠ []) {q : Bytes × Bytes}
    (hq : HashTree.IsTreePair joinHash (leafAt leaves) (depth leaves) q) :
    q.1 ++ q.2 ∈ buildInputs leaves := by
  obtain ⟨k, i, hk, hi, rfl⟩ := hq
  have hlevel := levelAt_mem_levels leaves (j := 0) (d := depth leaves) (k := k) (by omega)
  rw [Nat.zero_add, ← paddedLeaves_eq hne] at hlevel
  have hd : depth leaves - k = depth leaves - (k + 1) + 1 := by omega
  apply List.mem_append_right
  apply List.mem_cons_of_mem
  apply List.mem_flatMap.mpr
  refine ⟨_, hlevel, ?_⟩
  rw [levelAt, hd, pow_succ', pairInputs_range]
  exact List.mem_map.mpr ⟨i, List.mem_range.mpr hi, rfl⟩

theorem climbInputs_eq (current : Bytes) (proof : List ProofEntry) :
    climbInputs current proof =
      (HashTree.climbPairs joinHash current proof).map fun p => p.1 ++ p.2 := by
  induction proof generalizing current with
  | nil => rfl
  | cons entry proof ih =>
    rw [climbInputs, HashTree.climbPairs, List.map_cons, ← climb_eq, ih, HashTree.pair]
    split_ifs <;> rfl

/-- With siblings of digest size, everything joined on the way up has digest size. -/
theorem length_of_mem_climbPairs {current : Bytes} {proof : List ProofEntry}
    (hcurrent : current.length = 32) (hproof : ∀ e ∈ proof, e.1.length = 32) {p : Bytes × Bytes}
    (hp : p ∈ HashTree.climbPairs joinHash current proof) :
    p.1.length = 32 ∧ p.2.length = 32 := by
  induction proof generalizing current with
  | nil => simp [HashTree.climbPairs] at hp
  | cons entry proof ih =>
    rw [List.forall_mem_cons] at hproof
    rcases List.mem_cons.mp hp with rfl | hp
    · unfold HashTree.pair
      split_ifs
      · exact ⟨hproof.1, hcurrent⟩
      · exact ⟨hcurrent, hproof.1⟩
    · exact ih (length_sha3_256 _) hproof.2 hp

/-- A climb that ends at the root began at the node its flags spell, or two of the strings hashed
in the construction and on the way up collide. -/
theorem foldl_climb_sound {leaves : List Bytes} (hne : leaves ≠ []) {current : Bytes}
    {proof : List ProofEntry} (hcurrent : current.length = 32)
    (hproof : ∀ e ∈ proof, e.1.length = 32) (hdepth : proof.length ≤ depth leaves)
    (h : proof.foldl climb current = root leaves) :
    current = nodeAt leaves (depth leaves - proof.length) (HashTree.position proof) ∨
      CollisionIn (buildInputs leaves ++ climbInputs current proof) := by
  have hclimb : climb = HashTree.climb joinHash := by
    funext current entry
    exact climb_eq current entry
  have htop : depth leaves - proof.length + proof.length = depth leaves := by omega
  have hend : proof.foldl (HashTree.climb joinHash) current =
      HashTree.nodeAt joinHash (leafAt leaves) (depth leaves - proof.length + proof.length) 0 := by
    rw [htop, ← hclimb, h, root_eq hne]
    rfl
  rcases HashTree.climb_sound joinHash (leafAt leaves) htop.le (by simp) hend
    with hnode | ⟨p, hp, q, hq, hpq, hjoin⟩
  · left
    rwa [Nat.zero_mul, Nat.zero_add] at hnode
  · right
    have hclimbed : p.1 ++ p.2 ∈ climbInputs current proof := by
      rw [climbInputs_eq]
      exact List.mem_map_of_mem hp
    refine ⟨_, List.mem_append_right _ hclimbed, _,
      List.mem_append_left _ (mem_buildInputs_of_isTreePair hne hq), ?_, hjoin⟩
    -- equal strings would be equal pairs, as the first halves are equally long
    intro he
    obtain ⟨k, i, hk, hi, rfl⟩ := hq
    have hleft : (nodeAt leaves k (2 * i)).length = 32 := by
      apply length_nodeAt leaves hne
      have hd : depth leaves - k = depth leaves - (k + 1) + 1 := by omega
      rw [hd, pow_succ']
      omega
    have hp' := (length_of_mem_climbPairs hcurrent hproof hp).1
    obtain ⟨h1, h2⟩ := List.append_inj he (hp'.trans hleft.symm)
    exact hpq (Prod.ext h1 h2)

/-- Checking a proof of the tree hashes nothing that its construction did not hash. -/
theorem climbInputs_getProof_subset {leaves : List Bytes} {index : ℕ} (hi : index < leaves.length)
    {proof : List ProofEntry} (hp : getProof leaves index = .ok proof) :
    climbInputs (sha3_256 leaves[index]) proof ⊆ buildInputs leaves := by
  obtain ⟨hne, hi'⟩ := lt_two_pow_depth hi
  rw [getProof_eq_ok hi] at hp
  obtain rfl := Except.ok.inj hp
  intro m hm
  rw [climbInputs_eq, ← leafAt_of_lt hi] at hm
  obtain ⟨p, hp, rfl⟩ := List.mem_map.mp hm
  have hdepth : 0 + depth leaves ≤ depth leaves := (Nat.zero_add _).le
  exact mem_buildInputs_of_isTreePair hne
    (HashTree.isTreePair_of_mem_climbPairs joinHash (leafAt leaves) hdepth hi' hp)

end MerkleTree

namespace TemporalAuthTree

/-- WOTS+ signature first, then membership of the public key under the root. -/
def verifyAgainstRoot (message signature publicKey : Bytes) (proof : List ProofEntry)
    (authRoot : Bytes) : Bool :=
  Wots.verify message signature publicKey &&
    MerkleTree.verifyProof (sha3_256 publicKey) proof authRoot

end TemporalAuthTree

end Qrtb
