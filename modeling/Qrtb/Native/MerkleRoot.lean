import Qrtb.Native.Merkle

/-!
# Merkle roots in Rust and in Python (`src/native/src/merkle.rs`, `src/crypto.py`)

`merkle_build_root` keeps one vector and writes every level over the front of
the one below; a node is written after it was read. The result is the root that
the Python code finds at the end of its stored levels, as long as there is a
leaf. Without leaves Python stores a digest where a level belongs, and its first
element is a byte.
-/

namespace Qrtb

open Keccak Buffer Native

namespace MerkleTree

/-- An entry of `tree`: a level, or the digest stored for no leaves. -/
inductive TreeEntry where
  | level (nodes : List Bytes)
  | digest (data : Bytes)

/-- What indexing an entry gives: a node of a level, or a byte of a digest. -/
inductive Element where
  | bytes (node : Bytes)
  | int (byte : ℕ)
  deriving DecidableEq

/-- `entry[0]`. -/
def TreeEntry.first : TreeEntry → Except PyError Element
  | .level [] => .error .indexError
  | .level (node :: _) => .ok (.bytes node)
  | .digest [] => .error .indexError
  | .digest (byte :: _) => .ok (.int byte.toNat)

/-- `_build_tree`. -/
def storedTree (leaves : List Bytes) : List TreeEntry :=
  if leaves.isEmpty then [.digest (sha3_256 (ascii ['e', 'm', 'p', 't', 'y']))]
  else (buildTree leaves).map .level

/-- The property `root`. -/
def rootElement (leaves : List Bytes) : Except PyError Element :=
  match (storedTree leaves).getLast? with
  | some entry => entry.first
  | none => .error .indexError

theorem getLast?_levels (level : List Bytes) : (levels level).getLast? = some (reduce level) := by
  induction level using levels.induct with
  | case1 level h ih =>
    rw [levels, reduce, if_pos h, if_pos h, List.getLast?_cons, ih]
    rfl
  | case2 level h => rw [levels, reduce, if_neg h, if_neg h, List.getLast?_singleton]

theorem length_reduce {level : List Bytes} {d : ℕ} (h : level.length = 2 ^ d) :
    (reduce level).length = 1 := by
  induction d generalizing level with
  | zero => rw [reduce_of_length_one h, h, pow_zero]
  | succ d ih => rw [reduce_of_pow h, ih (length_nextLevel_of_pow h)]

theorem rootElement_of_ne_nil {leaves : List Bytes} (h : leaves ≠ []) :
    rootElement leaves = .ok (.bytes (root leaves)) := by
  obtain ⟨top, htop⟩ := List.length_eq_one_iff.mp (length_reduce (length_paddedLeaves h))
  have hlast := getLast?_levels (paddedLeaves leaves)
  rw [htop] at hlast
  rw [rootElement, storedTree, if_neg (by simpa using h), List.getLast?_map, buildTree, hlast,
    root, htop]
  rfl

theorem rootElement_nil : ∃ byte, rootElement [] = .ok (.int byte) := by
  have hlength := length_sha3_256 (ascii ['e', 'm', 'p', 't', 'y'])
  rcases hdigest : sha3_256 (ascii ['e', 'm', 'p', 't', 'y']) with - | ⟨byte, rest⟩
  · simp [hdigest] at hlength
  · refine ⟨byte.toNat, ?_⟩
    simp [rootElement, storedTree, hdigest, TreeEntry.first]

end MerkleTree

namespace Rust

/-- `hashes[i] = hash_nodes(&hashes[2 * i], &hashes[2 * i + 1])`. -/
def reduceRound (i : ℕ) (hashes : List Bytes) : Option (List Bytes) := do
  let left ← hashes[2 * i]?
  let right ← hashes[2 * i + 1]?
  store hashes i [hashNodes left right]

/-- `while level_size > 1`. -/
def rootLoop (hashes : List Bytes) (levelSize : ℕ) : Option (List Bytes) :=
  if levelSize > 1 then do
    let hashes ← forRange (levelSize / 2) reduceRound hashes
    rootLoop hashes (levelSize / 2)
  else some hashes
termination_by levelSize

def merkleBuildRoot (leaves : List Bytes) : Option Bytes :=
  if leaves.isEmpty then some (sha3_256 (ascii ['e', 'm', 'p', 't', 'y']))
  else do
    let paddedSize := nextPow2 leaves.length
    let hashes ← rootLoop (padTo paddedSize (leaves.map sha3_256)) paddedSize
    hashes[0]?

/-- The next level replaces the front of its own, whatever is behind that. -/
theorem reduceRounds_eq (nodes rest : List Bytes) :
    forRange (nodes.length / 2) reduceRound (nodes ++ rest) =
      some (MerkleTree.nextLevel nodes ++ (nodes ++ rest).drop (nodes.length / 2)) := by
  have hlength := MerkleTree.length_nextLevel nodes
  -- after `i` rounds the first `i` places are overwritten, and only these
  have hrounds : ∀ i < nodes.length / 2,
      reduceRound i ((MerkleTree.nextLevel nodes).take i ++ (nodes ++ rest).drop i) =
        some ((MerkleTree.nextLevel nodes).take (i + 1) ++ (nodes ++ rest).drop (i + 1)) := by
    intro i hi
    obtain ⟨left, right, hleft, hright, hnode⟩ := exists_children hi
    obtain ⟨hlt, hnode⟩ := List.getElem?_eq_some_iff.mp hnode
    have hfront : ((MerkleTree.nextLevel nodes).take i).length = i :=
      List.length_take_of_le hlt.le
    have hread : ∀ j b, i ≤ j → nodes[j]? = some b →
        ((MerkleTree.nextLevel nodes).take i ++ (nodes ++ rest).drop i)[j]? = some b := by
      intro j b hij hj
      rw [List.getElem?_append_right (by omega), hfront, List.getElem?_drop,
        Nat.add_sub_cancel' hij,
        List.getElem?_append_left (List.getElem?_eq_some_iff.mp hj).1, hj]
    have hin : i < (nodes ++ rest).length := by
      rw [List.length_append]
      omega
    have hstore : store ((MerkleTree.nextLevel nodes).take i ++
        ([(nodes ++ rest)[i]] ++ (nodes ++ rest).drop (i + 1)))
          ((MerkleTree.nextLevel nodes).take i).length [hashNodes left right] =
        some ((MerkleTree.nextLevel nodes).take i ++
          ([hashNodes left right] ++ (nodes ++ rest).drop (i + 1))) :=
      store_append _ _ _ rfl
    rw [List.singleton_append, ← List.drop_eq_getElem_cons hin, hfront] at hstore
    rw [reduceRound, hread _ _ (by omega) hleft, hread _ _ (by omega) hright,
      List.take_succ_eq_append_getElem hlt, hnode, List.append_assoc]
    exact hstore
  have hloop := forRange_eq_some hrounds
  rwa [List.take_zero, List.nil_append, List.drop_zero,
    List.take_of_length_le hlength.le] at hloop

theorem rootLoop_eq {nodes : List Bytes} {d : ℕ} (hnodes : nodes.length = 2 ^ d)
    (rest : List Bytes) :
    ∃ rest', rootLoop (nodes ++ rest) (2 ^ d) = some (MerkleTree.reduce nodes ++ rest') := by
  induction d generalizing nodes rest with
  | zero =>
    refine ⟨rest, ?_⟩
    rw [rootLoop, if_neg (by simp), reduce_of_length_one hnodes]
  | succ d ih =>
    obtain ⟨hlarge, hhalf, -⟩ := one_level_up (Nat.two_pow_pos (d + 1))
    obtain ⟨rest', hloop⟩ := ih (length_nextLevel_of_pow hnodes)
      ((nodes ++ rest).drop (nodes.length / 2))
    have hrounds := reduceRounds_eq nodes rest
    rw [hnodes, hhalf] at hrounds hloop
    refine ⟨rest', ?_⟩
    rw [rootLoop, if_pos hlarge, hhalf, hrounds, Option.bind_eq_bind, Option.bind_some, hloop,
      reduce_of_pow hnodes]

theorem merkleBuildRoot_of_ne_nil {leaves : List Bytes} (h : leaves ≠ []) :
    merkleBuildRoot leaves = some (MerkleTree.root leaves) := by
  have hpadded : padTo (2 ^ MerkleTree.depth leaves) (leaves.map sha3_256) =
      MerkleTree.paddedLeaves leaves := by
    rw [← nextPow2_length, padTo_eq, nextPow2_eq, List.length_map]
    rfl
  obtain ⟨top, htop⟩ := List.length_eq_one_iff.mp
    (MerkleTree.length_reduce (MerkleTree.length_paddedLeaves h))
  obtain ⟨rest, hloop⟩ := rootLoop_eq (MerkleTree.length_paddedLeaves h) []
  rw [List.append_nil] at hloop
  rw [merkleBuildRoot, if_neg (by simpa using h)]
  simp only [nextPow2_length, hpadded, hloop, Option.bind_eq_bind, Option.bind_some]
  rw [MerkleTree.root, htop]
  rfl

/-- The two roots are the same digest exactly when there is a leaf. -/
theorem merkleBuildRoot_agrees (leaves : List Bytes) :
    (∃ digest : Bytes, digest.length = 32 ∧
      MerkleTree.rootElement leaves = .ok (.bytes digest) ∧
      merkleBuildRoot leaves = some digest) ↔ leaves ≠ [] := by
  constructor
  · rintro ⟨digest, -, hroot, -⟩ rfl
    obtain ⟨byte, hnil⟩ := MerkleTree.rootElement_nil
    rw [hnil] at hroot
    simp at hroot
  · intro h
    exact ⟨_, MerkleTree.length_root h, MerkleTree.rootElement_of_ne_nil h,
      merkleBuildRoot_of_ne_nil h⟩

/-- The empty list. -/
theorem merkleBuildRoot_disagrees :
    MerkleTree.rootElement [] = .ok (.int 131) ∧
      merkleBuildRoot [] = some (sha3_256 (ascii ['e', 'm', 'p', 't', 'y'])) ∧
      ¬ ∃ digest : Bytes, digest.length = 32 ∧
        MerkleTree.rootElement [] = .ok (.bytes digest) ∧ merkleBuildRoot [] = some digest := by
  have hint : MerkleTree.rootElement [] = .ok (.int 131) := by decide +kernel
  refine ⟨hint, rfl, ?_⟩
  rintro ⟨digest, -, hroot, -⟩
  rw [hint] at hroot
  simp at hroot

end Rust

end Qrtb
