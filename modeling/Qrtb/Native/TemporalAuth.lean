import Qrtb.Crypto.TemporalAuth
import Qrtb.Native.Merkle
import Qrtb.Native.Wots

/-!
# Temporal authentication in Rust and in C (`temporal_auth.rs`, `temporal_auth.c`)

A native tree computes all public keys and all proofs when it is made, where the
Python tree makes a proof when it signs. `none` stands for a panic of Rust and
for a C access outside of its memory; allocation is taken to succeed and to
return memory with any content. One list of events is a run of all three.
-/

namespace Qrtb

open Keccak Buffer Transition
open TemporalAuthTree (Call Live)

namespace Native

/-- The proof of a key, as `get_proof` computes it. -/
def keyProof (batchSeed : Bytes) (idx : ℕ) : List ProofEntry :=
  MerkleTree.proofFrom (MerkleTree.buildTree (publicKeys batchSeed)) idx

def keySignature (batchSeed : Bytes) (idx : ℕ) (message : Bytes) : TemporalSignature where
  signature := Wots.sign message (Wots.keygen (deriveKeySeed batchSeed idx)).1
  publicKey := (Wots.keygen (deriveKeySeed batchSeed idx)).2
  proof := keyProof batchSeed idx
  keyIndex := idx

variable {batchSeed : Bytes} {t : TemporalAuthTree Bytes}

theorem signWith_eq_keySignature (h : Live batchSeed t) {idx : ℕ} (hidx : idx < 1024)
    (message : Bytes) : t.signWith idx message = .ok (keySignature batchSeed idx message) :=
  h.signWith_eq_ok hidx message

/-! One call of the Python tree. -/

theorem apply_sign_of_full (hfull : t.keyIndex ≥ USABLE_KEYS) (message : Bytes) :
    t.apply (.sign message) = (.error .valueError, t) :=
  if_pos hfull

theorem apply_sign_of_free (h : Live batchSeed t) (hfree : ¬ t.keyIndex ≥ USABLE_KEYS)
    (message : Bytes) :
    t.apply (.sign message) =
      (.ok (keySignature batchSeed t.keyIndex message), { t with keyIndex := t.keyIndex + 1 }) := by
  have hidx : t.keyIndex < 1024 := Nat.lt_trans (Nat.lt_of_not_le hfree) (by decide)
  rw [← signWith_eq_keySignature h hidx]
  exact if_neg hfree

theorem apply_signRotation_of_full (hfull : t.rotationIndex ≥ RESERVED_ROTATION)
    (message : Bytes) : t.apply (.signRotation message) = (.error .valueError, t) :=
  if_pos hfull

theorem rotation_lt (hfree : ¬ t.rotationIndex ≥ RESERVED_ROTATION) :
    USABLE_KEYS + t.rotationIndex < TOTAL_KEYS_PER_BATCH :=
  Nat.add_lt_add_left (Nat.lt_of_not_le hfree) USABLE_KEYS

theorem apply_signRotation_of_free (h : Live batchSeed t)
    (hfree : ¬ t.rotationIndex ≥ RESERVED_ROTATION) (message : Bytes) :
    t.apply (.signRotation message) =
      (.ok (keySignature batchSeed (USABLE_KEYS + t.rotationIndex) message),
        { t with rotationIndex := t.rotationIndex + 1 }) := by
  rw [← signWith_eq_keySignature h (rotation_lt hfree)]
  exact if_neg hfree

theorem live_apply (h : Live batchSeed t) (call : Call) : Live batchSeed (t.apply call).2 := by
  have hstep : TemporalAuthTree.Step t ⟨call, (t.apply call).1⟩ (t.apply call).2 := rfl
  exact (Live.issued (.single hstep) h).live

theorem length_deriveKeySeed (batchSeed : Bytes) (i : ℕ) :
    (deriveKeySeed batchSeed i).length = 64 :=
  length_sha3_512 _

theorem length_keygen (seed : Bytes) :
    (Wots.keygen seed).1.length = WOTS_SIG_SIZE ∧ (Wots.keygen seed).2.length = WOTS_SIG_SIZE := by
  have hstarts : (chainStarts seed).flatten.length = WOTS_SIG_SIZE := by
    rw [length_flatten_of_size (length_of_mem_chainStarts seed), length_chainStarts, WOTS_SIG_SIZE]
  have hends : (chainEnds seed).flatten.length = WOTS_SIG_SIZE := by
    rw [length_flatten_of_size (length_of_mem_chainEnds seed), length_chainEnds, WOTS_SIG_SIZE]
  exact ⟨hstarts, hends⟩

theorem length_of_mem_publicKeys (batchSeed : Bytes) :
    ∀ b ∈ publicKeys batchSeed, b.length = WOTS_SIG_SIZE := by
  intro b hb
  obtain ⟨i, -, rfl⟩ := List.mem_map.mp hb
  exact (length_keygen _).2

theorem getElem?_publicKeys (batchSeed : Bytes) {i : ℕ} (hi : i < TOTAL_KEYS_PER_BATCH) :
    (publicKeys batchSeed)[i]? = some (Wots.keygen (deriveKeySeed batchSeed i)).2 := by
  simp [publicKeys, hi]

end Native

namespace Rust

open Native

def deriveKeySeed (batchSeed : Bytes) (index : ℕ) : Bytes :=
  sha3_512 (ascii ['k', 'e', 'y', '_', 's', 'e', 'e', 'd'] ++ batchSeed ++ Bytes.bigEndian 8 index)

structure TemporalSignature where
  signature : Bytes
  publicKey : Bytes
  proof : MerkleProof
  keyIndex : ℕ

structure TemporalAuthTree where
  batchSeed : Bytes
  authRoot : Bytes
  keyIndex : ℕ
  rotationIndex : ℕ
  pubKeys : List Bytes
  proofs : List MerkleProof

def keyRound (batchSeed : Bytes) (i : ℕ) (pubKeys : List Bytes) : Option (List Bytes) := do
  let keySeed := deriveKeySeed batchSeed i
  let keys ← wotsKeygen keySeed
  return pubKeys ++ [keys.2]

/-- The root is taken in the first round. -/
def proofRound (leaves : List Bytes) (i : ℕ) (made : Bytes × List MerkleProof) :
    Option (Bytes × List MerkleProof) := do
  let built ← merkleBuildWithProof leaves i
  return (if i = 0 then built.1 else made.1, made.2 ++ [built.2])

namespace TemporalAuthTree

def new (batchSeed : Bytes) : Option TemporalAuthTree := do
  let pubKeys ← forRange TOTAL_KEYS_PER_BATCH (keyRound batchSeed) []
  let made ← forRange TOTAL_KEYS_PER_BATCH (proofRound pubKeys)
    (List.replicate MERKLE_HASH_SIZE 0, [])
  return { batchSeed := batchSeed, authRoot := made.1, keyIndex := 0, rotationIndex := 0,
           pubKeys := pubKeys, proofs := made.2 }

/-- The common part of the two signing calls. -/
def signWith (idx : ℕ) (message : Bytes) (t : TemporalAuthTree) : Option TemporalSignature := do
  let keySeed := deriveKeySeed t.batchSeed idx
  let keys ← wotsKeygen keySeed
  let sig ← wotsSign message keys.1
  let proof ← t.proofs[idx]?
  return { signature := sig, publicKey := keys.2, proof := proof, keyIndex := idx }

/-- The inner `none` is the one that the call returns. -/
def sign (message : Bytes) (t : TemporalAuthTree) :
    Option (Option TemporalSignature × TemporalAuthTree) :=
  if t.keyIndex ≥ USABLE_KEYS then some (none, t)
  else do
    let s ← t.signWith t.keyIndex message
    return (some s, { t with keyIndex := t.keyIndex + 1 })

def signRotation (message : Bytes) (t : TemporalAuthTree) :
    Option (Option TemporalSignature × TemporalAuthTree) :=
  if t.rotationIndex ≥ RESERVED_ROTATION then some (none, t)
  else do
    let s ← t.signWith (USABLE_KEYS + t.rotationIndex) message
    return (some s, { t with rotationIndex := t.rotationIndex + 1 })

def apply (t : TemporalAuthTree) : Call → Option (Option TemporalSignature × TemporalAuthTree)
  | .sign message => t.sign message
  | .signRotation message => t.signRotation message

end TemporalAuthTree

def TemporalSignature.view (s : TemporalSignature) : Qrtb.TemporalSignature :=
  { signature := s.signature, publicKey := s.publicKey, proof := s.proof.view,
    keyIndex := s.keyIndex }

/-- `None` reports what the Python code raises. -/
def outcome : Option TemporalSignature → Except PyError Qrtb.TemporalSignature
  | some s => .ok s.view
  | none => .error .valueError

def Step (t : TemporalAuthTree) (e : Qrtb.TemporalAuthTree.Event) (t' : TemporalAuthTree) : Prop :=
  ∃ out, t.apply e.call = some (out, t') ∧ outcome out = e.outcome

/-- The native tree has the keys and proofs of the batch and the counters of the Python tree. -/
structure Tracks (batchSeed : Bytes) (t : Qrtb.TemporalAuthTree Bytes) (r : TemporalAuthTree) :
    Prop where
  seed : r.batchSeed = batchSeed
  root : r.authRoot = batchRoot batchSeed
  keyIndex : r.keyIndex = t.keyIndex
  rotationIndex : r.rotationIndex = t.rotationIndex
  proofs : r.proofs.map MerkleProof.view = (List.range TOTAL_KEYS_PER_BATCH).map (keyProof batchSeed)

variable {batchSeed : Bytes} {t : Qrtb.TemporalAuthTree Bytes} {r : TemporalAuthTree}

theorem keyRounds_eq (batchSeed : Bytes) :
    forRange TOTAL_KEYS_PER_BATCH (keyRound batchSeed) [] = some (publicKeys batchSeed) := by
  have hrounds : ∀ i < TOTAL_KEYS_PER_BATCH,
      keyRound batchSeed i ((publicKeys batchSeed).take i) =
        some ((publicKeys batchSeed).take (i + 1)) := by
    intro i hi
    have hkey := getElem?_publicKeys batchSeed hi
    obtain ⟨hlt, hkey⟩ := List.getElem?_eq_some_iff.mp hkey
    have hseed : deriveKeySeed batchSeed i = Qrtb.deriveKeySeed batchSeed i := rfl
    rw [keyRound, hseed, wotsKeygen_eq, List.take_succ_eq_append_getElem hlt, hkey]
    rfl
  have hall : (publicKeys batchSeed).take TOTAL_KEYS_PER_BATCH = publicKeys batchSeed :=
    List.take_of_length_le (TemporalAuthTree.length_publicKeys batchSeed).le
  have hloop := forRange_eq_some hrounds
  rwa [hall] at hloop

theorem proofRounds_eq (batchSeed : Bytes) :
    ∃ made, forRange TOTAL_KEYS_PER_BATCH (proofRound (publicKeys batchSeed))
        (List.replicate MERKLE_HASH_SIZE 0, []) = some made ∧
      made.1 = batchRoot batchSeed ∧
      made.2.map MerkleProof.view = (List.range TOTAL_KEYS_PER_BATCH).map (keyProof batchSeed) := by
  let I (i : ℕ) (made : Bytes × List MerkleProof) : Prop :=
    (0 < i → made.1 = batchRoot batchSeed) ∧
      made.2.map MerkleProof.view = (List.range i).map (keyProof batchSeed)
  have hround : ∀ i < TOTAL_KEYS_PER_BATCH, ∀ made, I i made →
      ∃ made', proofRound (publicKeys batchSeed) i made = some made' ∧ I (i + 1) made' := by
    intro i hi made ⟨hroot, hproofs⟩
    have hindex : i < (publicKeys batchSeed).length := by
      rwa [Qrtb.TemporalAuthTree.length_publicKeys]
    obtain ⟨proof, hbuild, hview⟩ := merkleBuildWithProof_eq hindex
    refine ⟨_, by rw [proofRound, hbuild]; rfl, ?_, ?_⟩
    · intro _
      rcases Nat.eq_zero_or_pos i with rfl | hpos
      · rfl
      · rw [if_neg (by omega), hroot hpos]
    · rw [List.map_append, hproofs, List.range_succ, List.map_append]
      simp [hview, keyProof]
  have hstart : I 0 (List.replicate MERKLE_HASH_SIZE 0, []) := ⟨fun h => absurd h (by decide), rfl⟩
  obtain ⟨made, hloop, hroot, hproofs⟩ := forRange_invariant hstart hround
  exact ⟨made, hloop, hroot (by decide), hproofs⟩

theorem new_tracks (batchSeed : Bytes) :
    ∃ r, TemporalAuthTree.new batchSeed = some r ∧
      Tracks batchSeed (Qrtb.TemporalAuthTree.init batchSeed) r := by
  obtain ⟨made, hloop, hroot, hproofs⟩ := proofRounds_eq batchSeed
  refine ⟨{ batchSeed := batchSeed, authRoot := made.1, keyIndex := 0, rotationIndex := 0,
            pubKeys := publicKeys batchSeed, proofs := made.2 }, ?_, rfl, hroot, rfl, rfl, hproofs⟩
  rw [TemporalAuthTree.new, keyRounds_eq, Option.bind_eq_bind, Option.bind_some, hloop]
  rfl

theorem Tracks.signWith (h : Tracks batchSeed t r) {idx : ℕ} (hidx : idx < TOTAL_KEYS_PER_BATCH)
    (message : Bytes) :
    ∃ s, r.signWith idx message = some s ∧ s.view = keySignature batchSeed idx message := by
  have hproofs := congrArg (·[idx]?) h.proofs
  rw [List.getElem?_map, List.getElem?_map, List.getElem?_range hidx, Option.map_some,
    Option.map_eq_some_iff] at hproofs
  obtain ⟨proof, hproof, hview⟩ := hproofs
  have hseed : deriveKeySeed batchSeed idx = Qrtb.deriveKeySeed batchSeed idx := rfl
  let keys := Wots.keygen (Qrtb.deriveKeySeed batchSeed idx)
  let s : TemporalSignature :=
    { signature := Wots.sign message keys.1, publicKey := keys.2, proof := proof, keyIndex := idx }
  have hs : r.signWith idx message = some s := by
    simp only [TemporalAuthTree.signWith, h.seed, hseed, wotsKeygen_eq, hproof,
      wotsSign_eq message (length_keygen _).1, Option.bind_eq_bind, Option.bind_some]
    rfl
  refine ⟨s, hs, ?_⟩
  rw [TemporalSignature.view, hview]
  rfl

theorem Tracks.apply (hlive : Live batchSeed t) (h : Tracks batchSeed t r) (call : Call) :
    ∃ out r', r.apply call = some (out, r') ∧ outcome out = (t.apply call).1 ∧
      Tracks batchSeed (t.apply call).2 r' := by
  cases call with
  | sign message =>
    by_cases hfull : t.keyIndex ≥ USABLE_KEYS
    · rw [apply_sign_of_full hfull]
      rw [← h.keyIndex] at hfull
      exact ⟨none, r, if_pos hfull, rfl, h⟩
    · obtain ⟨s, hs, hview⟩ := h.signWith (Nat.lt_trans (Nat.lt_of_not_le hfull) (by decide)) message
      rw [apply_sign_of_free hlive hfull, ← hview]
      rw [← h.keyIndex] at hfull hs
      refine ⟨some s, { r with keyIndex := r.keyIndex + 1 }, ?_, rfl, ?_⟩
      · rw [TemporalAuthTree.apply, TemporalAuthTree.sign, if_neg hfull, hs]
        rfl
      · exact { h with keyIndex := congrArg (· + 1) h.keyIndex }
  | signRotation message =>
    by_cases hfull : t.rotationIndex ≥ RESERVED_ROTATION
    · rw [apply_signRotation_of_full hfull]
      rw [← h.rotationIndex] at hfull
      exact ⟨none, r, if_pos hfull, rfl, h⟩
    · obtain ⟨s, hs, hview⟩ := h.signWith (rotation_lt hfull) message
      rw [apply_signRotation_of_free hlive hfull, ← hview]
      rw [← h.rotationIndex] at hfull hs
      refine ⟨some s, { r with rotationIndex := r.rotationIndex + 1 }, ?_, rfl, ?_⟩
      · rw [TemporalAuthTree.apply, TemporalAuthTree.signRotation, if_neg hfull, hs]
        rfl
      · exact { h with rotationIndex := congrArg (· + 1) h.rotationIndex }

end Rust

namespace C

open Native

def deriveKeySeed (batchSeed : Bytes) (index : ℕ) : Option Bytes := do
  let seed ← load batchSeed 0 64
  return sha3_512 (ascii ['k', 'e', 'y', '_', 's', 'e', 'e', 'd'] ++ seed ++
    [UInt8.ofNat ((index >>> 56) &&& 0xFF), UInt8.ofNat ((index >>> 48) &&& 0xFF),
      UInt8.ofNat ((index >>> 40) &&& 0xFF), UInt8.ofNat ((index >>> 32) &&& 0xFF),
      UInt8.ofNat ((index >>> 24) &&& 0xFF), UInt8.ofNat ((index >>> 16) &&& 0xFF),
      UInt8.ofNat ((index >>> 8) &&& 0xFF), UInt8.ofNat (index &&& 0xFF)])

/-- The out-parameters of a signing call. -/
structure TemporalSignature where
  signature : Bytes
  publicKey : Bytes
  proof : MerkleProof
  keyIndex : ℕ

structure TemporalAuthTree where
  batchSeed : Bytes
  authRoot : Bytes
  keyIndex : ℕ
  rotationIndex : ℕ
  pubKeys : Bytes
  proofs : List MerkleProof

/-- The byte arrays that are not written before they are used. -/
inductive Slot where
  | pubKeys
  | privateKey
  | authRoot
  | chunks
  | level (i : ℕ)
  | nextLevel (i : ℕ)

/-- What the variables of a call hold at first: anything of the right size. -/
structure Memory where
  bytes : Slot → ℕ → Bytes
  proofs : ℕ → List MerkleProof
  out : TemporalSignature
  length_bytes : ∀ slot size, (bytes slot size).length = size
  length_proofs : ∀ size, (proofs size).length = size
  length_entries : ∀ size, ∀ p ∈ proofs size, p.entries.length = MERKLE_MAX_DEPTH
  length_signature : out.signature.length = WOTS_SIG_SIZE
  length_publicKey : out.publicKey.length = WOTS_SIG_SIZE

/-- `wots_keygen` writes into the array of public keys; the private key is used again. -/
def keyRound (batchSeed : Bytes) (i : ℕ) (made : Bytes × Bytes) : Option (Bytes × Bytes) := do
  let keySeed ← deriveKeySeed batchSeed i
  let place ← load made.1 (i * WOTS_SIG_SIZE) WOTS_SIG_SIZE
  let keys ← wotsKeygen keySeed made.2 place
  let pubKeys ← store made.1 (i * WOTS_SIG_SIZE) keys.2
  return (pubKeys, keys.1)

/-- The root is taken in the first round. -/
def proofRound (memory : Memory) (pubKeys : Bytes) (i : ℕ) (made : Bytes × List MerkleProof) :
    Option (Bytes × List MerkleProof) := do
  let place ← made.2[i]?
  let paddedSize := nextPow2 TOTAL_KEYS_PER_BATCH
  let built ← merkleBuildWithProof (memory.bytes (.level i) (paddedSize * MERKLE_HASH_SIZE))
    (memory.bytes (.nextLevel i) ((paddedSize / 2 + 1) * MERKLE_HASH_SIZE)) pubKeys
    TOTAL_KEYS_PER_BATCH WOTS_SIG_SIZE i place
  let proofs ← store made.2 i [built.2]
  return (if i = 0 then built.1 else made.1, proofs)

def tatInit (memory : Memory) (batchSeed : Bytes) : Option TemporalAuthTree := do
  let seed ← load batchSeed 0 64
  let keys ← forRange TOTAL_KEYS_PER_BATCH (keyRound batchSeed)
    (memory.bytes .pubKeys (TOTAL_KEYS_PER_BATCH * WOTS_SIG_SIZE),
      memory.bytes .privateKey WOTS_SIG_SIZE)
  let made ← forRange TOTAL_KEYS_PER_BATCH (proofRound memory keys.1)
    (memory.bytes .authRoot MERKLE_HASH_SIZE, memory.proofs TOTAL_KEYS_PER_BATCH)
  return { batchSeed := seed, authRoot := made.1, keyIndex := 0, rotationIndex := 0,
           pubKeys := keys.1, proofs := made.2 }

namespace TemporalAuthTree

/-- The common part of the two signing calls. -/
def signWith (memory : Memory) (idx : ℕ) (message : Bytes) (t : TemporalAuthTree) :
    Option TemporalSignature := do
  let keySeed ← deriveKeySeed t.batchSeed idx
  let keys ← wotsKeygen keySeed (memory.bytes .privateKey WOTS_SIG_SIZE) memory.out.publicKey
  let sig ← wotsSign (memory.bytes .chunks WOTS_LEN_TOTAL) message keys.1 memory.out.signature
  let proof ← t.proofs[idx]?
  return { signature := sig, publicKey := keys.2, proof := proof, keyIndex := idx }

/-- `tat_sign`: the return code, the out-parameters and the tree. -/
def sign (memory : Memory) (message : Bytes) (t : TemporalAuthTree) :
    Option (ℤ × TemporalSignature × TemporalAuthTree) :=
  if t.keyIndex ≥ USABLE_KEYS then some (-1, memory.out, t)
  else do
    let s ← t.signWith memory t.keyIndex message
    return (0, s, { t with keyIndex := t.keyIndex + 1 })

/-- `tat_sign_rotation`. -/
def signRotation (memory : Memory) (message : Bytes) (t : TemporalAuthTree) :
    Option (ℤ × TemporalSignature × TemporalAuthTree) :=
  if t.rotationIndex ≥ RESERVED_ROTATION then some (-1, memory.out, t)
  else do
    let s ← t.signWith memory (USABLE_KEYS + t.rotationIndex) message
    return (0, s, { t with rotationIndex := t.rotationIndex + 1 })

def apply (t : TemporalAuthTree) (memory : Memory) :
    Call → Option (ℤ × TemporalSignature × TemporalAuthTree)
  | .sign message => t.sign memory message
  | .signRotation message => t.signRotation memory message

end TemporalAuthTree

def TemporalSignature.view (s : TemporalSignature) : Qrtb.TemporalSignature :=
  { signature := s.signature, publicKey := s.publicKey, proof := s.proof.view,
    keyIndex := s.keyIndex }

/-- Code 0 reports the out-parameters and code -1 what the Python code raises. -/
inductive Reports (s : TemporalSignature) : ℤ → Except PyError Qrtb.TemporalSignature → Prop
  | signed : Reports s 0 (.ok s.view)
  | exhausted : Reports s (-1) (.error .valueError)

def Step (t : TemporalAuthTree) (e : Qrtb.TemporalAuthTree.Event × Memory)
    (t' : TemporalAuthTree) : Prop :=
  ∃ code s, t.apply e.2 e.1.call = some (code, s, t') ∧ Reports s code e.1.outcome

/-- The native tree has the keys and proofs of the batch and the counters of the Python tree. -/
structure Tracks (batchSeed : Bytes) (t : Qrtb.TemporalAuthTree Bytes) (c : TemporalAuthTree) :
    Prop where
  seed : c.batchSeed = batchSeed
  root : c.authRoot = batchRoot batchSeed
  keyIndex : c.keyIndex = t.keyIndex
  rotationIndex : c.rotationIndex = t.rotationIndex
  proofs : ∀ i < TOTAL_KEYS_PER_BATCH, ∃ p, c.proofs[i]? = some p ∧ p.view = keyProof batchSeed i

variable {batchSeed : Bytes} {t : Qrtb.TemporalAuthTree Bytes} {c : TemporalAuthTree}

theorem deriveKeySeed_eq (h : batchSeed.length = 64) (index : ℕ) :
    deriveKeySeed batchSeed index = some (Qrtb.deriveKeySeed batchSeed index) := by
  have hload := load_all batchSeed
  rw [h] at hload
  rw [deriveKeySeed, hload, Qrtb.deriveKeySeed, Bytes.bigEndian_eight]
  rfl

theorem keyRounds_eq (h : batchSeed.length = 64) {pubKeys privateKey : Bytes}
    (hpublic : pubKeys.length = TOTAL_KEYS_PER_BATCH * WOTS_SIG_SIZE)
    (hprivate : privateKey.length = WOTS_SIG_SIZE) :
    ∃ made, forRange TOTAL_KEYS_PER_BATCH (keyRound batchSeed) (pubKeys, privateKey) = some made ∧
      made.1 = (publicKeys batchSeed).flatten := by
  have hcount : (publicKeys batchSeed).length = TOTAL_KEYS_PER_BATCH :=
    Qrtb.TemporalAuthTree.length_publicKeys batchSeed
  have hsize := length_of_mem_publicKeys batchSeed
  have hroom : (publicKeys batchSeed).length * WOTS_SIG_SIZE ≤ pubKeys.length := by
    rw [hcount, hpublic]
  let I (i : ℕ) (made : Bytes × Bytes) : Prop :=
    made.1 = filled (publicKeys batchSeed) WOTS_SIG_SIZE pubKeys i ∧
      made.2.length = WOTS_SIG_SIZE
  have hround : ∀ i < TOTAL_KEYS_PER_BATCH, ∀ made, I i made →
      ∃ made', keyRound batchSeed i made = some made' ∧ I (i + 1) made' := by
    rintro i hi ⟨keys, lastKey⟩ ⟨rfl, hlast⟩
    have hplace : i * WOTS_SIG_SIZE + WOTS_SIG_SIZE ≤
        (filled (publicKeys batchSeed) WOTS_SIG_SIZE pubKeys i).length := by
      rw [length_filled hsize hroom (by omega), hpublic, ← Nat.succ_mul]
      exact Nat.mul_le_mul_right _ hi
    obtain ⟨place, hload, hlength⟩ := exists_load hplace
    have hkeygen := wotsKeygen_eq (length_deriveKeySeed batchSeed i) hlast hlength
    have hstore := store_filled hsize (getElem?_publicKeys batchSeed hi) hroom
    refine ⟨(filled (publicKeys batchSeed) WOTS_SIG_SIZE pubKeys (i + 1),
      (Wots.keygen (Qrtb.deriveKeySeed batchSeed i)).1), ?_, rfl, (length_keygen _).1⟩
    rw [keyRound, deriveKeySeed_eq h]
    simp only [Option.bind_eq_bind, Option.bind_some, hload, hkeygen, hstore, Option.pure_def]
  have hstart : I 0 (pubKeys, privateKey) := ⟨(filled_zero pubKeys).symm, hprivate⟩
  obtain ⟨made, hloop, hmade, -⟩ := forRange_invariant hstart hround
  refine ⟨made, hloop, ?_⟩
  rw [hmade, ← hcount]
  exact filled_eq_flatten (by rw [hcount, hpublic])

theorem depth_publicKeys (batchSeed : Bytes) : MerkleTree.depth (publicKeys batchSeed) = 10 := by
  rw [MerkleTree.depth, Qrtb.TemporalAuthTree.length_publicKeys]
  decide

theorem proofRounds_eq (memory : Memory) (batchSeed root : Bytes) :
    ∃ made, forRange TOTAL_KEYS_PER_BATCH (proofRound memory (publicKeys batchSeed).flatten)
        (root, memory.proofs TOTAL_KEYS_PER_BATCH) = some made ∧
      made.1 = batchRoot batchSeed ∧
      ∀ i < TOTAL_KEYS_PER_BATCH, ∃ p, made.2[i]? = some p ∧ p.view = keyProof batchSeed i := by
  have hcount : (publicKeys batchSeed).length = TOTAL_KEYS_PER_BATCH :=
    Qrtb.TemporalAuthTree.length_publicKeys batchSeed
  -- the proofs before `i` are made and the places from `i` on are as they were allocated
  let I (i : ℕ) (made : Bytes × List MerkleProof) : Prop :=
    (0 < i → made.1 = batchRoot batchSeed) ∧ made.2.length = TOTAL_KEYS_PER_BATCH ∧
      (∀ j < i, ∃ p, made.2[j]? = some p ∧ p.view = keyProof batchSeed j) ∧
      ∀ j, i ≤ j → made.2[j]? = (memory.proofs TOTAL_KEYS_PER_BATCH)[j]?
  have hround : ∀ i < TOTAL_KEYS_PER_BATCH, ∀ made, I i made →
      ∃ made', proofRound memory (publicKeys batchSeed).flatten i made = some made' ∧
        I (i + 1) made' := by
    rintro i hi ⟨rootBefore, proofs⟩ ⟨hroot, hlength, hbefore, hafter⟩
    simp only at hroot hlength hbefore hafter
    have hlt : i < (memory.proofs TOTAL_KEYS_PER_BATCH).length := by
      rwa [memory.length_proofs]
    have hplace : proofs[i]? = some (memory.proofs TOTAL_KEYS_PER_BATCH)[i] := by
      rw [← List.getElem?_eq_getElem hlt]
      exact hafter i le_rfl
    have hentries := memory.length_entries _ _ (List.getElem_mem hlt)
    obtain ⟨proof, hbuild, hview⟩ := merkleBuildWithProof_eq
      (length_of_mem_publicKeys batchSeed)
      (memory.length_bytes (.level i) _) (memory.length_bytes (.nextLevel i) _)
      (show i < (publicKeys batchSeed).length by rwa [hcount])
      (show MerkleTree.depth (publicKeys batchSeed) ≤
        ((memory.proofs TOTAL_KEYS_PER_BATCH)[i]).entries.length by
          rw [depth_publicKeys, hentries]; decide)
    have hbatch : MerkleTree.root (publicKeys batchSeed) = batchRoot batchSeed := rfl
    rw [hcount, hbatch] at hbuild
    have hstore := store_singleton (show i < proofs.length by omega) proof
    refine ⟨(if i = 0 then batchRoot batchSeed else rootBefore, proofs.set i proof), ?_, ?_, ?_,
      ?_, ?_⟩
    · rw [proofRound, hplace, Option.bind_eq_bind, Option.bind_some]
      dsimp only
      rw [hbuild, Option.bind_eq_bind, Option.bind_some, hstore]
      rfl
    · intro _
      rcases Nat.eq_zero_or_pos i with rfl | hpos
      · change (if 0 = 0 then batchRoot batchSeed else rootBefore) = batchRoot batchSeed
        exact if_pos rfl
      · exact (if_neg (by omega)).trans (hroot hpos)
    · exact List.length_set.trans hlength
    · intro j hj
      rcases Nat.lt_succ_iff_lt_or_eq.mp hj with hlt | rfl
      · rw [List.getElem?_set_ne (by omega)]
        exact hbefore j hlt
      · exact ⟨proof, List.getElem?_set_self (by omega), hview⟩
    · intro j hj
      rw [List.getElem?_set_ne (by omega)]
      exact hafter j (by omega)
  have hstart : I 0 (root, memory.proofs TOTAL_KEYS_PER_BATCH) :=
    ⟨fun h => absurd h (by decide), memory.length_proofs _, fun j hj => absurd hj (by omega),
      fun _ _ => rfl⟩
  obtain ⟨made, hloop, hroot, -, hproofs, -⟩ := forRange_invariant hstart hround
  exact ⟨made, hloop, hroot (by decide), hproofs⟩

theorem tatInit_tracks (h : batchSeed.length = 64) (memory : Memory) :
    ∃ c, tatInit memory batchSeed = some c ∧
      Tracks batchSeed (Qrtb.TemporalAuthTree.init batchSeed) c := by
  obtain ⟨keys, hkeys, hpublic⟩ := keyRounds_eq h (memory.length_bytes .pubKeys _)
    (memory.length_bytes .privateKey _)
  obtain ⟨made, hmade, hroot, hproofs⟩ := proofRounds_eq memory batchSeed
    (memory.bytes .authRoot MERKLE_HASH_SIZE)
  have hload := load_all batchSeed
  rw [h] at hload
  rw [← hpublic] at hmade
  refine ⟨{ batchSeed := batchSeed, authRoot := made.1, keyIndex := 0, rotationIndex := 0,
            pubKeys := keys.1, proofs := made.2 }, ?_, rfl, hroot, rfl, rfl, hproofs⟩
  rw [tatInit]
  simp only [Option.bind_eq_bind, Option.bind_some, hload, hkeys, hmade]
  rfl

theorem Tracks.signWith (hseed : batchSeed.length = 64) (h : Tracks batchSeed t c)
    (memory : Memory) {idx : ℕ} (hidx : idx < TOTAL_KEYS_PER_BATCH) (message : Bytes) :
    ∃ s, c.signWith memory idx message = some s ∧ s.view = keySignature batchSeed idx message := by
  obtain ⟨proof, hproof, hview⟩ := h.proofs idx hidx
  let keys := Wots.keygen (Qrtb.deriveKeySeed batchSeed idx)
  let s : TemporalSignature :=
    { signature := Wots.sign message keys.1, publicKey := keys.2, proof := proof, keyIndex := idx }
  have hkeygen := wotsKeygen_eq (length_deriveKeySeed batchSeed idx)
    (memory.length_bytes .privateKey _) memory.length_publicKey
  have hsign := wotsSign_eq message (memory.length_bytes .chunks _)
    (length_keygen (Qrtb.deriveKeySeed batchSeed idx)).1 memory.length_signature
  have hs : c.signWith memory idx message = some s := by
    simp only [TemporalAuthTree.signWith, h.seed, deriveKeySeed_eq hseed, hkeygen, hsign, hproof,
      Option.bind_eq_bind, Option.bind_some]
    rfl
  refine ⟨s, hs, ?_⟩
  rw [TemporalSignature.view, hview]
  rfl

theorem Tracks.apply (hseed : batchSeed.length = 64) (hlive : Live batchSeed t)
    (h : Tracks batchSeed t c) (memory : Memory) (call : Call) :
    ∃ code s c', c.apply memory call = some (code, s, c') ∧ Reports s code (t.apply call).1 ∧
      Tracks batchSeed (t.apply call).2 c' := by
  cases call with
  | sign message =>
    by_cases hfull : t.keyIndex ≥ USABLE_KEYS
    · rw [apply_sign_of_full hfull]
      rw [← h.keyIndex] at hfull
      exact ⟨-1, memory.out, c, if_pos hfull, .exhausted, h⟩
    · have hidx : t.keyIndex < TOTAL_KEYS_PER_BATCH :=
        Nat.lt_trans (Nat.lt_of_not_le hfull) (by decide)
      obtain ⟨s, hs, hview⟩ := h.signWith hseed memory hidx message
      rw [apply_sign_of_free hlive hfull, ← hview]
      rw [← h.keyIndex] at hfull hs
      refine ⟨0, s, { c with keyIndex := c.keyIndex + 1 }, ?_, .signed, ?_⟩
      · rw [TemporalAuthTree.apply, TemporalAuthTree.sign, if_neg hfull, hs]
        rfl
      · exact { h with keyIndex := congrArg (· + 1) h.keyIndex }
  | signRotation message =>
    by_cases hfull : t.rotationIndex ≥ RESERVED_ROTATION
    · rw [apply_signRotation_of_full hfull]
      rw [← h.rotationIndex] at hfull
      exact ⟨-1, memory.out, c, if_pos hfull, .exhausted, h⟩
    · obtain ⟨s, hs, hview⟩ := h.signWith hseed memory (rotation_lt hfull) message
      rw [apply_signRotation_of_free hlive hfull, ← hview]
      rw [← h.rotationIndex] at hfull hs
      refine ⟨0, s, { c with rotationIndex := c.rotationIndex + 1 }, ?_, .signed, ?_⟩
      · rw [TemporalAuthTree.apply, TemporalAuthTree.signRotation, if_neg hfull, hs]
        rfl
      · exact { h with rotationIndex := congrArg (· + 1) h.rotationIndex }

end C

namespace Native

/-- A Python tree, a Rust tree and a C tree. -/
structure Trees where
  python : TemporalAuthTree Bytes
  rust : Rust.TemporalAuthTree
  c : C.TemporalAuthTree

/-- The same call with the same outcome on all three. -/
def Trees.Step (s : Trees) (e : Qrtb.TemporalAuthTree.Event × C.Memory) (s' : Trees) : Prop :=
  TemporalAuthTree.Step s.python e.1 s'.python ∧ Rust.Step s.rust e.1 s'.rust ∧ C.Step s.c e s'.c

structure Trees.InStep (batchSeed : Bytes) (s : Trees) : Prop where
  live : Live batchSeed s.python
  rust : Rust.Tracks batchSeed s.python s.rust
  c : C.Tracks batchSeed s.python s.c

theorem Trees.InStep.progress {batchSeed : Bytes} (hseed : batchSeed.length = 64) {s : Trees}
    (h : s.InStep batchSeed) (call : Call × C.Memory) :
    ∃ e s', (e.1.call, e.2) = call ∧ s.Step e s' ∧ s'.InStep batchSeed := by
  obtain ⟨call, memory⟩ := call
  obtain ⟨out, r, hrust, hout, hr⟩ := h.rust.apply h.live call
  obtain ⟨code, sig, c, hc, hreports, htracks⟩ := h.c.apply hseed h.live memory call
  exact ⟨(⟨call, (s.python.apply call).1⟩, memory), ⟨(s.python.apply call).2, r, c⟩, rfl,
    ⟨rfl, ⟨out, hrust, hout⟩, ⟨code, sig, hc, hreports⟩⟩, ⟨live_apply h.live call, hr, htracks⟩⟩

/-- Whatever the memory holds, for any calls one list of events is a run of the three trees, and
all have the same root. -/
theorem calls_agree {batchSeed : Bytes} (hseed : batchSeed.length = 64) (memory : C.Memory)
    (calls : List (Call × C.Memory)) :
    ∃ root events t r₀ r c₀ c,
      (events.map fun e : Qrtb.TemporalAuthTree.Event × C.Memory => (e.1.call, e.2)) = calls ∧
      ((TemporalAuthTree.init batchSeed).authRoot = .ok root ∧ t.authRoot = .ok root ∧
        Run TemporalAuthTree.Step (TemporalAuthTree.init batchSeed) (events.map Prod.fst) t) ∧
      (Rust.TemporalAuthTree.new batchSeed = some r₀ ∧ r₀.authRoot = root ∧ r.authRoot = root ∧
        Run Rust.Step r₀ (events.map Prod.fst) r) ∧
      C.tatInit memory batchSeed = some c₀ ∧ c₀.authRoot = root ∧ c.authRoot = root ∧
        Run C.Step c₀ events c := by
  obtain ⟨r₀, hnew, hr₀⟩ := Rust.new_tracks batchSeed
  obtain ⟨c₀, hinit, hc₀⟩ := C.tatInit_tracks hseed memory
  have hstart : Trees.InStep batchSeed ⟨TemporalAuthTree.init batchSeed, r₀, c₀⟩ :=
    ⟨TemporalAuthTree.live_init batchSeed, hr₀, hc₀⟩
  obtain ⟨events, ⟨t, r, c⟩, hcalls, hrun, hend⟩ :=
    Run.exists_of_progress (fun s hs call => hs.progress hseed call) hstart calls
  have hpython := hrun.map Trees.python Prod.fst fun _ _ _ h => h.1
  have hrust := hrun.map Trees.rust Prod.fst fun _ _ _ h => h.2.1
  have hc := hrun.map Trees.c id fun _ _ _ h => h.2.2
  rw [List.map_id] at hc
  refine ⟨batchRoot batchSeed, events, t, r₀, r, c₀, c, hcalls, ⟨rfl, ?_, hpython⟩,
    ⟨hnew, hr₀.root, hend.rust.root, hrust⟩, hinit, hc₀.root, hend.c.root, hc⟩
  rw [TemporalAuthTree.authRoot, hend.live.tree]
  rfl

def zeroProof : C.MerkleProof :=
  ⟨List.replicate MERKLE_MAX_DEPTH ⟨List.replicate MERKLE_HASH_SIZE 0, 0⟩, 0⟩

def zeroMemory : C.Memory where
  bytes _ size := List.replicate size 0
  proofs size := List.replicate size zeroProof
  out := ⟨List.replicate WOTS_SIG_SIZE 0, List.replicate WOTS_SIG_SIZE 0, zeroProof, 0⟩
  length_bytes _ _ := List.length_replicate
  length_proofs _ := List.length_replicate
  length_entries size p hp := by
    rw [List.eq_of_mem_replicate hp]
    exact List.length_replicate
  length_signature := List.length_replicate
  length_publicKey := List.length_replicate

theorem calls_agree_rotations : ∃ (r₀ r : Rust.TemporalAuthTree) (c₀ c : C.TemporalAuthTree)
    (events : List (Qrtb.TemporalAuthTree.Event × C.Memory)),
    Rust.TemporalAuthTree.new (List.replicate 64 0) = some r₀ ∧
      C.tatInit zeroMemory (List.replicate 64 0) = some c₀ ∧ r.authRoot = c.authRoot ∧
      events.length = 4 ∧ Run Rust.Step r₀ (events.map Prod.fst) r ∧ Run C.Step c₀ events c := by
  have hlength : (List.replicate 64 (0 : UInt8)).length = 64 := List.length_replicate
  obtain ⟨root, events, t, r₀, r, c₀, c, hcalls, -, ⟨hnew, -, hr, hrust⟩, hinit, -, hc, hrun⟩ :=
    calls_agree hlength zeroMemory [(.sign [1], zeroMemory), (.signRotation [2], zeroMemory),
      (.signRotation [3], zeroMemory), (.signRotation [4], zeroMemory)]
  have hcount := congrArg List.length hcalls
  rw [List.length_map] at hcount
  exact ⟨r₀, r, c₀, c, events, hnew, hinit, hr.trans hc.symm, hcount, hrust, hrun⟩

end Native

end Qrtb
