import Qrtb.Crypto.Merkle
import Qrtb.Lib.Transition

/-!
# Batches of one-time keys (`TemporalAuthTree` in `src/crypto.py`)

A batch seed gives 1024 WOTS+ keys under one Merkle root: 1022 for ordinary
signatures and two reserved for rotations, each kind with its own counter. The
model is written over any representation of seeds that knows their bytes, so that
the same code runs on byte strings and on terms that record a derivation.
-/

namespace Qrtb

open Keccak Transition

def TOTAL_KEYS_PER_BATCH : ℕ := 1024
def RESERVED_ROTATION : ℕ := 2
def USABLE_KEYS : ℕ := TOTAL_KEYS_PER_BATCH - RESERVED_ROTATION

def deriveInitialBatchSeed (masterSeed : Bytes) : Bytes :=
  sha3_512 (ascii ['b', 'a', 't', 'c', 'h', '_', 'i', 'n', 'i', 't', 'i', 'a', 'l'] ++ masterSeed)

def deriveNextBatchSeed (currentBatchSeed : Bytes) : Bytes :=
  sha3_512 (ascii ['b', 'a', 't', 'c', 'h', '_', 'n', 'e', 'x', 't'] ++ currentBatchSeed)

/-- `_derive_key_seed`; the index is below 1024 and always fits eight bytes. -/
def deriveKeySeed (batchSeed : Bytes) (index : ℕ) : Bytes :=
  sha3_512 (ascii ['k', 'e', 'y', '_', 's', 'e', 'e', 'd'] ++ batchSeed ++ Bytes.bigEndian 8 index)

/-- `SHA3-512(master_seed || "registration_key")`. -/
def deriveRegistrationSeed (masterSeed : Bytes) : Bytes :=
  sha3_512 (masterSeed ++ ascii ['r', 'e', 'g', 'i', 's', 't', 'r', 'a', 't', 'i', 'o', 'n', '_',
    'k', 'e', 'y'])

/-- The seed of a legacy key pair of an epoch. -/
def deriveLegacySeed (batchSeed : Bytes) (epoch : ℤ) (keyIndex : ℕ) : Except PyError Bytes := do
  return sha3_512 (← concat [.bytes batchSeed,
    .bytes (ascii ['l', 'e', 'g', 'a', 'c', 'y', '_', 'k', 'e', 'y', 'p', 'a', 'i', 'r']),
    .int epoch, .int keyIndex])

/-- A representation of seeds: every seed has its bytes, and deriving commutes with taking them. -/
class SeedSpace (S : Type) where
  value : S → Bytes
  /-- The 64 zero bytes a destroyed tree is left with. -/
  wiped : S
  initialBatch : S → S
  nextBatch : S → S
  key : S → ℕ → S
  registration : S → S
  legacy : S → ℤ → ℕ → S
  value_wiped : value wiped = List.replicate 64 0
  value_initialBatch : ∀ s, value (initialBatch s) = deriveInitialBatchSeed (value s)
  value_nextBatch : ∀ s, value (nextBatch s) = deriveNextBatchSeed (value s)
  value_key : ∀ s i, value (key s i) = deriveKeySeed (value s) i
  value_registration : ∀ s, value (registration s) = deriveRegistrationSeed (value s)
  value_legacy : ∀ s epoch i seed, deriveLegacySeed (value s) epoch i = .ok seed →
    value (legacy s epoch i) = seed

/-- The seeds of the code. Where the code raises, the value of a legacy seed is never used. -/
instance : SeedSpace Bytes where
  value s := s
  wiped := List.replicate 64 0
  initialBatch := deriveInitialBatchSeed
  nextBatch := deriveNextBatchSeed
  key := deriveKeySeed
  registration := deriveRegistrationSeed
  legacy s epoch i := (deriveLegacySeed s epoch i).toOption.getD []
  value_wiped := rfl
  value_initialBatch _ := rfl
  value_nextBatch _ := rfl
  value_key _ _ := rfl
  value_registration _ := rfl
  value_legacy s epoch i seed h := by simp [h, Except.toOption]

/-- The public keys of a batch, in order. -/
def publicKeys (batchSeed : Bytes) : List Bytes :=
  (List.range TOTAL_KEYS_PER_BATCH).map fun i => (Wots.keygen (deriveKeySeed batchSeed i)).2

/-- The root committing to the keys of a batch. -/
def batchRoot (batchSeed : Bytes) : Bytes := MerkleTree.root (publicKeys batchSeed)

/-- What a signing call returns. -/
structure TemporalSignature where
  signature : Bytes
  publicKey : Bytes
  proof : List ProofEntry
  keyIndex : ℕ
  deriving DecidableEq

/-- The Merkle tree is kept by its leaves; a destroyed tree has none. -/
structure TemporalAuthTree (S : Type) where
  batchSeed : S
  keyIndex : ℕ := 0
  rotationIndex : ℕ := 0
  authTree : Option (List Bytes)

namespace TemporalAuthTree

section

variable {S : Type} [SeedSpace S]

open SeedSpace

def init (batchSeed : S) : TemporalAuthTree S :=
  { batchSeed := batchSeed, authTree := some (publicKeys (value batchSeed)) }

def authRoot (t : TemporalAuthTree S) : Except PyError Bytes :=
  match t.authTree with
  | none => .error .attributeError
  | some leaves => .ok (MerkleTree.root leaves)

def remainingKeys (t : TemporalAuthTree S) : ℤ := USABLE_KEYS - t.keyIndex

def remainingRotationKeys (t : TemporalAuthTree S) : ℤ := RESERVED_ROTATION - t.rotationIndex

/-- The common part of the two signing calls, with the key of a given number. -/
def signWith (idx : ℕ) (message : Bytes) (t : TemporalAuthTree S) :
    Except PyError TemporalSignature :=
  let keys := Wots.keygen (value (key t.batchSeed idx))
  match t.authTree with
  | none => .error .attributeError
  | some leaves => do
    let proof ← MerkleTree.getProof leaves idx
    return { signature := Wots.sign message keys.1, publicKey := keys.2, proof := proof,
             keyIndex := idx }

/-- The counter moves before the key is used. -/
def sign (message : Bytes) (t : TemporalAuthTree S) :
    Except PyError TemporalSignature × TemporalAuthTree S :=
  if t.keyIndex ≥ USABLE_KEYS then (.error .valueError, t)
  else (t.signWith t.keyIndex message, { t with keyIndex := t.keyIndex + 1 })

def signRotation (message : Bytes) (t : TemporalAuthTree S) :
    Except PyError TemporalSignature × TemporalAuthTree S :=
  if t.rotationIndex ≥ RESERVED_ROTATION then (.error .valueError, t)
  else
    (t.signWith (USABLE_KEYS + t.rotationIndex) message,
      { t with rotationIndex := t.rotationIndex + 1 })

def destroy (t : TemporalAuthTree S) : TemporalAuthTree S :=
  { t with
    batchSeed := if (value t.batchSeed).isEmpty then t.batchSeed else wiped
    authTree := none }

end

theorem length_publicKeys (batchSeed : Bytes) : (publicKeys batchSeed).length = 1024 := by
  simp [publicKeys, TOTAL_KEYS_PER_BATCH]

theorem publicKeys_ne_nil (batchSeed : Bytes) : publicKeys batchSeed ≠ [] := by
  apply List.ne_nil_of_length_pos
  rw [length_publicKeys]
  omega

theorem getElem_publicKeys (batchSeed : Bytes) {i : ℕ} (hi : i < (publicKeys batchSeed).length) :
    (publicKeys batchSeed)[i] = (Wots.keygen (deriveKeySeed batchSeed i)).2 := by
  simp [publicKeys]

theorem getProof_publicKeys (batchSeed : Bytes) {i : ℕ} (hi : i < 1024) :
    MerkleTree.getProof (publicKeys batchSeed) i =
      .ok (MerkleTree.proofFrom (MerkleTree.buildTree (publicKeys batchSeed)) i) :=
  MerkleTree.getProof_of_lt (by rwa [length_publicKeys])

/-- Whatever its message, a signature with a key of the batch is accepted under the batch root and
no other. -/
theorem verifyAgainstRoot_iff_of_getProof (batchSeed message : Bytes) {i : ℕ} (hi : i < 1024)
    {proof : List ProofEntry} (hproof : MerkleTree.getProof (publicKeys batchSeed) i = .ok proof)
    (root : Bytes) :
    verifyAgainstRoot message (Wots.sign message (Wots.keygen (deriveKeySeed batchSeed i)).1)
      (Wots.keygen (deriveKeySeed batchSeed i)).2 proof root = true ↔
        root = batchRoot batchSeed := by
  have hi' : i < (publicKeys batchSeed).length := by rwa [length_publicKeys]
  have hclimb := MerkleTree.foldl_climb_getProof hi' hproof
  rw [getElem_publicKeys] at hclimb
  rw [verifyAgainstRoot, Wots.verify_sign, Bool.true_and, MerkleTree.verifyProof,
    if_neg (by simp [length_sha3_256]), hclimb, beq_iff_eq, eq_comm]
  rfl

theorem verifyAgainstRoot_of_getProof (batchSeed message : Bytes) {i : ℕ} (hi : i < 1024)
    {proof : List ProofEntry} (hproof : MerkleTree.getProof (publicKeys batchSeed) i = .ok proof) :
    verifyAgainstRoot message (Wots.sign message (Wots.keygen (deriveKeySeed batchSeed i)).1)
      (Wots.keygen (deriveKeySeed batchSeed i)).2 proof (batchRoot batchSeed) = true :=
  (verifyAgainstRoot_iff_of_getProof batchSeed message hi hproof _).mpr rfl

inductive Call where
  | sign (message : Bytes)
  | signRotation (message : Bytes)

def Call.message : Call → Bytes
  | .sign message => message
  | .signRotation message => message

/-- A call and what it returned. -/
structure Event where
  call : Call
  outcome : Except PyError TemporalSignature

section

variable {S : Type} [SeedSpace S]

open SeedSpace

def apply (t : TemporalAuthTree S) : Call →
    Except PyError TemporalSignature × TemporalAuthTree S
  | .sign message => t.sign message
  | .signRotation message => t.signRotation message

def Step (t : TemporalAuthTree S) (e : Event) (t' : TemporalAuthTree S) : Prop :=
  t.apply e.call = (e.outcome, t')

/-- The family of keys a call draws from is used up. -/
def Exhausted (t : TemporalAuthTree S) : Call → Prop
  | .sign _ => t.remainingKeys = 0
  | .signRotation _ => t.remainingRotationKeys = 0

end

/-- The indices ordinary signatures were returned with, in order. -/
def signIndices (events : List Event) : List ℕ :=
  events.filterMap fun e =>
    match e.call, e.outcome with
    | .sign _, .ok s => some s.keyIndex
    | _, _ => none

def rotationIndices (events : List Event) : List ℕ :=
  events.filterMap fun e =>
    match e.call, e.outcome with
    | .signRotation _, .ok s => some s.keyIndex
    | _, _ => none

/-- The indices of all returned signatures. -/
def returnedIndices (events : List Event) : List ℕ :=
  events.filterMap fun e => e.outcome.toOption.map TemporalSignature.keyIndex

section

variable {S : Type} [SeedSpace S] {t t' : TemporalAuthTree S}

open SeedSpace

/-- A tree over a batch that was not destroyed, with counters in range. -/
structure Live (batchSeed : S) (t : TemporalAuthTree S) : Prop where
  seed : t.batchSeed = batchSeed
  tree : t.authTree = some (publicKeys (value batchSeed))
  keyIndex_le : t.keyIndex ≤ 1022
  rotationIndex_le : t.rotationIndex ≤ 2

theorem live_init (batchSeed : S) : Live batchSeed (init batchSeed) :=
  ⟨rfl, rfl, Nat.zero_le _, Nat.zero_le _⟩

theorem Live.signWith_eq_ok {batchSeed : S} (h : Live batchSeed t) {idx : ℕ} (hidx : idx < 1024)
    (message : Bytes) :
    t.signWith idx message =
      .ok { signature := Wots.sign message (Wots.keygen (value (key batchSeed idx))).1
            publicKey := (Wots.keygen (value (key batchSeed idx))).2
            proof := MerkleTree.proofFrom (MerkleTree.buildTree (publicKeys (value batchSeed))) idx
            keyIndex := idx } := by
  simp only [signWith, h.tree, h.seed, getProof_publicKeys (value batchSeed) hidx]
  rfl

theorem Live.signWith_eq {batchSeed : S} (h : Live batchSeed t) {idx : ℕ} (hidx : idx < 1024)
    (message : Bytes) :
    ∃ s, t.signWith idx message = .ok s ∧ s.keyIndex = idx ∧
      verifyAgainstRoot message s.signature s.publicKey s.proof (batchRoot (value batchSeed)) =
        true := by
  refine ⟨_, h.signWith_eq_ok hidx message, rfl, ?_⟩
  have hverify := verifyAgainstRoot_of_getProof (value batchSeed) message hidx
    (getProof_publicKeys (value batchSeed) hidx)
  rwa [← value_key] at hverify

/-- One call: an exhausted family raises and changes nothing, otherwise the next key signs. -/
theorem Live.apply_cases {batchSeed : S} (h : Live batchSeed t) (call : Call) :
    (t.Exhausted call ∧ t.apply call = (.error .valueError, t)) ∨
    ¬ t.Exhausted call ∧ ∃ s, (t.apply call).1 = .ok s ∧
      verifyAgainstRoot call.message s.signature s.publicKey s.proof
        (batchRoot (value batchSeed)) = true ∧
      ((∃ m, call = .sign m ∧ s.keyIndex = t.keyIndex ∧
          (t.apply call).2 = { t with keyIndex := t.keyIndex + 1 } ∧ t.keyIndex < 1022) ∨
        ∃ m, call = .signRotation m ∧ s.keyIndex = 1022 + t.rotationIndex ∧
          (t.apply call).2 = { t with rotationIndex := t.rotationIndex + 1 } ∧
          t.rotationIndex < 2) := by
  have husable : USABLE_KEYS = 1022 := rfl
  have hreserved : RESERVED_ROTATION = 2 := rfl
  have hkey := h.keyIndex_le
  have hrotation := h.rotationIndex_le
  cases call with
  | sign m =>
    by_cases hfull : t.keyIndex ≥ USABLE_KEYS
    · left
      refine ⟨?_, by simp [apply, sign, hfull]⟩
      rw [Exhausted, remainingKeys]
      omega
    · right
      obtain ⟨s, hs, hindex, hverify⟩ := h.signWith_eq (show t.keyIndex < 1024 by omega) m
      refine ⟨?_, s, by simp [apply, sign, hfull, hs], hverify, Or.inl ⟨m, rfl, hindex, ?_, ?_⟩⟩
      · rw [Exhausted, remainingKeys]
        omega
      · simp [apply, sign, hfull]
      · omega
  | signRotation m =>
    by_cases hfull : t.rotationIndex ≥ RESERVED_ROTATION
    · left
      refine ⟨?_, by simp [apply, signRotation, hfull]⟩
      rw [Exhausted, remainingRotationKeys]
      omega
    · right
      obtain ⟨s, hs, hindex, hverify⟩ :=
        h.signWith_eq (show USABLE_KEYS + t.rotationIndex < 1024 by omega) m
      refine ⟨?_, s, by simp [apply, signRotation, hfull, hs], hverify,
        Or.inr ⟨m, rfl, hindex, ?_, ?_⟩⟩
      · rw [Exhausted, remainingRotationKeys]
        omega
      · simp [apply, signRotation, hfull]
      · omega

/-- What the calls of a run returned, counted from where the counters stood. -/
structure Issued (batchSeed : S) (t : TemporalAuthTree S) (events : List Event)
    (t' : TemporalAuthTree S) : Prop where
  live : Live batchSeed t'
  verified : ∀ e ∈ events, ∀ s, e.outcome = .ok s →
    verifyAgainstRoot e.call.message s.signature s.publicKey s.proof
      (batchRoot (value batchSeed)) = true
  keyIndex_ge : t.keyIndex ≤ t'.keyIndex
  rotationIndex_ge : t.rotationIndex ≤ t'.rotationIndex
  signs : signIndices events = List.range' t.keyIndex (t'.keyIndex - t.keyIndex)
  rotations : rotationIndices events =
    List.range' (1022 + t.rotationIndex) (t'.rotationIndex - t.rotationIndex)

theorem Live.issued {batchSeed : S} {events : List Event} (hrun : Run Step t events t')
    (h : Live batchSeed t) : Issued batchSeed t events t' := by
  induction hrun with
  | nil t => exact ⟨h, by simp, le_rfl, le_rfl, by simp [signIndices], by simp [rotationIndices]⟩
  | @cons t u t' e events hstep _ ih =>
    obtain ⟨call, outcome⟩ := e
    have hstep' : t.apply call = (outcome, u) := hstep
    rcases h.apply_cases call with ⟨-, happly⟩ | ⟨-, s, houtcome, hverify, hkind⟩
    · rw [happly] at hstep'
      obtain ⟨rfl, rfl⟩ := Prod.mk.inj hstep'
      have hrest := ih h
      refine ⟨hrest.live, ?_, hrest.keyIndex_ge, hrest.rotationIndex_ge, ?_, ?_⟩
      · rw [List.forall_mem_cons]
        exact ⟨fun s hs => by simp at hs, hrest.verified⟩
      · rw [← hrest.signs]
        cases call <;> rfl
      · rw [← hrest.rotations]
        cases call <;> rfl
    · rw [hstep'] at houtcome hkind
      obtain rfl : outcome = .ok s := houtcome
      have hverified : ∀ s', Except.ok (ε := PyError) s = .ok s' →
          verifyAgainstRoot call.message s'.signature s'.publicKey s'.proof
            (batchRoot (value batchSeed)) = true := by
        intro s' hs'
        obtain rfl := Except.ok.inj hs'
        exact hverify
      rcases hkind with ⟨m, rfl, hindex, rfl, hlt⟩ | ⟨m, rfl, hindex, rfl, hlt⟩
      · have hrest := ih ⟨h.seed, h.tree, hlt, h.rotationIndex_le⟩
        have hge := hrest.keyIndex_ge
        refine ⟨hrest.live, ?_, by simp at hge; omega, hrest.rotationIndex_ge, ?_, ?_⟩
        · rw [List.forall_mem_cons]
          exact ⟨hverified, hrest.verified⟩
        · have hsigns := hrest.signs
          simp only at hge hsigns
          rw [show t'.keyIndex - t.keyIndex = t'.keyIndex - (t.keyIndex + 1) + 1 by omega,
            List.range'_succ, ← hsigns, ← hindex]
          rfl
        · rw [← hrest.rotations]
          rfl
      · have hrest := ih ⟨h.seed, h.tree, h.keyIndex_le, hlt⟩
        have hge := hrest.rotationIndex_ge
        refine ⟨hrest.live, ?_, hrest.keyIndex_ge, by simp at hge; omega, ?_, ?_⟩
        · rw [List.forall_mem_cons]
          exact ⟨hverified, hrest.verified⟩
        · rw [← hrest.signs]
          rfl
        · have hrotations := hrest.rotations
          simp only at hge hrotations
          rw [show t'.rotationIndex - t.rotationIndex =
              t'.rotationIndex - (t.rotationIndex + 1) + 1 by omega,
            List.range'_succ, add_assoc, ← hrotations, ← hindex]
          rfl

end

theorem returnedIndices_perm (events : List Event) :
    (returnedIndices events).Perm (signIndices events ++ rotationIndices events) := by
  induction events with
  | nil => rfl
  | cons e events ih =>
    obtain ⟨call, outcome⟩ := e
    cases outcome with
    | error err => cases call <;> exact ih
    | ok s =>
      cases call with
      | sign m => exact ih.cons s.keyIndex
      | signRotation m =>
        have hmiddle : (signIndices events ++ s.keyIndex :: rotationIndices events).Perm
            (s.keyIndex :: (signIndices events ++ rotationIndices events)) := List.perm_middle
        exact (ih.cons s.keyIndex).trans hmiddle.symm

theorem Issued.nodup {S : Type} [SeedSpace S] {batchSeed : S} {events : List Event}
    {t : TemporalAuthTree S} (h : Issued batchSeed (init batchSeed) events t) :
    (returnedIndices events).Nodup := by
  rw [(returnedIndices_perm events).nodup_iff, h.signs, h.rotations, List.nodup_append]
  refine ⟨List.nodup_range', List.nodup_range', ?_⟩
  intro i hi j hj
  have hle := h.live.keyIndex_le
  rw [List.mem_range'_1] at hi hj
  simp only [init] at hi hj
  omega

/-- Every signature verifies under the root of its tree, no index is returned twice, each family is
handed out in order, and a call raises exactly when its family is used up, changing nothing. -/
theorem calls_complete (batchSeed : Bytes) {events : List Event} {t : TemporalAuthTree Bytes}
    (hrun : Run Step (init batchSeed) events t) :
    (∃ root, (init batchSeed).authRoot = .ok root ∧ t.authRoot = .ok root ∧
      ∀ e ∈ events, ∀ s, e.outcome = .ok s →
        verifyAgainstRoot e.call.message s.signature s.publicKey s.proof root = true) ∧
    (returnedIndices events).Nodup ∧
    (signIndices events = List.range t.keyIndex ∧ t.keyIndex ≤ 1022) ∧
    (rotationIndices events = (List.range t.rotationIndex).map (1022 + ·) ∧
      t.rotationIndex ≤ 2) ∧
    ∀ call, ((∃ e, (t.apply call).1 = .error e) ↔ t.Exhausted call) ∧
      ((∃ e, (t.apply call).1 = .error e) → (t.apply call).2 = t) := by
  have h := Live.issued hrun (live_init batchSeed)
  refine ⟨⟨batchRoot batchSeed, rfl, ?_, h.verified⟩, h.nodup, ⟨?_, h.live.keyIndex_le⟩,
    ⟨?_, h.live.rotationIndex_le⟩, ?_⟩
  · rw [authRoot, h.live.tree]
    rfl
  · rw [h.signs, List.range_eq_range']
    rfl
  · rw [h.rotations, List.range_eq_range', List.map_add_range']
    rfl
  · intro call
    rcases h.live.apply_cases call with ⟨hfull, happly⟩ | ⟨hfree, s, hs, -⟩
    · simp [happly, hfull]
    · simp [hs, hfree]

theorem calls_complete_rotations : ∃ (events : List Event) (t : TemporalAuthTree Bytes),
    Run Step (init []) events t ∧ events.length = 4 ∧ t.rotationIndex = 2 ∧
      signIndices events = List.range t.keyIndex ∧
      ∃ e, (t.apply (.signRotation [])).1 = .error e := by
  let step (t : TemporalAuthTree Bytes) (call : Call) : Event × TemporalAuthTree Bytes :=
    (⟨call, (t.apply call).1⟩, (t.apply call).2)
  let s₁ := step (init []) (.sign [1])
  let s₂ := step s₁.2 (.signRotation [2])
  let s₃ := step s₂.2 (.signRotation [3])
  let s₄ := step s₃.2 (.signRotation [4])
  have hrun : Run Step (init []) [s₁.1, s₂.1, s₃.1, s₄.1] s₄.2 :=
    .cons rfl (.cons rfl (.cons rfl (.single rfl)))
  obtain ⟨-, -, ⟨hsigns, -⟩, -, hraises⟩ := calls_complete [] hrun
  have hrotation : s₄.2.rotationIndex = 2 := rfl
  refine ⟨_, _, hrun, rfl, hrotation, hsigns, (hraises (.signRotation [])).1.mpr ?_⟩
  rw [Exhausted, remainingRotationKeys, hrotation]
  rfl

end TemporalAuthTree

end Qrtb
