import Qrtb.Crypto.Primitives
import Mathlib.Logic.Function.Iterate

/-!
# WOTS+ one-time signatures (`WOTSPlus` in `src/crypto.py`)

A private key is 67 chain starts of 32 bytes, its public key the ends of these
chains after fifteen hashes. A signature reveals on every chain the value at
the digit of the message digest (64 digits) or of its checksum (3 digits);
verification hashes each value the rest of the way.
-/

namespace Qrtb

open Keccak

namespace Wots

def n : ℕ := 32
def w : ℕ := 16
def lenTotal : ℕ := 67

/-- `_hash_chain`: hash `iterations` times. -/
def hashChain (start : Bytes) (iterations : ℕ) : Bytes := sha3_256^[iterations] start

/-- `concat(seed, b"wots_chain", i)` never raises for the 67 indices used. -/
def chainSeed (seed : Bytes) (i : ℕ) : Bytes :=
  sha3_256 (seed ++ ascii ['w', 'o', 't', 's', '_', 'c', 'h', 'a', 'i', 'n'] ++
    Bytes.bigEndian 8 i)

/-- `(private_key, public_key)`. -/
def keygen (seed : Bytes) : Bytes × Bytes :=
  ((List.range lenTotal).flatMap fun i => chainSeed seed i,
    (List.range lenTotal).flatMap fun i => hashChain (chainSeed seed i) (w - 1))

/-- The nibbles of the message digest, high nibble first. -/
def messageChunks (message : Bytes) : List ℕ :=
  (sha3_256 message).flatMap fun b => [b.toNat >>> 4, b.toNat &&& 0x0F]

def checksum (chunks : List ℕ) : ℕ := (chunks.map fun c => w - 1 - c).sum

def checksumChunks (chunks : List ℕ) : List ℕ :=
  let c := checksum chunks
  [(c >>> 8) &&& 0x0F, (c >>> 4) &&& 0x0F, c &&& 0x0F]

def allChunks (message : Bytes) : List ℕ :=
  messageChunks message ++ checksumChunks (messageChunks message)

def chainBlock (data : Bytes) (i : ℕ) : Bytes := Bytes.slice data (i * n) ((i + 1) * n)

def sign (message privateKey : Bytes) : Bytes :=
  (allChunks message).zipIdx.flatMap fun c => hashChain (chainBlock privateKey c.2) c.1

def verify (message signature publicKey : Bytes) : Bool :=
  (allChunks message).zipIdx.all fun c =>
    hashChain (chainBlock signature c.2) (w - 1 - c.1) == chainBlock publicKey c.2

theorem verify_iff {message signature publicKey : Bytes} :
    verify message signature publicKey = true ↔ ∀ i c, (allChunks message)[i]? = some c →
      hashChain (chainBlock signature i) (w - 1 - c) = chainBlock publicKey i := by
  rw [verify, List.all_eq_true]
  constructor
  · intro h i c hc
    exact beq_iff_eq.mp (h (c, i) (List.mem_zipIdx_iff_getElem?.mpr hc))
  · rintro h ⟨c, i⟩ hmem
    exact beq_iff_eq.mpr (h i c (List.mem_zipIdx_iff_getElem?.mp hmem))

theorem length_hashChain {start : Bytes} (h : start.length = 32) (iterations : ℕ) :
    (hashChain start iterations).length = 32 := by
  cases iterations with
  | zero => exact h
  | succ k =>
    rw [hashChain, Function.iterate_succ_apply']
    exact length_sha3_256 _

theorem length_chainSeed (seed : Bytes) (i : ℕ) : (chainSeed seed i).length = 32 :=
  length_sha3_256 _

theorem length_messageChunks (message : Bytes) : (messageChunks message).length = 64 := by
  simp [messageChunks, length_sha3_256]

theorem length_allChunks (message : Bytes) : (allChunks message).length = lenTotal := by
  simp [allChunks, length_messageChunks, checksumChunks, lenTotal]

theorem allChunks_le (message : Bytes) {c : ℕ} (hc : c ∈ allChunks message) : c ≤ 15 := by
  have hand : ∀ m : ℕ, m &&& 15 ≤ 15 := fun m => Nat.and_le_right
  rcases List.mem_append.mp hc with h | h
  · obtain ⟨b, -, hb⟩ := List.mem_flatMap.mp h
    have hlt := b.toNat_lt
    simp only [List.mem_cons, List.not_mem_nil, or_false] at hb
    rcases hb with rfl | rfl
    · rw [Nat.shiftRight_eq_div_pow]
      omega
    · exact hand _
  · simp only [checksumChunks, List.mem_cons, List.not_mem_nil, or_false] at h
    rcases h with rfl | rfl | rfl <;> exact hand _

theorem hashChain_add (start : Bytes) (a b : ℕ) :
    hashChain (hashChain start a) b = hashChain start (b + a) :=
  (Function.iterate_add_apply sha3_256 b a start).symm

theorem chainBlock_range (f : ℕ → Bytes) (hf : ∀ i, (f i).length = 32) {i : ℕ}
    (hi : i < lenTotal) : chainBlock ((List.range lenTotal).flatMap f) i = f i :=
  Bytes.slice_flatMap f (fun j _ => hf j) (by rw [List.getElem?_range hi])

theorem index_lt {message : Bytes} {c : ℕ × ℕ} (hc : c ∈ (allChunks message).zipIdx) :
    c.2 < lenTotal := by
  have := List.snd_lt_of_mem_zipIdx hc
  rwa [length_allChunks, Nat.add_zero] at this

theorem length_revealed {message : Bytes} (seed : Bytes) {c : ℕ × ℕ}
    (hc : c ∈ (allChunks message).zipIdx) :
    (hashChain (chainBlock (keygen seed).1 c.2) c.1).length = n := by
  rw [keygen, chainBlock_range _ (length_chainSeed seed) (index_lt hc)]
  exact length_hashChain (length_chainSeed seed c.2) c.1

theorem chainBlock_sign (message seed : Bytes) {i c : ℕ}
    (hc : (c, i) ∈ (allChunks message).zipIdx) :
    chainBlock (sign message (keygen seed).1) i = hashChain (chainSeed seed i) c := by
  have hget : (allChunks message).zipIdx[i]? = some (c, i) := by
    rw [List.getElem?_zipIdx, Nat.zero_add, (List.mem_zipIdx_iff_getElem?.mp hc)]
    rfl
  unfold sign
  rw [chainBlock, Bytes.slice_flatMap _ (fun p hp => length_revealed seed hp) hget, keygen,
    chainBlock_range _ (length_chainSeed seed) (index_lt hc)]

theorem chainBlock_publicKey (seed : Bytes) {i : ℕ} (hi : i < lenTotal) :
    chainBlock (keygen seed).2 i = hashChain (chainSeed seed i) (w - 1) := by
  rw [keygen]
  exact chainBlock_range (fun i => hashChain (chainSeed seed i) (w - 1))
    (fun j => length_hashChain (length_chainSeed seed j) _) hi

/-- Every signature made with a generated key verifies under its public key. -/
theorem verify_sign (message seed : Bytes) :
    verify message (sign message (keygen seed).1) (keygen seed).2 = true := by
  rw [verify, List.all_eq_true]
  rintro ⟨c, i⟩ hc
  have hle : c ≤ 15 := allChunks_le message (List.fst_mem_of_mem_zipIdx hc)
  have hpk := chainBlock_publicKey seed (index_lt hc)
  rw [beq_iff_eq, chainBlock_sign message seed hc, hashChain_add, hpk]
  congr 1
  simp only [w]
  omega

theorem length_publicKey (seed : Bytes) : (keygen seed).2.length = 2144 := by
  have h : ∀ i, (hashChain (chainSeed seed i) (w - 1)).length = 32 := fun i =>
    length_hashChain (length_chainSeed seed i) _
  simp [keygen, List.length_flatMap, h, lenTotal]

theorem length_sign (message seed : Bytes) : (sign message (keygen seed).1).length = 2144 := by
  rw [sign, List.length_flatMap, List.map_congr_left fun p hp => length_revealed seed hp]
  simp [length_allChunks, lenTotal, n]

theorem checksum_le (chunks : List ℕ) : checksum chunks ≤ 15 * chunks.length := by
  induction chunks with
  | nil => simp [checksum]
  | cons c chunks ih =>
    simp only [checksum, List.map_cons, List.sum_cons, List.length_cons, w] at ih ⊢
    omega

/-- The highest digit of the checksum is never fifteen, so its chain is never left unhashed. -/
theorem exists_checksum_digit (message : Bytes) :
    ∃ c, (c, 64) ∈ (allChunks message).zipIdx ∧ c < 15 := by
  have hsum := checksum_le (messageChunks message)
  rw [length_messageChunks] at hsum
  refine ⟨(checksum (messageChunks message) >>> 8) &&& 0x0F, ?_, ?_⟩
  · rw [List.mem_zipIdx_iff_getElem?, allChunks,
      List.getElem?_append_right (length_messageChunks message).le, length_messageChunks]
    rfl
  · have hshift : checksum (messageChunks message) >>> 8 ≤ 3 := by
      rw [Nat.shiftRight_eq_div_pow]
      omega
    exact Nat.lt_of_le_of_lt (Nat.and_le_left.trans hshift) (by omega)

/-- An accepted public key reaches into the block of the first checksum chain. -/
theorem length_of_verify {message signature publicKey : Bytes}
    (h : verify message signature publicKey = true) : 2048 < publicKey.length := by
  obtain ⟨c, hc, hlt⟩ := exists_checksum_digit message
  rw [verify, List.all_eq_true] at h
  have hblock : hashChain (chainBlock signature 64) (w - 1 - c) = chainBlock publicKey 64 := by
    simpa using h (c, 64) hc
  have hlen : (hashChain (chainBlock signature 64) (w - 1 - c)).length = 32 := by
    obtain ⟨k, hk⟩ : ∃ k, w - 1 - c = k + 1 := ⟨w - 1 - c - 1, by simp only [w]; omega⟩
    rw [hk, hashChain, Function.iterate_succ_apply']
    exact length_sha3_256 _
  rw [hblock, chainBlock, Bytes.slice, List.length_take, List.length_drop] at hlen
  simp only [n] at hlen
  omega

/-- By `keygen`: the seed of every chain, and the chain up to its end. -/
def keygenInputs (seed : Bytes) : List Bytes :=
  (List.range lenTotal).flatMap fun i =>
    (seed ++ ascii ['w', 'o', 't', 's', '_', 'c', 'h', 'a', 'i', 'n'] ++ Bytes.bigEndian 8 i) ::
      (List.range (w - 1)).map (hashChain (chainSeed seed i))

/-- By a `verify` that does not stop early: the message, and the rest of every chain. -/
def verifyInputs (message signature : Bytes) : List Bytes :=
  message :: (allChunks message).zipIdx.flatMap fun c =>
    (List.range (w - 1 - c.1)).map (hashChain (chainBlock signature c.2))

/-- Checking a signature hashes the message and values of the chains of its key. -/
theorem verifyInputs_sign_subset (message seed : Bytes) :
    verifyInputs message (sign message (keygen seed).1) ⊆ message :: keygenInputs seed := by
  intro m hm
  rcases List.mem_cons.mp hm with rfl | hm
  · exact List.mem_cons_self
  · obtain ⟨⟨c, i⟩, hc, hm⟩ := List.mem_flatMap.mp hm
    obtain ⟨k, hk, rfl⟩ := List.mem_map.mp hm
    rw [List.mem_range] at hk
    rw [chainBlock_sign message seed hc, hashChain_add]
    apply List.mem_cons_of_mem
    refine List.mem_flatMap.mpr ⟨i, List.mem_range.mpr (index_lt hc), List.mem_cons_of_mem _ ?_⟩
    exact List.mem_map_of_mem (List.mem_range.mpr (by omega))

theorem hashChain_succ (start : Bytes) (k : ℕ) :
    hashChain start (k + 1) = sha3_256 (hashChain start k) :=
  Function.iterate_succ_apply' sha3_256 k start

/-- Chains that meet began at the same value, or two values on the way collide. -/
theorem hashChain_inj {x y : Bytes} {k : ℕ} (h : hashChain x k = hashChain y k) :
    x = y ∨ ∃ i < k, Collision (hashChain x i) (hashChain y i) := by
  induction k with
  | zero => exact Or.inl h
  | succ k ih =>
    rw [hashChain_succ, hashChain_succ, sha3_256_eq_iff] at h
    rcases h with h | hcollision
    · rcases ih h with rfl | ⟨i, hi, hcollision⟩
      · exact Or.inl rfl
      · exact Or.inr ⟨i, by omega, hcollision⟩
    · exact Or.inr ⟨k, by omega, hcollision⟩

/-- One public key has one seed, or two strings hashed in the two generations collide. -/
theorem publicKey_inj {s t : Bytes} (h : (keygen s).2 = (keygen t).2) :
    s = t ∨ CollisionIn (keygenInputs s ++ keygenInputs t) := by
  have hchain : hashChain (chainSeed s 0) (w - 1) = hashChain (chainSeed t 0) (w - 1) := by
    rw [← chainBlock_publicKey s (by decide), ← chainBlock_publicKey t (by decide), h]
  have hmem : ∀ (seed : Bytes) (k : ℕ), k < w - 1 →
      hashChain (chainSeed seed 0) k ∈ keygenInputs seed := by
    intro seed k hk
    refine List.mem_flatMap.mpr ⟨0, by decide, List.mem_cons_of_mem _ ?_⟩
    exact List.mem_map_of_mem (List.mem_range.mpr hk)
  have hstart : ∀ seed : Bytes, seed ++ ascii ['w', 'o', 't', 's', '_', 'c', 'h', 'a', 'i', 'n'] ++
      Bytes.bigEndian 8 0 ∈ keygenInputs seed := by
    intro seed
    exact List.mem_flatMap.mpr ⟨0, by decide, List.mem_cons_self⟩
  rcases hashChain_inj hchain with hseed | ⟨k, hk, hcollision⟩
  · rcases eq_or_collisionIn (List.mem_append_left _ (hstart s)) (List.mem_append_right _ (hstart t))
        hseed with heq | hcollision
    · left
      simpa using heq
    · exact Or.inr hcollision
  · exact Or.inr ⟨_, List.mem_append_left _ (hmem s k hk), _, List.mem_append_right _ (hmem t k hk),
      hcollision⟩

end Wots

end Qrtb
