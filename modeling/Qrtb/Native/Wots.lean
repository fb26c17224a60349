import Qrtb.Crypto.Wots
import Qrtb.Lib.Buffer

/-!
# WOTS+ in Rust and in C (`src/native/src/wots.rs`, `src/native/csrc/wots.c`)

Keys and signatures are written block by block into buffers of 2144 bytes. Rust
starts from zeros and panics outside of a buffer; C finds anything in its memory
and must not step outside. `none` stands for either. Whatever the memory held,
both compute the keys and signatures of the Python code.
-/

namespace Qrtb

open Keccak Buffer

namespace Native

def WOTS_N : ℕ := 32
def WOTS_W : ℕ := 16
def WOTS_LEN1 : ℕ := 64
def WOTS_LEN_TOTAL : ℕ := 67
def WOTS_SIG_SIZE : ℕ := WOTS_LEN_TOTAL * WOTS_N

def hashChain (start : Bytes) (iterations : ℕ) : Bytes :=
  (List.range iterations).foldl (fun out _ => sha3_256 out) start

/-- One byte of the digest, split into two chunks. -/
def splitRound (msgHash : Bytes) (i : ℕ) (chunks : Bytes) : Option Bytes := do
  let byte ← msgHash[i]?
  let chunks ← store chunks (i * 2) [(byte >>> 4) &&& 0x0F]
  store chunks (i * 2 + 1) [byte &&& 0x0F]

def checksumRound (chunks : Bytes) (i checksum : ℕ) : Option ℕ := do
  let chunk ← chunks[i]?
  return checksum + (WOTS_W - 1 - chunk.toNat)

/-- `compute_chunks`, with what the array of chunks holds at first. -/
def computeChunks (chunks message : Bytes) : Option Bytes := do
  let msgHash := sha3_256 message
  let chunks ← forRange 32 (splitRound msgHash) chunks
  let checksum ← forRange WOTS_LEN1 (checksumRound chunks) 0
  let chunks ← store chunks 64 [UInt8.ofNat ((checksum >>> 8) &&& 0x0F)]
  let chunks ← store chunks 65 [UInt8.ofNat ((checksum >>> 4) &&& 0x0F)]
  store chunks 66 [UInt8.ofNat (checksum &&& 0x0F)]

def signRound (chunks privateKey : Bytes) (i : ℕ) (signature : Bytes) : Option Bytes := do
  let start ← load privateKey (i * WOTS_N) WOTS_N
  let chunk ← chunks[i]?
  store signature (i * WOTS_N) (hashChain start chunk.toNat)

theorem hashChain_eq (start : Bytes) (iterations : ℕ) :
    hashChain start iterations = Wots.hashChain start iterations := by
  induction iterations with
  | zero => rfl
  | succ k ih =>
    rw [hashChain] at ih ⊢
    rw [List.range_succ, List.foldl_append, ih, Wots.hashChain_succ]
    rfl

def nibbles (byte : UInt8) : Bytes := [(byte >>> 4) &&& 0x0F, byte &&& 0x0F]

theorem flatten_nibbles (hash : Bytes) :
    (hash.map nibbles).flatten =
      (hash.flatMap fun b => [b.toNat >>> 4, b.toNat &&& 0x0F]).map UInt8.ofNat := by
  induction hash with
  | nil => rfl
  | cons byte hash ih =>
    have hhigh : (byte >>> 4) &&& (0x0F : UInt8) = UInt8.ofNat (byte.toNat >>> 4) := by
      apply UInt8.toNat_inj.mp
      have hlt := byte.toNat_lt
      have hmask : (byte >>> 4).toNat &&& 15 = (byte >>> 4).toNat % 16 :=
        Nat.and_two_pow_sub_one_eq_mod _ 4
      have hshift : (byte >>> 4).toNat = byte.toNat / 16 := by
        simp [Nat.shiftRight_eq_div_pow]
      rw [UInt8.toNat_and, show (0x0F : UInt8).toNat = 15 from rfl, hmask, hshift,
        UInt8.toNat_ofNat', Nat.shiftRight_eq_div_pow]
      omega
    have hlow : byte &&& (0x0F : UInt8) = UInt8.ofNat (byte.toNat &&& 0x0F) := by
      apply UInt8.toNat_inj.mp
      simp
    rw [List.map_cons, List.flatten_cons, ih, List.flatMap_cons, List.map_append, nibbles, hhigh,
      hlow]
    rfl

/-- The digits of a hash, high nibble first. -/
def hashDigits (hash : Bytes) : List ℕ := hash.flatMap fun b => [b.toNat >>> 4, b.toNat &&& 0x0F]

/-- These and the digits of their checksum. -/
def hashChunks (hash : Bytes) : List ℕ := hashDigits hash ++ Wots.checksumChunks (hashDigits hash)

theorem hashChunks_sha3_256 (message : Bytes) :
    hashChunks (sha3_256 message) = Wots.allChunks message := rfl

/-- `compute_chunks` from the hash on. -/
def splitHash (chunks msgHash : Bytes) : Option Bytes := do
  let chunks ← forRange 32 (splitRound msgHash) chunks
  let checksum ← forRange WOTS_LEN1 (checksumRound chunks) 0
  let chunks ← store chunks 64 [UInt8.ofNat ((checksum >>> 8) &&& 0x0F)]
  let chunks ← store chunks 65 [UInt8.ofNat ((checksum >>> 4) &&& 0x0F)]
  store chunks 66 [UInt8.ofNat (checksum &&& 0x0F)]

section SplitHash

variable {hash chunks : Bytes}

theorem length_hashDigits (h : hash.length = 32) : (hashDigits hash).length = WOTS_LEN1 := by
  simp [hashDigits, h, WOTS_LEN1]

theorem hashDigits_le {c : ℕ} (hc : c ∈ hashDigits hash) : c ≤ 15 := by
  obtain ⟨b, -, hb⟩ := List.mem_flatMap.mp hc
  have hlt := b.toNat_lt
  simp only [List.mem_cons, List.not_mem_nil, or_false] at hb
  rcases hb with rfl | rfl
  · rw [Nat.shiftRight_eq_div_pow]
    omega
  · exact Nat.and_le_right

theorem hashChunks_le {c : ℕ} (hc : c ∈ hashChunks hash) : c ≤ 15 := by
  rcases List.mem_append.mp hc with h | h
  · exact hashDigits_le h
  · simp only [Wots.checksumChunks, List.mem_cons, List.not_mem_nil, or_false] at h
    rcases h with rfl | rfl | rfl <;> exact Nat.and_le_right

theorem length_hashChunks (h : hash.length = 32) : (hashChunks hash).length = WOTS_LEN_TOTAL := by
  rw [hashChunks, List.length_append, length_hashDigits h]
  rfl

/-- The first loop leaves the digits of the hash and the last three places. -/
theorem splitRounds_eq (h : hash.length = 32) (hchunks : chunks.length = WOTS_LEN_TOTAL) :
    forRange 32 (splitRound hash) chunks =
      some ((hashDigits hash).map UInt8.ofNat ++ chunks.drop 64) := by
  have hlength : (hash.map nibbles).length = 32 := by rw [List.length_map, h]
  have hsize : ∀ b ∈ hash.map nibbles, b.length = 2 := by simp [nibbles]
  have hround : ∀ i b, (hash.map nibbles)[i]? = some b →
      ∀ buf, splitRound hash i buf = store buf (i * 2) b := by
    intro i b hb buf
    rw [List.getElem?_map, Option.map_eq_some_iff] at hb
    obtain ⟨byte, hbyte, rfl⟩ := hb
    rw [splitRound, hbyte]
    exact store_bind_store buf (i * 2) [(byte >>> 4) &&& 0x0F] [byte &&& 0x0F]
  have hroom : (hash.map nibbles).length * 2 ≤ chunks.length := by
    rw [hlength, hchunks]
    decide
  have hfill := forRange_fill hsize hroom hround
  rw [hlength, flatten_nibbles] at hfill
  exact hfill

theorem checksum_append_singleton (chunks : List ℕ) (c : ℕ) :
    Wots.checksum (chunks ++ [c]) = Wots.checksum chunks + (15 - c) := by
  simp [Wots.checksum, Wots.w]

theorem getElem?_hashDigits (h : hash.length = 32) {i : ℕ} (hi : i < WOTS_LEN1) (rest : Bytes) :
    ∃ c, (hashDigits hash)[i]? = some c ∧ c ≤ 15 ∧
      ((hashDigits hash).map UInt8.ofNat ++ rest)[i]? = some (UInt8.ofNat c) := by
  rw [← length_hashDigits h] at hi
  refine ⟨_, List.getElem?_eq_getElem hi, hashDigits_le (List.getElem_mem hi), ?_⟩
  rw [List.getElem?_append_left (by rwa [List.length_map]), List.getElem?_map,
    List.getElem?_eq_getElem hi]
  rfl

theorem sumChunks_eq (h : hash.length = 32) (rest : Bytes) :
    forRange WOTS_LEN1 (checksumRound ((hashDigits hash).map UInt8.ofNat ++ rest)) 0 =
      some (Wots.checksum (hashDigits hash)) := by
  have hround : ∀ i < WOTS_LEN1, checksumRound ((hashDigits hash).map UInt8.ofNat ++ rest) i
      (Wots.checksum ((hashDigits hash).take i)) =
        some (Wots.checksum ((hashDigits hash).take (i + 1))) := by
    intro i hi
    obtain ⟨c, hc, hle, hdigit⟩ := getElem?_hashDigits h hi rest
    obtain ⟨hlt, rfl⟩ := List.getElem?_eq_some_iff.mp hc
    have hbyte : (UInt8.ofNat (hashDigits hash)[i]).toNat = (hashDigits hash)[i] := by
      rw [UInt8.toNat_ofNat', Nat.mod_eq_of_lt (by omega)]
    rw [checksumRound, hdigit, Option.bind_eq_bind, Option.bind_some, hbyte,
      List.take_succ_eq_append_getElem hlt, checksum_append_singleton]
    rfl
  have hall : (hashDigits hash).take WOTS_LEN1 = hashDigits hash :=
    List.take_of_length_le (length_hashDigits h).le
  have hloop := forRange_eq_some hround
  rwa [hall] at hloop

theorem splitHash_eq (h : hash.length = 32) (hchunks : chunks.length = WOTS_LEN_TOTAL) :
    splitHash chunks hash = some ((hashChunks hash).map UInt8.ofNat) := by
  have hrest : (chunks.drop 64).length = 3 := by
    rw [List.length_drop, hchunks]
    rfl
  have hdigits : ((hashDigits hash).map UInt8.ofNat).length = 64 := by
    rw [List.length_map, length_hashDigits h, WOTS_LEN1]
  have hstores : ∀ (buf : Bytes) (a b c : UInt8),
      ((store buf 64 [a]).bind fun buf => (store buf 65 [b]).bind fun buf => store buf 66 [c]) =
        store buf 64 [a, b, c] := by
    intro buf a b c
    have hinner : (fun buf => (store buf 65 [b]).bind fun buf => store buf 66 [c]) =
        fun buf => store buf 65 [b, c] := by
      funext buf
      exact store_bind_store buf 65 [b] [c]
    rw [hinner]
    exact store_bind_store buf 64 [a] [b, c]
  have hlast : ∀ a b c : UInt8,
      store ((hashDigits hash).map UInt8.ofNat ++ chunks.drop 64) 64 [a, b, c] =
        some ((hashDigits hash).map UInt8.ofNat ++ [a, b, c]) := by
    intro a b c
    have hthree : [a, b, c].length = (chunks.drop 64).length := hrest.symm
    have hstore := store_append ((hashDigits hash).map UInt8.ofNat) (chunks.drop 64) [] hthree
    rwa [List.append_nil, List.append_nil, hdigits] at hstore
  simp only [splitHash, splitRounds_eq h hchunks, sumChunks_eq h, Option.bind_eq_bind,
    Option.bind_some, hstores, hlast]
  rw [hashChunks, List.map_append]
  rfl

end SplitHash

/-- The array of chunks ends as the digits of the Python code, whatever it held. -/
theorem computeChunks_eq {chunks : Bytes} (h : chunks.length = WOTS_LEN_TOTAL) (message : Bytes) :
    computeChunks chunks message = some ((Wots.allChunks message).map UInt8.ofNat) :=
  splitHash_eq (length_sha3_256 message) h

theorem load_chainBlock {key : Bytes} (h : key.length = WOTS_SIG_SIZE) {i : ℕ}
    (hi : i < WOTS_LEN_TOTAL) : load key (i * WOTS_N) WOTS_N = some (Wots.chainBlock key i) := by
  have hroom : i * WOTS_N + WOTS_N ≤ key.length := by
    rw [h, WOTS_SIG_SIZE, ← Nat.succ_mul]
    exact Nat.mul_le_mul_right _ hi
  rw [load, if_pos hroom, Wots.chainBlock, Bytes.slice, Nat.succ_mul, Nat.add_sub_cancel_left]
  rfl

theorem length_chainBlock {key : Bytes} (h : key.length = WOTS_SIG_SIZE) {i : ℕ}
    (hi : i < WOTS_LEN_TOTAL) : (Wots.chainBlock key i).length = WOTS_N := by
  simp only [WOTS_SIG_SIZE, WOTS_LEN_TOTAL, WOTS_N] at h hi
  rw [Wots.chainBlock, Bytes.slice, List.length_take, List.length_drop, h]
  simp only [Wots.n, WOTS_N]
  omega

def revealed (message privateKey : Bytes) : List Bytes :=
  (Wots.allChunks message).zipIdx.map fun c => Wots.hashChain (Wots.chainBlock privateKey c.2) c.1

theorem length_revealed (message privateKey : Bytes) :
    (revealed message privateKey).length = WOTS_LEN_TOTAL := by
  rw [revealed, List.length_map, List.length_zipIdx, Wots.length_allChunks]
  rfl

theorem length_of_mem_revealed (message : Bytes) {privateKey : Bytes}
    (h : privateKey.length = WOTS_SIG_SIZE) :
    ∀ b ∈ revealed message privateKey, b.length = WOTS_N := by
  intro b hb
  obtain ⟨c, hc, rfl⟩ := List.mem_map.mp hb
  exact Wots.length_hashChain (length_chainBlock h (Wots.index_lt hc)) c.1

theorem signRound_eq {message privateKey : Bytes} (h : privateKey.length = WOTS_SIG_SIZE) (i : ℕ)
    (b : Bytes) (hb : (revealed message privateKey)[i]? = some b) (buf : Bytes) :
    signRound ((Wots.allChunks message).map UInt8.ofNat) privateKey i buf =
      store buf (i * WOTS_N) b := by
  rw [revealed, List.getElem?_map, List.getElem?_zipIdx, Option.map_map, Option.map_eq_some_iff] at hb
  obtain ⟨c, hc, rfl⟩ := hb
  have hle : c ≤ 15 := Wots.allChunks_le message (List.mem_of_getElem? hc)
  have hbyte : (UInt8.ofNat c).toNat = c := by
    rw [UInt8.toNat_ofNat', Nat.mod_eq_of_lt (by omega)]
  have hindex : i < WOTS_LEN_TOTAL := by
    have hlt := (List.getElem?_eq_some_iff.mp hc).1
    rwa [Wots.length_allChunks] at hlt
  rw [signRound, load_chainBlock h hindex, List.getElem?_map, hc]
  simp only [Option.map_some, Option.bind_eq_bind, Option.bind_some, hashChain_eq, hbyte,
    Function.comp_apply, Nat.zero_add]

/-- The loop of `wots_sign` writes the signature over whatever its buffer held. -/
theorem signLoop_eq (message : Bytes) {privateKey signature : Bytes}
    (hkey : privateKey.length = WOTS_SIG_SIZE) (hsignature : signature.length = WOTS_SIG_SIZE) :
    forRange WOTS_LEN_TOTAL (signRound ((Wots.allChunks message).map UInt8.ofNat) privateKey)
      signature = some (Wots.sign message privateKey) := by
  have hroom : (revealed message privateKey).length * WOTS_N = signature.length := by
    rw [length_revealed, hsignature]
    rfl
  have hfill := forRange_fill (length_of_mem_revealed message hkey) hroom.le (signRound_eq hkey)
  rw [List.drop_of_length_le hroom.ge, List.append_nil, length_revealed] at hfill
  exact hfill

def chainStarts (seed : Bytes) : List Bytes := (List.range Wots.lenTotal).map (Wots.chainSeed seed)

def chainEnds (seed : Bytes) : List Bytes :=
  (List.range Wots.lenTotal).map fun i => Wots.hashChain (Wots.chainSeed seed i) (Wots.w - 1)

section

variable (seed : Bytes) {i : ℕ}

theorem length_of_mem_chainStarts : ∀ b ∈ chainStarts seed, b.length = WOTS_N := by
  intro b hb
  obtain ⟨j, -, rfl⟩ := List.mem_map.mp hb
  exact Wots.length_chainSeed seed j

theorem length_of_mem_chainEnds : ∀ b ∈ chainEnds seed, b.length = WOTS_N := by
  intro b hb
  obtain ⟨j, -, rfl⟩ := List.mem_map.mp hb
  exact Wots.length_hashChain (Wots.length_chainSeed seed j) _

theorem length_chainStarts : (chainStarts seed).length = WOTS_LEN_TOTAL := by
  rw [chainStarts, List.length_map, List.length_range]
  rfl

theorem length_chainEnds : (chainEnds seed).length = WOTS_LEN_TOTAL := by
  rw [chainEnds, List.length_map, List.length_range]
  rfl

theorem getElem?_chainStarts (hi : i < WOTS_LEN_TOTAL) :
    (chainStarts seed)[i]? = some (Wots.chainSeed seed i) := by
  have hlt : i < Wots.lenTotal := hi
  simp [chainStarts, hlt]

theorem getElem?_chainEnds (hi : i < WOTS_LEN_TOTAL) :
    (chainEnds seed)[i]? = some (Wots.hashChain (Wots.chainSeed seed i) (Wots.w - 1)) := by
  have hlt : i < Wots.lenTotal := hi
  simp [chainEnds, hlt]

/-- The buffers of a key pair after some rounds. -/
def keysAfter (privateKey publicKey : Bytes) (i : ℕ) : Bytes × Bytes :=
  (filled (chainStarts seed) WOTS_N privateKey i, filled (chainEnds seed) WOTS_N publicKey i)

variable {privateKey publicKey : Bytes}

theorem store_chainStart (h : privateKey.length = WOTS_SIG_SIZE) (hi : i < WOTS_LEN_TOTAL) :
    store (keysAfter seed privateKey publicKey i).1 (i * WOTS_N) (Wots.chainSeed seed i) =
      some (keysAfter seed privateKey publicKey (i + 1)).1 :=
  store_filled (length_of_mem_chainStarts seed) (getElem?_chainStarts seed hi)
    (by rw [length_chainStarts, h, WOTS_SIG_SIZE])

theorem load_chainStart (hi : i < WOTS_LEN_TOTAL) :
    load (keysAfter seed privateKey publicKey (i + 1)).1 (i * WOTS_N) WOTS_N =
      some (Wots.chainSeed seed i) :=
  load_filled (length_of_mem_chainStarts seed) privateKey (Nat.lt_succ_self i)
    (getElem?_chainStarts seed hi)

theorem store_chainEnd (h : publicKey.length = WOTS_SIG_SIZE) (hi : i < WOTS_LEN_TOTAL) :
    store (keysAfter seed privateKey publicKey i).2 (i * WOTS_N)
        (hashChain (Wots.chainSeed seed i) (WOTS_W - 1)) =
      some (keysAfter seed privateKey publicKey (i + 1)).2 := by
  rw [hashChain_eq]
  exact store_filled (length_of_mem_chainEnds seed) (getElem?_chainEnds seed hi)
    (by rw [length_chainEnds, h, WOTS_SIG_SIZE])

theorem keygen_of_rounds {body : ℕ → Bytes × Bytes → Option (Bytes × Bytes)}
    (hprivate : privateKey.length = WOTS_SIG_SIZE) (hpublic : publicKey.length = WOTS_SIG_SIZE)
    (h : ∀ i < WOTS_LEN_TOTAL, body i (keysAfter seed privateKey publicKey i) =
      some (keysAfter seed privateKey publicKey (i + 1))) :
    forRange WOTS_LEN_TOTAL body (privateKey, publicKey) = some (Wots.keygen seed) := by
  have hloop := forRange_eq_some h
  have hstart : keysAfter seed privateKey publicKey 0 = (privateKey, publicKey) := by
    rw [keysAfter, filled_zero, filled_zero]
  have hend : keysAfter seed privateKey publicKey WOTS_LEN_TOTAL = Wots.keygen seed := by
    have hstarts : filled (chainStarts seed) WOTS_N privateKey WOTS_LEN_TOTAL =
        (chainStarts seed).flatten := by
      rw [← length_chainStarts seed]
      exact filled_eq_flatten (by rw [length_chainStarts, hprivate, WOTS_SIG_SIZE])
    have hends : filled (chainEnds seed) WOTS_N publicKey WOTS_LEN_TOTAL =
        (chainEnds seed).flatten := by
      rw [← length_chainEnds seed]
      exact filled_eq_flatten (by rw [length_chainEnds, hpublic, WOTS_SIG_SIZE])
    rw [keysAfter, hstarts, hends]
    rfl
  rwa [hstart, hend] at hloop

end

end Native

namespace Rust

open Native

def deriveChainSeed (seed : Bytes) (index : ℕ) : Bytes :=
  sha3_256 (seed ++ ascii ['w', 'o', 't', 's', '_', 'c', 'h', 'a', 'i', 'n'] ++
    Bytes.bigEndian 8 index)

def wotsKeygen (seed : Bytes) : Option (Bytes × Bytes) :=
  forRange WOTS_LEN_TOTAL (fun i keys => do
    let chainSeed := deriveChainSeed seed i
    let privateKey ← store keys.1 (i * WOTS_N) chainSeed
    let pubChain := hashChain chainSeed (WOTS_W - 1)
    let publicKey ← store keys.2 (i * WOTS_N) pubChain
    return (privateKey, publicKey))
    (List.replicate WOTS_SIG_SIZE 0, List.replicate WOTS_SIG_SIZE 0)

def computeChunks (message : Bytes) : Option Bytes :=
  Native.computeChunks (List.replicate WOTS_LEN_TOTAL 0) message

def wotsSign (message privateKey : Bytes) : Option Bytes := do
  if privateKey.length ≠ WOTS_SIG_SIZE then none
  else
    let chunks ← computeChunks message
    forRange WOTS_LEN_TOTAL (signRound chunks privateKey) (List.replicate WOTS_SIG_SIZE 0)

theorem wotsKeygen_eq (seed : Bytes) : wotsKeygen seed = some (Wots.keygen seed) := by
  apply keygen_of_rounds seed List.length_replicate List.length_replicate
  intro i hi
  have hseed : deriveChainSeed seed i = Wots.chainSeed seed i := rfl
  simp only [hseed, store_chainStart seed List.length_replicate hi,
    store_chainEnd seed List.length_replicate hi, Option.bind_eq_bind, Option.bind_some]
  rfl

theorem wotsSign_eq (message : Bytes) {privateKey : Bytes} (h : privateKey.length = WOTS_SIG_SIZE) :
    wotsSign message privateKey = some (Wots.sign message privateKey) := by
  rw [wotsSign, if_neg (not_not.mpr h), computeChunks, computeChunks_eq List.length_replicate]
  exact signLoop_eq message h List.length_replicate

end Rust

namespace C

open Native

/-- The index is an `int`: four of its eight bytes are zero. -/
def deriveChainSeed (seed : Bytes) (index : ℕ) : Option Bytes := do
  let seed ← load seed 0 64
  return sha3_256 (seed ++ ascii ['w', 'o', 't', 's', '_', 'c', 'h', 'a', 'i', 'n'] ++
    [0, 0, 0, 0, UInt8.ofNat ((index >>> 24) &&& 0xFF), UInt8.ofNat ((index >>> 16) &&& 0xFF),
      UInt8.ofNat ((index >>> 8) &&& 0xFF), UInt8.ofNat (index &&& 0xFF)])

/-- The public chain starts from the block of the private key that was just written. -/
def wotsKeygen (seed privateKey publicKey : Bytes) : Option (Bytes × Bytes) :=
  forRange WOTS_LEN_TOTAL (fun i keys => do
    let chainSeed ← deriveChainSeed seed i
    let privateKey ← store keys.1 (i * WOTS_N) chainSeed
    let start ← load privateKey (i * WOTS_N) WOTS_N
    let publicKey ← store keys.2 (i * WOTS_N) (hashChain start (WOTS_W - 1))
    return (privateKey, publicKey)) (privateKey, publicKey)

def computeChunks (chunks message : Bytes) : Option Bytes := Native.computeChunks chunks message

/-- `chunks` is the local array. -/
def wotsSign (chunks message privateKey signature : Bytes) : Option Bytes := do
  let chunks ← computeChunks chunks message
  forRange WOTS_LEN_TOTAL (signRound chunks privateKey) signature

theorem deriveChainSeed_eq {seed : Bytes} (h : seed.length = 64) {index : ℕ}
    (hindex : index < 2 ^ 32) : deriveChainSeed seed index = some (Wots.chainSeed seed index) := by
  have hload : load seed 0 64 = some seed := by
    rw [← h]
    simpa using load_append [] seed []
  rw [deriveChainSeed, hload, Wots.chainSeed, Bytes.bigEndian_eight_of_lt hindex]
  rfl

theorem wotsKeygen_eq {seed privateKey publicKey : Bytes} (hseed : seed.length = 64)
    (hprivate : privateKey.length = WOTS_SIG_SIZE) (hpublic : publicKey.length = WOTS_SIG_SIZE) :
    wotsKeygen seed privateKey publicKey = some (Wots.keygen seed) := by
  apply keygen_of_rounds seed hprivate hpublic
  intro i hi
  have hindex : i < 2 ^ 32 := Nat.lt_trans hi (by decide)
  simp only [deriveChainSeed_eq hseed hindex, store_chainStart seed hprivate hi,
    load_chainStart seed hi, store_chainEnd seed hpublic hi, Option.bind_eq_bind, Option.bind_some]
  rfl

theorem wotsSign_eq (message : Bytes) {chunks privateKey signature : Bytes}
    (hchunks : chunks.length = WOTS_LEN_TOTAL) (hprivate : privateKey.length = WOTS_SIG_SIZE)
    (hsignature : signature.length = WOTS_SIG_SIZE) :
    wotsSign chunks message privateKey signature = some (Wots.sign message privateKey) := by
  rw [wotsSign, computeChunks, computeChunks_eq hchunks]
  exact signLoop_eq message hprivate hsignature

end C

end Qrtb
