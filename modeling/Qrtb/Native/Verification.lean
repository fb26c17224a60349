import Qrtb.Native.Wots

/-!
# Verifying WOTS+ signatures in Rust and in C

Both go through the chains and leave the loop at the first one that does not end
in its block of the public key. Rust asserts the lengths of signature and key; C
is handed arrays. On strings of 2144 bytes both decide as the Python code.
-/

namespace Qrtb

open Keccak Buffer

namespace Native

def verifyRound (chunks signature publicKey : Bytes) (i : ℕ) : Option Bool := do
  let chunk ← chunks[i]?
  let start ← load signature (i * WOTS_N) WOTS_N
  let expected ← load publicKey (i * WOTS_N) WOTS_N
  return hashChain start (WOTS_W - 1 - chunk.toNat) == expected

/-- Whether a chain ends in its block of the public key, by the digits of a hash. -/
def chainHolds (hash signature publicKey : Bytes) (i : ℕ) : Bool :=
  Wots.hashChain (Wots.chainBlock signature i) (15 - (hashChunks hash).getD i 0) ==
    Wots.chainBlock publicKey i

theorem getElem?_hashChunks {hash : Bytes} (h : hash.length = 32) {i : ℕ}
    (hi : i < WOTS_LEN_TOTAL) : ∃ byte : UInt8,
      ((hashChunks hash).map UInt8.ofNat)[i]? = some byte ∧
        byte.toNat = (hashChunks hash).getD i 0 ∧ byte.toNat ≤ 15 := by
  rw [← length_hashChunks h] at hi
  have hle : (hashChunks hash)[i] ≤ 15 := hashChunks_le (List.getElem_mem hi)
  have hbyte : (UInt8.ofNat (hashChunks hash)[i]).toNat = (hashChunks hash)[i] := by
    rw [UInt8.toNat_ofNat', Nat.mod_eq_of_lt (by omega)]
  refine ⟨UInt8.ofNat (hashChunks hash)[i], ?_, ?_, ?_⟩
  · rw [List.getElem?_map, List.getElem?_eq_getElem hi, Option.map_some]
  · rw [hbyte, List.getD_eq_getElem _ _ hi]
  · rwa [hbyte]

section

variable {signature publicKey : Bytes}

theorem verifyRound_eq {hash : Bytes} (hhash : hash.length = 32)
    (hsignature : signature.length = WOTS_SIG_SIZE) (hpublic : publicKey.length = WOTS_SIG_SIZE)
    {i : ℕ} (hi : i < WOTS_LEN_TOTAL) :
    verifyRound ((hashChunks hash).map UInt8.ofNat) signature publicKey i =
      some (chainHolds hash signature publicKey i) := by
  obtain ⟨byte, hbyte, hdigit, -⟩ := getElem?_hashChunks hhash hi
  rw [verifyRound, hbyte, load_chainBlock hsignature hi, load_chainBlock hpublic hi, chainHolds,
    ← hdigit]
  simp only [Option.bind_eq_bind, Option.bind_some, hashChain_eq]
  rfl

theorem all_chainHolds (message signature publicKey : Bytes) :
    (List.range WOTS_LEN_TOTAL).all (chainHolds (sha3_256 message) signature publicKey) =
      Wots.verify message signature publicKey := by
  rw [Bool.eq_iff_iff, List.all_eq_true, Wots.verify_iff]
  constructor
  · intro h i c hc
    have hi := (List.getElem?_eq_some_iff.mp hc).1
    rw [Wots.length_allChunks] at hi
    have hchain := h i (List.mem_range.mpr hi)
    rw [chainHolds, hashChunks_sha3_256, List.getD_eq_getElem?_getD, hc] at hchain
    exact beq_iff_eq.mp hchain
  · intro h i hi
    rw [List.mem_range] at hi
    have hlt : i < (Wots.allChunks message).length := by
      rw [Wots.length_allChunks]
      exact hi
    rw [chainHolds, hashChunks_sha3_256, List.getD_eq_getElem _ _ hlt]
    exact beq_iff_eq.mpr (h i _ (List.getElem?_eq_getElem hlt))

theorem verifyLoop_eq (message : Bytes) (hsignature : signature.length = WOTS_SIG_SIZE)
    (hpublic : publicKey.length = WOTS_SIG_SIZE) :
    forAll WOTS_LEN_TOTAL
        (verifyRound ((Wots.allChunks message).map UInt8.ofNat) signature publicKey) =
      some (Wots.verify message signature publicKey) := by
  rw [← all_chainHolds]
  exact forAll_eq fun i hi => verifyRound_eq (length_sha3_256 message) hsignature hpublic hi

end

end Native

namespace Rust

open Native

def wotsVerify (message signature publicKey : Bytes) : Option Bool :=
  if signature.length ≠ WOTS_SIG_SIZE then none
  else if publicKey.length ≠ WOTS_SIG_SIZE then none
  else do
    let chunks ← computeChunks message
    forAll WOTS_LEN_TOTAL (verifyRound chunks signature publicKey)

theorem wotsVerify_eq (message : Bytes) {signature publicKey : Bytes}
    (hsignature : signature.length = WOTS_SIG_SIZE) (hpublic : publicKey.length = WOTS_SIG_SIZE) :
    wotsVerify message signature publicKey = some (Wots.verify message signature publicKey) := by
  rw [wotsVerify, if_neg (not_not.mpr hsignature), if_neg (not_not.mpr hpublic), computeChunks,
    computeChunks_eq List.length_replicate]
  exact verifyLoop_eq message hsignature hpublic

end Rust

namespace C

open Native

/-- `chunks` is the local array; the result is an `int` that is one or zero. -/
def wotsVerify (chunks message signature publicKey : Bytes) : Option Bool := do
  let chunks ← computeChunks chunks message
  forAll WOTS_LEN_TOTAL (verifyRound chunks signature publicKey)

theorem wotsVerify_eq (message : Bytes) {chunks signature publicKey : Bytes}
    (hchunks : chunks.length = WOTS_LEN_TOTAL) (hsignature : signature.length = WOTS_SIG_SIZE)
    (hpublic : publicKey.length = WOTS_SIG_SIZE) :
    wotsVerify chunks message signature publicKey =
      some (Wots.verify message signature publicKey) := by
  rw [wotsVerify, computeChunks, computeChunks_eq hchunks]
  exact verifyLoop_eq message hsignature hpublic

end C

end Qrtb
