import Qrtb.Crypto.Wots
import Mathlib.Data.List.Forall2

/-!
# A signature on another message

The checksum moves against the digits it is computed from, so the digits of two
different digests are never comparable: whoever signs a second message under a
key has to reveal a value before the one that was revealed, on some chain.
-/

namespace Qrtb

open Keccak

namespace Wots

theorem checksum_anti {chunks chunks' : List ℕ} (h : List.Forall₂ (· ≤ ·) chunks chunks') :
    checksum chunks' ≤ checksum chunks := by
  induction h with
  | nil => exact le_rfl
  | cons hc _ ih =>
    simp only [checksum, List.map_cons, List.sum_cons] at ih ⊢
    omega

theorem eq_of_checksum_le {chunks chunks' : List ℕ} (h : List.Forall₂ (· ≤ ·) chunks chunks')
    (hle : ∀ c ∈ chunks', c ≤ 15) (hsum : checksum chunks ≤ checksum chunks') :
    chunks = chunks' := by
  induction h with
  | nil => rfl
  | cons hc hrest ih =>
    obtain ⟨hhead, htail⟩ := List.forall_mem_cons.mp hle
    have hanti := checksum_anti hrest
    simp only [checksum, List.map_cons, List.sum_cons, w] at hsum hanti ih
    rw [ih htail (by omega)]
    congr 1
    omega

theorem checksum_eq_digits (message : Bytes) :
    checksum (messageChunks message) =
      256 * ((checksum (messageChunks message) >>> 8) &&& 0x0F) +
        16 * ((checksum (messageChunks message) >>> 4) &&& 0x0F) +
          (checksum (messageChunks message) &&& 0x0F) := by
  have hle := checksum_le (messageChunks message)
  have hmask : ∀ m : ℕ, m &&& 0x0F = m % 16 := fun m => Nat.and_two_pow_sub_one_eq_mod m 4
  rw [length_messageChunks] at hle
  rw [hmask, hmask, hmask, Nat.shiftRight_eq_div_pow, Nat.shiftRight_eq_div_pow]
  omega

theorem nibbles_inj {b b' : UInt8} (hhigh : b.toNat >>> 4 = b'.toNat >>> 4)
    (hlow : b.toNat &&& 0x0F = b'.toNat &&& 0x0F) : b = b' := by
  have hmask : ∀ m : ℕ, m &&& 0x0F = m % 16 := fun m => Nat.and_two_pow_sub_one_eq_mod m 4
  rw [hmask, hmask] at hlow
  rw [Nat.shiftRight_eq_div_pow, Nat.shiftRight_eq_div_pow] at hhigh
  apply UInt8.toNat_inj.mp
  omega

theorem digest_eq_of_messageChunks {message message' : Bytes}
    (h : messageChunks message = messageChunks message') :
    sha3_256 message = sha3_256 message' := by
  rw [messageChunks, messageChunks] at h
  generalize sha3_256 message = digest at h
  generalize sha3_256 message' = digest' at h
  induction digest generalizing digest' with
  | nil =>
    cases digest' with
    | nil => rfl
    | cons b' digest' => cases h
  | cons b digest ih =>
    cases digest' with
    | nil => cases h
    | cons b' digest' =>
      simp only [List.flatMap_cons, List.cons_append, List.nil_append, List.cons.injEq] at h
      obtain ⟨hhigh, hlow, hrest⟩ := h
      rw [nibbles_inj hhigh hlow, ih _ hrest]

theorem digest_eq_of_allChunks_le {message message' : Bytes}
    (h : List.Forall₂ (· ≤ ·) (allChunks message) (allChunks message')) :
    sha3_256 message = sha3_256 message' := by
  have hdigits := List.forall₂_take 64 h
  have hchecksum := List.forall₂_drop 64 h
  rw [allChunks, allChunks, List.take_left' (length_messageChunks _),
    List.take_left' (length_messageChunks _)] at hdigits
  rw [allChunks, allChunks, List.drop_left' (length_messageChunks _),
    List.drop_left' (length_messageChunks _)] at hchecksum
  simp only [checksumChunks, List.forall₂_cons, List.Forall₂.nil, and_true] at hchecksum
  obtain ⟨hhigh, hmiddle, hlow⟩ := hchecksum
  have hsum : checksum (messageChunks message) ≤ checksum (messageChunks message') := by
    rw [checksum_eq_digits message, checksum_eq_digits message']
    omega
  apply digest_eq_of_messageChunks
  exact eq_of_checksum_le hdigits
    (fun c hc => allChunks_le message' (List.mem_append_left _ hc)) hsum

theorem exists_smaller_digit {message message' : Bytes}
    (h : sha3_256 message ≠ sha3_256 message') :
    ∃ i c c' : ℕ, (allChunks message)[i]? = some c ∧ (allChunks message')[i]? = some c' ∧
      c' < c := by
  by_contra hnone
  apply h
  apply digest_eq_of_allChunks_le
  rw [List.forall₂_iff_get]
  refine ⟨by rw [length_allChunks, length_allChunks], ?_⟩
  intro i hi hi'
  by_contra hlt
  exact hnone ⟨i, _, _, List.getElem?_eq_getElem hi, List.getElem?_eq_getElem hi',
    not_le.mp hlt⟩

theorem length_chainBlock {data : Bytes} (hdata : data.length = 2144) {i : ℕ} (hi : i < lenTotal) :
    (chainBlock data i).length = 32 := by
  rw [chainBlock, Bytes.slice, List.length_take, List.length_drop, hdata]
  simp only [lenTotal, n] at hi ⊢
  omega

/-- An accepted signature on another digest reveals, on some chain, a value that precedes the
revealed one, or values that the two verifications hash on this chain collide. -/
theorem forgery_reveals (seed message message' : Bytes)
    (hdigest : sha3_256 message ≠ sha3_256 message') (signature' : Bytes)
    (hlength : signature'.length = 2144)
    (hverify : verify message' signature' (keygen seed).2 = true) :
    ∃ i < lenTotal, ∃ c c' : ℕ,
      (allChunks message)[i]? = some c ∧ (allChunks message')[i]? = some c' ∧ c' < c ∧
      (hashChain (chainBlock signature' i) (c - c') =
          chainBlock (sign message (keygen seed).1) i ∨
        ∃ j < w - 1 - c', ∃ k < w - 1 - c,
          (hashChain (chainBlock signature' i) j).length = 32 ∧
          (hashChain (chainBlock (sign message (keygen seed).1) i) k).length = 32 ∧
          Collision (hashChain (chainBlock signature' i) j)
            (hashChain (chainBlock (sign message (keygen seed).1) i) k)) := by
  obtain ⟨i, c, c', hc, hc', hlt⟩ := exists_smaller_digit hdigest
  have hi : i < lenTotal := by
    rw [← length_allChunks message]
    exact (List.getElem?_eq_some_iff.mp hc).1
  refine ⟨i, hi, c, c', hc, hc', hlt, ?_⟩
  have hle : c ≤ 15 := allChunks_le message (List.mem_of_getElem? hc)
  -- both values are hashed the rest of the way to the same end of the chain
  have hmeet : hashChain (hashChain (chainBlock signature' i) (c - c')) (w - 1 - c) =
      hashChain (chainBlock (sign message (keygen seed).1) i) (w - 1 - c) := by
    rw [verify_iff.mp (verify_sign message seed) i c hc, ← verify_iff.mp hverify i c' hc',
      hashChain_add]
    congr 1
    simp only [w]
    omega
  rcases hashChain_inj hmeet with heq | ⟨k, hk, hcollision⟩
  · exact Or.inl heq
  · rw [hashChain_add] at hcollision
    refine Or.inr ⟨k + (c - c'), ?_, k, hk, ?_, ?_, hcollision⟩
    · simp only [w] at hk ⊢
      omega
    · exact length_hashChain (length_chainBlock hlength hi) _
    · exact length_hashChain (length_chainBlock (length_sign message seed) hi) _

theorem forgery_reveals_second_signature :
    ∃ i < lenTotal, ∃ c c' : ℕ,
      (allChunks [0])[i]? = some c ∧ (allChunks [1])[i]? = some c' ∧ c' < c ∧
      (hashChain (chainBlock (sign [1] (keygen (List.replicate 64 0)).1) i) (c - c') =
          chainBlock (sign [0] (keygen (List.replicate 64 0)).1) i ∨
        ∃ j < w - 1 - c', ∃ k < w - 1 - c,
          (hashChain (chainBlock (sign [1] (keygen (List.replicate 64 0)).1) i) j).length = 32 ∧
          (hashChain (chainBlock (sign [0] (keygen (List.replicate 64 0)).1) i) k).length = 32 ∧
          Collision (hashChain (chainBlock (sign [1] (keygen (List.replicate 64 0)).1) i) j)
            (hashChain (chainBlock (sign [0] (keygen (List.replicate 64 0)).1) i) k)) :=
  forgery_reveals _ [0] [1] (by decide +kernel) _ (length_sign [1] _) (verify_sign [1] _)

end Wots

end Qrtb
