import Qrtb.Crypto.Forgery

/-!
# Lengths of accepted signatures and public keys

`WOTSPlus.verify` cuts both strings into blocks without looking at their
lengths. A digit below fifteen leaves something to hash, so the block of the
public key has to be a whole digest; at the digit fifteen the two blocks are
compared as they are, however short. Bytes behind the last block are not read.
-/

namespace Qrtb

open Keccak

namespace Wots

theorem length_hashChain_eq (start : Bytes) (iterations : ℕ) :
    (hashChain start iterations).length = if iterations = 0 then start.length else 32 := by
  cases iterations with
  | zero => rfl
  | succ k =>
    rw [hashChain_succ, length_sha3_256]
    rfl

/-- Block lengths that the digits of a message allow. -/
def LengthsFit (message : Bytes) (a b : ℕ) : Prop :=
  ∀ i c : ℕ, (allChunks message)[i]? = some c →
    (if c < 15 then 32 else min 32 (a - i * n)) = min 32 (b - i * n)

theorem length_hashChain_block (signature : Bytes) (i : ℕ) {c : ℕ} (hc : c ≤ 15) :
    (hashChain (chainBlock signature i) (w - 1 - c)).length =
      if c < 15 then 32 else min 32 (signature.length - i * n) := by
  rw [length_hashChain_eq, chainBlock, Bytes.length_slice]
  by_cases hlt : c < 15
  · rw [if_pos hlt, if_neg (by simp only [w]; omega)]
  · rw [if_neg hlt, if_pos (by simp only [w]; omega), n]

/-- A message is accepted with some strings of two lengths exactly when these fit its digits. -/
theorem exists_verify_iff (message : Bytes) (a b : ℕ) :
    (∃ signature publicKey : Bytes, signature.length = a ∧ publicKey.length = b ∧
      verify message signature publicKey = true) ↔ LengthsFit message a b := by
  constructor
  · rintro ⟨signature, publicKey, rfl, rfl, h⟩ i c hc
    have hle : c ≤ 15 := allChunks_le message (List.mem_of_getElem? hc)
    rw [← length_hashChain_block signature i hle, verify_iff.mp h i c hc, chainBlock,
      Bytes.length_slice, n]
  · intro h
    -- the key is made of the ends of the chains that start from a string of zeros
    let signature : Bytes := List.replicate a 0
    let ends : ℕ → Bytes := fun i =>
      hashChain (chainBlock signature i) (w - 1 - (allChunks message).getD i 0)
    have hlength : signature.length = a := List.length_replicate
    refine ⟨signature, Bytes.ofBlocks n b ends, hlength, Bytes.length_ofBlocks n b ends, ?_⟩
    rw [verify_iff]
    intro i c hc
    have hends : ends i = hashChain (chainBlock signature i) (w - 1 - c) := by
      simp only [ends, List.getD_eq_getElem?_getD, hc, Option.getD_some]
    have hblock : chainBlock (Bytes.ofBlocks n b ends) i = ends i := by
      apply Bytes.slice_ofBlocks
      rw [hends, length_hashChain_block signature i
        (allChunks_le message (List.mem_of_getElem? hc)), hlength, h i c hc]
      rfl
    rw [hblock, hends]

/-- Lengths with which some message is accepted. -/
def Acceptable (a b : ℕ) : Prop :=
  2144 ≤ b ∨ b = 2112 ∧ a ≤ 2112 ∨ b = 2080 ∧ a ≤ 2080 ∨ 2080 < b ∧ b < 2144 ∧ a = b

/-- The high digit of the checksum is below fifteen, the others may be fifteen. -/
theorem acceptable_of_lengthsFit {message : Bytes} {a b : ℕ} (h : LengthsFit message a b) :
    Acceptable a b := by
  have hget : ∀ i < lenTotal, ∃ c ≤ 15, (allChunks message)[i]? = some c := by
    intro i hi
    rw [← length_allChunks message] at hi
    exact ⟨_, allChunks_le message (List.getElem_mem hi), List.getElem?_eq_getElem hi⟩
  obtain ⟨c₀, hmem, hlt⟩ := exists_checksum_digit message
  obtain ⟨c₁, -, hc₁⟩ := hget 65 (by decide)
  obtain ⟨c₂, -, hc₂⟩ := hget 66 (by decide)
  have h₀ := h 64 c₀ (List.mem_zipIdx_iff_getElem?.mp hmem)
  have h₁ := h 65 c₁ hc₁
  have h₂ := h 66 c₂ hc₂
  rw [if_pos hlt] at h₀
  unfold Acceptable
  unfold n at h₀ h₁ h₂
  split_ifs at h₁ h₂ <;> omega

/-- The digits of a message are fifteen from the `k`-th on and only there. -/
def FifteenFrom (message : Bytes) (k : ℕ) : Prop :=
  (allChunks message).map (· == 15) = List.replicate k false ++ List.replicate (67 - k) true

instance (message : Bytes) (k : ℕ) : Decidable (FifteenFrom message k) :=
  inferInstanceAs (Decidable (_ = _))

theorem lengthsFit_of_fifteenFrom {message : Bytes} {k a b : ℕ} (h : FifteenFrom message k)
    (hbefore : ∀ i < k, 32 ≤ b - i * n)
    (hfrom : ∀ i, k ≤ i → i < lenTotal → min 32 (a - i * n) = min 32 (b - i * n)) :
    LengthsFit message a b := by
  intro i c hc
  have hi : i < lenTotal := by
    rw [← length_allChunks message]
    exact (List.getElem?_eq_some_iff.mp hc).1
  have hle : c ≤ 15 := allChunks_le message (List.mem_of_getElem? hc)
  have hflag : some (c == 15) =
      (List.replicate k false ++ List.replicate (67 - k) true)[i]? := by
    rw [← h, List.getElem?_map, hc]
    rfl
  rcases lt_or_ge i k with hik | hik
  · rw [List.getElem?_append_left (by rwa [List.length_replicate]),
      List.getElem?_replicate_of_lt hik, Option.some_inj, beq_eq_false_iff_ne] at hflag
    rw [if_pos (by omega), min_eq_left (hbefore i hik)]
  · rw [List.getElem?_append_right (by rwa [List.length_replicate]), List.length_replicate,
      List.getElem?_replicate_of_lt (by simp only [lenTotal] at hi; omega), Option.some_inj,
      beq_iff_eq] at hflag
    rw [if_neg (by omega), hfrom i hik hi]

/-- Messages without the digit fifteen, with it in the last place, and in the last two. -/
theorem lengthsFit_of_acceptable {a b : ℕ} (h : Acceptable a b) :
    ∃ message, LengthsFit message a b := by
  have h₀ : FifteenFrom [30] 67 := by decide +kernel
  have h₁ : FifteenFrom [4, 78] 66 := by decide +kernel
  have h₂ : FifteenFrom [32, 83] 65 := by decide +kernel
  unfold Acceptable at h
  by_cases hlong : 2144 ≤ b
  · refine ⟨_, lengthsFit_of_fifteenFrom h₀ ?_ ?_⟩ <;> intro i <;> simp only [n, lenTotal] <;> omega
  by_cases hone : 2112 ≤ b
  · refine ⟨_, lengthsFit_of_fifteenFrom h₁ ?_ ?_⟩ <;> intro i <;> simp only [n, lenTotal] <;> omega
  · refine ⟨_, lengthsFit_of_fifteenFrom h₂ ?_ ?_⟩ <;> intro i <;> simp only [n, lenTotal] <;> omega

/-- Which lengths have no accepted strings other than those of 2144 bytes. -/
theorem verify_lengths (a b : ℕ) :
    (∀ message signature publicKey : Bytes, signature.length = a → publicKey.length = b →
      verify message signature publicKey = true →
        signature.length = 2144 ∧ publicKey.length = 2144) ↔
      (a = 2144 ∧ b = 2144) ∨ b < 2080 ∨ (b = 2080 ∧ 2080 < a) ∨ (b = 2112 ∧ 2112 < a) ∨
        (2080 < b ∧ b < 2144 ∧ b ≠ 2112 ∧ a ≠ b) := by
  have hiff : (∃ message signature publicKey : Bytes, signature.length = a ∧
      publicKey.length = b ∧ verify message signature publicKey = true) ↔ Acceptable a b := by
    simp only [exists_verify_iff]
    exact ⟨fun ⟨_, h⟩ => acceptable_of_lengthsFit h, lengthsFit_of_acceptable⟩
  constructor
  · intro h
    by_cases hlengths : a = 2144 ∧ b = 2144
    · exact Or.inl hlengths
    · have hnot : ¬ Acceptable a b := by
        intro haccept
        obtain ⟨message, signature, publicKey, rfl, rfl, hverify⟩ := hiff.mpr haccept
        exact hlengths (h message signature publicKey rfl rfl hverify)
      unfold Acceptable at hnot
      omega
  · rintro h message signature publicKey rfl rfl hverify
    have haccept := hiff.mp ⟨message, signature, publicKey, rfl, rfl, hverify⟩
    unfold Acceptable at haccept
    omega

theorem verify_append {message signature publicKey : Bytes} (h : signature.length = 2144)
    (rest : Bytes) :
    verify message (signature ++ rest) publicKey = verify message signature publicKey := by
  rw [Bool.eq_iff_iff, verify_iff, verify_iff]
  apply forall₃_congr
  intro i c hc
  have hi := (List.getElem?_eq_some_iff.mp hc).1
  rw [length_allChunks] at hi
  have hblock : chainBlock (signature ++ rest) i = chainBlock signature i := by
    apply Bytes.slice_append_left
    simp only [lenTotal, n] at hi ⊢
    omega
  rw [hblock]

theorem not_verify_lengths :
    ¬ ∀ message signature publicKey : Bytes, verify message signature publicKey = true →
      signature.length = 2144 ∧ publicKey.length = 2144 := by
  intro h
  have hlength := length_sign [0] (List.replicate 64 0)
  have hverify := verify_sign [0] (List.replicate 64 0)
  have hlonger := (h _ _ _ ((verify_append hlength [0]).trans hverify)).1
  rw [List.length_append, hlength] at hlonger
  simp at hlonger

end Wots

end Qrtb
