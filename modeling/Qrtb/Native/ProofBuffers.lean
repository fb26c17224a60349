import Qrtb.Native.MerkleInPlace

/-!
# The buffers of a Merkle proof in C (`native/csrc/merkle.c`, `native/csrc/merkle.h`)

The level buffers are allocated for the number of leaves, the array of a proof is not:
it has `MERKLE_MAX_DEPTH` entries, and every level below the root writes one. No count of
leaves is refused. So the writes stay inside exactly up to `2 ^ MERKLE_MAX_DEPTH` leaves,
and there the C code does what the Rust code does, whose entries are a vector.
-/

namespace Qrtb

open Keccak Buffer Native

namespace C

/-- `while (p < n) p <<= 1;` on `size_t`, in so many rounds. The shift drops the highest bit. -/
def doubleRounds : ℕ → UInt64 → UInt64 → Option UInt64
  | 0, _, _ => none
  | rounds + 1, n, p => if p < n then doubleRounds rounds n (p <<< 1) else some p

/-- The whole function: `malloc` gives the memory of its first and of its second call. -/
def callBuildWithProof (malloc : ℕ → UInt64 → Bytes) (rounds : ℕ) (leaves : Bytes)
    (numLeaves leafSize leafIndex : UInt64) (proofOut : MerkleProof) :
    Option (Bytes × MerkleProof) := do
  let paddedSize ← doubleRounds rounds numLeaves 1
  let level := malloc 0 (paddedSize * UInt64.ofNat MERKLE_HASH_SIZE)
  let nextLevel := malloc 1 ((paddedSize / 2 + 1) * UInt64.ofNat MERKLE_HASH_SIZE)
  merkleBuildWithProof level nextLevel leaves numLeaves.toNat leafSize.toNat leafIndex.toNat
    proofOut

theorem toNat_shiftLeft_one {p : UInt64} {k : ℕ} (hp : p.toNat = 2 ^ k) :
    (p <<< 1).toNat = 2 ^ (k + 1) % 2 ^ 64 := by
  rw [UInt64.toNat_shiftLeft, hp, Nat.shiftLeft_eq, pow_succ]
  rfl

theorem doubleRounds_zero (rounds : ℕ) {n : UInt64} (hn : 0 < n) :
    doubleRounds rounds n 0 = none := by
  induction rounds with
  | zero => rfl
  | succ rounds ih =>
    rw [doubleRounds, if_pos hn]
    exact ih

theorem toNat_of_doubleRounds {rounds k : ℕ} {n p q : UInt64} (hp : p.toNat = 2 ^ k)
    (hk : k ≤ Nat.size (n.toNat - 1)) (h : doubleRounds rounds n p = some q) :
    q.toNat = nextPow2 n.toNat := by
  induction rounds generalizing k p with
  | zero => cases h
  | succ rounds ih =>
    rw [doubleRounds] at h
    split_ifs at h with hlt
    · rw [UInt64.lt_iff_toNat_lt, hp] at hlt
      have hsize : k < Nat.size (n.toNat - 1) := by
        rw [Nat.lt_size]
        omega
      have hshift := toNat_shiftLeft_one hp
      by_cases hlast : k + 1 < 64
      · rw [Nat.mod_eq_of_lt (Nat.pow_lt_pow_right (by decide) hlast)] at hshift
        exact ih hshift hsize h
      · have hpow : 2 ^ k < 2 ^ 64 := hlt.trans n.toNat_lt
        obtain rfl : k = 63 := by
          have := (Nat.pow_lt_pow_iff_right (by decide)).mp hpow
          omega
        have hzero : p <<< 1 = 0 := UInt64.toNat_inj.mp (hshift.trans (Nat.mod_self _))
        have hn : 0 < n := by
          rw [UInt64.lt_iff_toNat_lt]
          exact (Nat.two_pow_pos 63).trans hlt
        rw [hzero, doubleRounds_zero rounds hn] at h
        cases h
    · obtain rfl := Option.some.inj h
      rw [UInt64.lt_iff_toNat_lt, hp] at hlt
      have hsize : Nat.size (n.toNat - 1) ≤ k := by
        rw [Nat.size_le]
        have := Nat.two_pow_pos k
        omega
      rw [hp, nextPow2_eq, Nat.one_shiftLeft, le_antisymm hk hsize]

theorem doubleRounds_returns {steps k : ℕ} {n p : UInt64} (hp : p.toNat = 2 ^ k)
    (hk : k + steps = Nat.size (n.toNat - 1)) (hsize : Nat.size (n.toNat - 1) < 64) :
    ∃ q, doubleRounds (steps + 1) n p = some q := by
  induction steps generalizing k p with
  | zero =>
    have hlt : n.toNat - 1 < 2 ^ k := by
      rw [← Nat.size_le]
      omega
    refine ⟨p, ?_⟩
    rw [doubleRounds, if_neg]
    rw [UInt64.lt_iff_toNat_lt, hp]
    omega
  | succ steps ih =>
    have hle : 2 ^ k ≤ n.toNat - 1 := by
      rw [← Nat.lt_size]
      omega
    have hshift := toNat_shiftLeft_one hp
    rw [Nat.mod_eq_of_lt (Nat.pow_lt_pow_right (by decide) (by omega))] at hshift
    obtain ⟨q, hq⟩ := ih hshift (by omega)
    refine ⟨q, ?_⟩
    rw [doubleRounds, if_pos, hq]
    rw [UInt64.lt_iff_toNat_lt, hp]
    have := Nat.two_pow_pos k
    omega

theorem push_eq_some {proof proof' : MerkleProof} {entry : MerkleProofEntry}
    (h : proof.push entry = some proof') :
    proof.depth < proof.entries.length ∧ proof'.depth = proof.depth + 1 ∧
      proof'.entries.length = proof.entries.length := by
  have hroom : proof.depth < proof.entries.length := by
    by_contra hfull
    have hstore : store proof.entries proof.depth [entry] = none := if_neg hfull
    rw [MerkleProof.push, hstore] at h
    cases h
  obtain ⟨pushed, hpush, hdepth, hlength, -⟩ := push_eq hroom entry
  obtain rfl := Option.some.inj (hpush.symm.trans h)
  exact ⟨hroom, hdepth, hlength⟩

/-- Every level below the root writes one entry, so a loop that ends had room for all of them. -/
theorem proofLoop_room {level nextLevel root : Bytes} {d idx : ℕ} {proof proof' : MerkleProof}
    (hidx : idx < 2 ^ d) (hproof : proof.depth ≤ proof.entries.length)
    (h : proofLoop level nextLevel (2 ^ d) idx proof = some (root, proof')) :
    proof.depth + d ≤ proof.entries.length ∧ proof'.depth = proof.depth + d ∧
      proof'.entries.length = proof.entries.length := by
  induction d generalizing level nextLevel idx proof with
  | zero =>
    rw [proofLoop, if_neg (by simp), Option.bind_eq_bind, Option.bind_eq_some_iff] at h
    obtain ⟨_, -, h⟩ := h
    obtain ⟨-, rfl⟩ := Prod.mk.inj (Option.some.inj h)
    exact ⟨hproof, rfl, rfl⟩
  | succ d ih =>
    obtain ⟨hlarge, hhalf, hup⟩ := one_level_up hidx
    rw [proofLoop, if_pos hlarge, if_pos (HashTree.xor_one_lt hidx), hhalf] at h
    simp only [Option.bind_eq_bind, Option.bind_eq_some_iff] at h
    obtain ⟨node, -, pushed, hpush, next, -, hrest⟩ := h
    obtain ⟨hroom, hdepth, hlength⟩ := push_eq_some hpush
    obtain ⟨hrestRoom, hrestDepth, hrestLength⟩ := ih hup (by omega) hrest
    exact ⟨by omega, by omega, by omega⟩

theorem merkleBuildWithProof_room {level nextLevel root : Bytes} {leaves : List Bytes}
    {data : Bytes} {leafSize leafIndex : ℕ} {proof proof' : MerkleProof}
    (hindex : leafIndex < leaves.length)
    (h : merkleBuildWithProof level nextLevel data leaves.length leafSize leafIndex proof =
      some (root, proof')) :
    MerkleTree.depth leaves ≤ proof.entries.length ∧ proof'.depth = MerkleTree.depth leaves ∧
      proof'.entries.length = proof.entries.length := by
  simp only [merkleBuildWithProof, Option.bind_eq_bind, Option.bind_eq_some_iff] at h
  obtain ⟨_, -, _, -, h⟩ := h
  rw [nextPow2_length] at h
  have hroom := proofLoop_room (MerkleTree.lt_two_pow_depth hindex).2 (Nat.zero_le _) h
  simpa using hroom

theorem length_entries {leaves : List Bytes} {leafIndex : ℕ} {proof : Rust.MerkleProof}
    (h : leafIndex < leaves.length)
    (hview : proof.view = MerkleTree.proofFrom (MerkleTree.buildTree leaves) leafIndex) :
    proof.entries.length = MerkleTree.depth leaves := by
  rw [← MerkleTree.length_proofFrom h, ← hview, Rust.MerkleProof.view, List.length_map]

section Call

variable {malloc : ℕ → UInt64 → Bytes} {leaves : List Bytes} {leafSize leafIndex : UInt64}
  {proofOut : MerkleProof}

/-- A call that returns had room for the depth of the tree, whatever memory it was given. -/
theorem callBuildWithProof_room {rounds : ℕ} {data root : Bytes} {proof : MerkleProof}
    (hcount : leaves.length < 2 ^ 64) (hindex : leafIndex.toNat < leaves.length)
    (h : callBuildWithProof malloc rounds data (UInt64.ofNat leaves.length) leafSize leafIndex
      proofOut = some (root, proof)) :
    MerkleTree.depth leaves ≤ proofOut.entries.length ∧ proof.depth = MerkleTree.depth leaves ∧
      proof.entries.length = proofOut.entries.length := by
  rw [callBuildWithProof, Option.bind_eq_bind, Option.bind_eq_some_iff] at h
  obtain ⟨_, -, h⟩ := h
  dsimp only at h
  rw [UInt64.toNat_ofNat_of_lt' hcount] at h
  exact merkleBuildWithProof_room hindex h

/-- Without that room it does not return, for any memory and in any number of rounds. -/
theorem callBuildWithProof_eq_none {rounds : ℕ} {data : Bytes} (hcount : leaves.length < 2 ^ 64)
    (hindex : leafIndex.toNat < leaves.length)
    (hfull : proofOut.entries.length < MerkleTree.depth leaves) :
    callBuildWithProof malloc rounds data (UInt64.ofNat leaves.length) leafSize leafIndex
      proofOut = none := by
  by_contra hcall
  obtain ⟨⟨root, proof⟩, hcall⟩ := Option.ne_none_iff_exists'.mp hcall
  obtain ⟨hroom, -⟩ := callBuildWithProof_room hcount hindex hcall
  omega

/-- With room for the depth of the tree the call returns, if its sizes are machine words. -/
theorem callBuildWithProof_returns (hmalloc : ∀ call size, (malloc call size).length = size.toNat)
    (hcount : leaves.length ≤ 2 ^ 58) (hsize : ∀ b ∈ leaves, b.length = leafSize.toNat)
    (hindex : leafIndex.toNat < leaves.length)
    (hroom : MerkleTree.depth leaves ≤ proofOut.entries.length) :
    ∃ rounds proof, callBuildWithProof malloc rounds leaves.flatten (UInt64.ofNat leaves.length)
        leafSize leafIndex proofOut = some (MerkleTree.root leaves, proof) ∧
      proof.view = MerkleTree.proofFrom (MerkleTree.buildTree leaves) leafIndex.toNat := by
  have hne : leaves ≠ [] := (MerkleTree.lt_two_pow_depth hindex).1
  have hword : (UInt64.ofNat leaves.length).toNat = leaves.length :=
    UInt64.toNat_ofNat_of_lt' (by rw [UInt64.size]; omega)
  have hdepth : MerkleTree.depth leaves ≤ 58 := (MerkleTree.depth_le_iff hne 58).mpr hcount
  have hpow : 2 ^ MerkleTree.depth leaves ≤ 2 ^ 58 := Nat.pow_le_pow_right (by decide) hdepth
  obtain ⟨paddedSize, hrounds⟩ := @doubleRounds_returns (MerkleTree.depth leaves) 0
    (UInt64.ofNat leaves.length) 1 rfl (by rw [hword, Nat.zero_add]; rfl)
    (by rw [hword]; exact hdepth.trans_lt (by decide))
  have hpadded := toNat_of_doubleRounds (k := 0) rfl (Nat.zero_le _) hrounds
  rw [hword, nextPow2_length] at hpadded
  have hhash : (UInt64.ofNat MERKLE_HASH_SIZE).toNat = MERKLE_HASH_SIZE := rfl
  have hlevel : (paddedSize * UInt64.ofNat MERKLE_HASH_SIZE).toNat =
      nextPow2 leaves.length * MERKLE_HASH_SIZE := by
    rw [UInt64.toNat_mul, hpadded, hhash, nextPow2_length, MERKLE_HASH_SIZE]
    exact Nat.mod_eq_of_lt (by omega)
  have hnext : ((paddedSize / 2 + 1) * UInt64.ofNat MERKLE_HASH_SIZE).toNat =
      (nextPow2 leaves.length / 2 + 1) * MERKLE_HASH_SIZE := by
    have hhalf : (paddedSize / 2 + 1).toNat = 2 ^ MerkleTree.depth leaves / 2 + 1 := by
      rw [UInt64.toNat_add, UInt64.toNat_div, hpadded]
      exact Nat.mod_eq_of_lt (by simp; omega)
    rw [UInt64.toNat_mul, hhalf, hhash, nextPow2_length, MERKLE_HASH_SIZE]
    exact Nat.mod_eq_of_lt (by omega)
  obtain ⟨proof, hbuild, hview⟩ := merkleBuildWithProof_eq hsize
    ((hmalloc 0 _).trans hlevel) ((hmalloc 1 _).trans hnext) hindex hroom
  refine ⟨MerkleTree.depth leaves + 1, proof, ?_, hview⟩
  rw [callBuildWithProof, hrounds, Option.bind_eq_bind, Option.bind_some]
  dsimp only
  rw [hword]
  exact hbuild

/-- A call writes inside of its buffers, and returns what the Rust code returns, exactly as long as
the array has an entry for every level. -/
theorem callBuildWithProof_agrees_iff
    (hmalloc : ∀ call size, (malloc call size).length = size.toNat)
    (hout : proofOut.entries.length = MERKLE_MAX_DEPTH) (hcount : leaves.length < 2 ^ 64)
    (hsize : ∀ b ∈ leaves, b.length = leafSize.toNat) (hindex : leafIndex.toNat < leaves.length) :
    (∃ rounds root cProof proof,
      callBuildWithProof malloc rounds leaves.flatten (UInt64.ofNat leaves.length) leafSize
        leafIndex proofOut = some (root, cProof) ∧
      Rust.merkleBuildWithProof leaves leafIndex.toNat = some (root, proof) ∧
      cProof.depth = proof.entries.length ∧ cProof.view = proof.view) ↔
    leaves.length ≤ 2 ^ MERKLE_MAX_DEPTH := by
  have hne : leaves ≠ [] := (MerkleTree.lt_two_pow_depth hindex).1
  constructor
  · rintro ⟨_, _, _, _, hcall, -⟩
    obtain ⟨hroom, -⟩ := callBuildWithProof_room hcount hindex hcall
    rw [hout] at hroom
    exact (MerkleTree.depth_le_iff hne _).mp hroom
  · intro hfew
    have hroom : MerkleTree.depth leaves ≤ proofOut.entries.length := by
      rw [hout]
      exact (MerkleTree.depth_le_iff hne _).mpr hfew
    have hle : leaves.length ≤ 2 ^ 58 := hfew.trans (Nat.pow_le_pow_right (by decide) (by decide))
    obtain ⟨rounds, cProof, hcall, hview⟩ :=
      callBuildWithProof_returns hmalloc hle hsize hindex hroom
    obtain ⟨proof, hbuild, hview'⟩ := Rust.merkleBuildWithProof_eq hindex
    obtain ⟨-, hdepth, -⟩ := callBuildWithProof_room hcount hindex hcall
    have hentries := length_entries hindex hview'
    exact ⟨rounds, _, cProof, proof, hcall, hbuild, hdepth.trans hentries.symm,
      hview.trans hview'.symm⟩

end Call

theorem callBuildWithProof_agrees_three :
    ∃ rounds root cProof proof,
      callBuildWithProof (fun _ size => List.replicate size.toNat 0) rounds [1, 2, 3] 3 1 2
        { entries := List.replicate 11 { sibling := List.replicate 32 0, isRight := 0 },
          depth := 0 } = some (root, cProof) ∧
      Rust.merkleBuildWithProof [[1], [2], [3]] 2 = some (root, proof) ∧
      cProof.depth = proof.entries.length ∧ cProof.view = proof.view :=
  (@callBuildWithProof_agrees_iff (fun _ size => List.replicate size.toNat 0) [[1], [2], [3]] 1 2
    { entries := List.replicate 11 { sibling := List.replicate 32 0, isRight := 0 }, depth := 0 }
    (fun _ _ => List.length_replicate) List.length_replicate (by decide) (by decide)
    (by decide)).mpr (by decide)

/-- One leaf more than 2048: the Rust code returns twelve entries, and the C code writes behind its
array, whatever memory it is given and however long it runs. The array is all it lacks. -/
theorem callBuildWithProof_overruns :
    (∃ root proof, Rust.merkleBuildWithProof (List.replicate 2049 [7]) 0 = some (root, proof) ∧
      proof.entries.length = 12) ∧
    (∀ malloc rounds proofOut, proofOut.entries.length = MERKLE_MAX_DEPTH →
      callBuildWithProof malloc rounds (List.replicate 2049 7) 2049 1 0 proofOut = none) ∧
    (∀ malloc : ℕ → UInt64 → Bytes, (∀ call size, (malloc call size).length = size.toNat) →
      ∀ proofOut, proofOut.entries.length = MERKLE_MAX_DEPTH + 1 → ∃ rounds root proof,
        callBuildWithProof malloc rounds (List.replicate 2049 7) 2049 1 0 proofOut =
          some (root, proof)) := by
  have hlength : (List.replicate 2049 [(7 : UInt8)]).length = 2049 := List.length_replicate
  have hsize : ∀ b ∈ List.replicate 2049 [(7 : UInt8)], b.length = (1 : UInt64).toNat := by
    intro b hb
    rw [List.eq_of_mem_replicate hb]
    rfl
  have hdepth : MerkleTree.depth (List.replicate 2049 [(7 : UInt8)]) = 12 := by
    rw [MerkleTree.depth, hlength]
    rfl
  have hflat : (List.replicate 2049 [(7 : UInt8)]).flatten = List.replicate 2049 7 :=
    List.flatten_replicate_singleton
  rw [← hflat]
  generalize List.replicate 2049 [(7 : UInt8)] = leaves at hlength hsize hdepth ⊢
  have hindex : (0 : UInt64).toNat < leaves.length := by
    rw [hlength]
    decide
  have hword : UInt64.ofNat leaves.length = 2049 := by
    rw [hlength]
    rfl
  rw [← hword]
  refine ⟨?_, ?_, ?_⟩
  · obtain ⟨proof, hbuild, hview⟩ := Rust.merkleBuildWithProof_eq hindex
    exact ⟨_, proof, hbuild, (length_entries hindex hview).trans hdepth⟩
  · intro malloc rounds proofOut hout
    apply callBuildWithProof_eq_none (by rw [hlength]; decide) hindex
    rw [hout, hdepth]
    decide
  · intro malloc hmalloc proofOut hout
    obtain ⟨rounds, proof, hcall, -⟩ := callBuildWithProof_returns hmalloc
      (by rw [hlength]; decide) hsize hindex (by rw [hout, hdepth]; decide)
    exact ⟨rounds, _, proof, hcall⟩

end C

end Qrtb
