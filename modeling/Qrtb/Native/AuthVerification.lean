import Qrtb.Native.AuthRegistry
import Qrtb.Native.ProofBuffers
import Qrtb.Native.TemporalAuth
import Qrtb.Native.Verification

/-!
# Signatures across the languages (`temporal_auth.rs`, `temporal_auth.c`, `src/crypto.py`)

A verifier checks the WOTS+ signature and climbs from the key to the root. Rust asserts the
lengths of signature and key and C is handed arrays; on strings of 2144 bytes both decide as
the Python code, so a signature of any of the three trees is accepted by all of them, and
under the root of its batch alone.
-/

namespace Qrtb

open Keccak Buffer Transition Native
open TemporalAuthTree (Live)

namespace TemporalAuthTree

/-- `verify_auth`; the root is asked for after the signature. -/
def verifyAuth (message signature publicKey : Bytes) (proof : List ProofEntry)
    (t : TemporalAuthTree Bytes) : Except PyError Bool :=
  if !Wots.verify message signature publicKey then .ok false
  else do
    let authRoot ← t.authRoot
    return MerkleTree.verifyProof (sha3_256 publicKey) proof authRoot

theorem verifyAuth_eq {t : TemporalAuthTree Bytes} {leaves : List Bytes}
    (h : t.authTree = some leaves) (message signature publicKey : Bytes)
    (proof : List ProofEntry) :
    t.verifyAuth message signature publicKey proof =
      .ok (verifyAgainstRoot message signature publicKey proof (MerkleTree.root leaves)) := by
  rw [verifyAuth, verifyAgainstRoot, authRoot, h]
  cases Wots.verify message signature publicKey <;> rfl

end TemporalAuthTree

namespace Rust.TemporalAuthTree

def verifyAgainstRoot (message : Bytes) (sig : TemporalSignature) (authRoot : Bytes) :
    Option Bool := do
  let holds ← wotsVerify message sig.signature sig.publicKey
  if holds then return merkleVerifyProof (sha3_256 sig.publicKey) sig.proof authRoot
  else return false

def verify (message : Bytes) (sig : TemporalSignature) (t : TemporalAuthTree) : Option Bool :=
  verifyAgainstRoot message sig t.authRoot

theorem verifyAgainstRoot_eq (message : Bytes) (sig : TemporalSignature) (authRoot : Bytes) :
    verifyAgainstRoot message sig authRoot =
      if sig.signature.length = WOTS_SIG_SIZE ∧ sig.publicKey.length = WOTS_SIG_SIZE then
        some (Qrtb.TemporalAuthTree.verifyAgainstRoot message sig.signature sig.publicKey
          sig.proof.view authRoot)
      else none := by
  rw [verifyAgainstRoot]
  split_ifs with h
  · rw [wotsVerify_eq message h.1 h.2, Option.bind_eq_bind, Option.bind_some,
      merkleVerifyProof_eq, Qrtb.TemporalAuthTree.verifyAgainstRoot, MerkleTree.verifyProof,
      if_neg (not_not.mpr (length_sha3_256 _))]
    cases Wots.verify message sig.signature sig.publicKey <;> rfl
  · have hpanic : wotsVerify message sig.signature sig.publicKey = none := by
      rw [wotsVerify]
      split_ifs with hsignature hpublic
      · rfl
      · rfl
      · exact absurd ⟨not_not.mp hsignature, not_not.mp hpublic⟩ h
    rw [hpanic]
    rfl

end Rust.TemporalAuthTree

namespace C

/-- One entry of the array; any flag but zero puts the node on the right. -/
def climbRound (proof : MerkleProof) (i : ℕ) (current : Bytes) : Option Bytes := do
  let entry ← proof.entries[i]?
  if entry.isRight ≠ 0 then return hashNodes entry.sibling current
  else return hashNodes current entry.sibling

def merkleVerifyProof (leafHash : Bytes) (proof : MerkleProof) (root : Bytes) : Option Bool := do
  let current ← load leafHash 0 MERKLE_HASH_SIZE
  let current ← forRange proof.depth (climbRound proof) current
  let expected ← load root 0 MERKLE_HASH_SIZE
  return current == expected

/-- `chunks` is the array of `wots_verify`. -/
def tatVerify (chunks message signature publicKey : Bytes) (proof : MerkleProof)
    (authRoot : Bytes) : Option Bool := do
  let holds ← wotsVerify chunks message signature publicKey
  if holds then
    let key ← load publicKey 0 WOTS_SIG_SIZE
    merkleVerifyProof (sha3_256 key) proof authRoot
  else return false

theorem climbRounds_eq {proof : MerkleProof} (h : proof.depth ≤ proof.entries.length)
    (leafHash : Bytes) :
    forRange proof.depth (climbRound proof) leafHash =
      some (proof.view.foldl MerkleTree.climb leafHash) := by
  let node (i : ℕ) : Bytes :=
    ((proof.entries.take i).map fun e => (e.sibling, e.isRight.toNat)).foldl MerkleTree.climb
      leafHash
  have hround : ∀ i < proof.depth, climbRound proof i (node i) = some (node (i + 1)) := by
    intro i hi
    have hlt : i < proof.entries.length := hi.trans_le h
    have hnext : node (i + 1) = MerkleTree.climb (node i)
        (proof.entries[i].sibling, proof.entries[i].isRight.toNat) := by
      simp only [node]
      rw [List.take_succ_eq_append_getElem hlt, List.map_append, List.foldl_append]
      rfl
    rw [climbRound, List.getElem?_eq_getElem hlt, Option.bind_eq_bind, Option.bind_some, hnext,
      MerkleTree.climb]
    have hflag : proof.entries[i].isRight ≠ 0 ↔ proof.entries[i].isRight.toNat ≠ 0 :=
      not_congr UInt8.toNat_inj.symm
    split_ifs with hright hright' hright'
    · rfl
    · exact absurd (hflag.mp hright) hright'
    · exact absurd (hflag.mpr hright') hright
    · rfl
  exact forRange_eq_some hround

theorem merkleVerifyProof_eq {leafHash root : Bytes} {proof : MerkleProof}
    (hleaf : leafHash.length = MERKLE_HASH_SIZE) (hroot : root.length = MERKLE_HASH_SIZE)
    (h : proof.depth ≤ proof.entries.length) :
    merkleVerifyProof leafHash proof root =
      some (proof.view.foldl MerkleTree.climb leafHash == root) := by
  have hloadLeaf := load_all leafHash
  have hloadRoot := load_all root
  rw [hleaf] at hloadLeaf
  rw [hroot] at hloadRoot
  rw [merkleVerifyProof, hloadLeaf]
  simp only [Option.bind_eq_bind, Option.bind_some, climbRounds_eq h, hloadRoot, Option.pure_def]

theorem tatVerify_eq (message : Bytes) {chunks signature publicKey authRoot : Bytes}
    {proof : MerkleProof} (hchunks : chunks.length = WOTS_LEN_TOTAL)
    (hsignature : signature.length = WOTS_SIG_SIZE) (hpublic : publicKey.length = WOTS_SIG_SIZE)
    (h : proof.depth ≤ proof.entries.length) (hroot : authRoot.length = MERKLE_HASH_SIZE) :
    tatVerify chunks message signature publicKey proof authRoot =
      some (Qrtb.TemporalAuthTree.verifyAgainstRoot message signature publicKey proof.view
        authRoot) := by
  have hload := load_all publicKey
  rw [hpublic] at hload
  have hverify := merkleVerifyProof_eq (length_sha3_256 publicKey) hroot h
  rw [tatVerify, wotsVerify_eq message hchunks hsignature hpublic, hload,
    Qrtb.TemporalAuthTree.verifyAgainstRoot, MerkleTree.verifyProof,
    if_neg (not_not.mpr (length_sha3_256 _))]
  simp only [Option.bind_eq_bind, Option.bind_some, hverify]
  cases Wots.verify message signature publicKey <;> rfl

end C

namespace Native

variable {batchSeed : Bytes}

theorem verifyAgainstRoot_keySignature (batchSeed message root : Bytes) {idx : ℕ}
    (hidx : idx < TOTAL_KEYS_PER_BATCH) :
    TemporalAuthTree.verifyAgainstRoot message (keySignature batchSeed idx message).signature
      (keySignature batchSeed idx message).publicKey (keySignature batchSeed idx message).proof
      root = true ↔ root = batchRoot batchSeed :=
  TemporalAuthTree.verifyAgainstRoot_iff_of_getProof batchSeed message hidx
    (TemporalAuthTree.getProof_publicKeys batchSeed hidx) root

theorem apply_returns {t : TemporalAuthTree Bytes} (h : Live batchSeed t)
    {call : TemporalAuthTree.Call} {s : TemporalSignature} (hs : (t.apply call).1 = .ok s) :
    ∃ idx < TOTAL_KEYS_PER_BATCH, s = keySignature batchSeed idx call.message := by
  cases call with
  | sign message =>
    by_cases hfull : t.keyIndex ≥ USABLE_KEYS
    · rw [apply_sign_of_full hfull] at hs
      cases hs
    · rw [apply_sign_of_free h hfull] at hs
      exact ⟨t.keyIndex, Nat.lt_trans (Nat.lt_of_not_le hfull) (by decide), (Except.ok.inj hs).symm⟩
  | signRotation message =>
    by_cases hfull : t.rotationIndex ≥ RESERVED_ROTATION
    · rw [apply_signRotation_of_full hfull] at hs
      cases hs
    · rw [apply_signRotation_of_free h hfull] at hs
      exact ⟨USABLE_KEYS + t.rotationIndex, rotation_lt hfull, (Except.ok.inj hs).symm⟩

theorem run_returns {t t' : TemporalAuthTree Bytes} {events : List TemporalAuthTree.Event}
    (hrun : Run TemporalAuthTree.Step t events t') (h : Live batchSeed t)
    {e : TemporalAuthTree.Event} (he : e ∈ events) {s : TemporalSignature}
    (hs : e.outcome = .ok s) :
    ∃ idx < TOTAL_KEYS_PER_BATCH, s = keySignature batchSeed idx e.call.message := by
  induction hrun with
  | nil => cases he
  | @cons t u t' event events hstep _ ih =>
    have happly : t.apply event.call = (event.outcome, u) := hstep
    rcases List.mem_cons.mp he with rfl | he
    · exact apply_returns h (by rw [happly]; exact hs)
    · have hlive := live_apply h event.call
      rw [happly] at hlive
      exact ih hlive he

end Native

namespace Rust

theorem Tracks.run {batchSeed : Bytes} {t : Qrtb.TemporalAuthTree Bytes}
    {r r' : TemporalAuthTree} {events : List Qrtb.TemporalAuthTree.Event}
    (hrun : Run Step r events r') (hlive : Live batchSeed t) (h : Tracks batchSeed t r) :
    ∃ t', Run Qrtb.TemporalAuthTree.Step t events t' ∧ Live batchSeed t' ∧
      Tracks batchSeed t' r' := by
  induction hrun generalizing t with
  | nil => exact ⟨t, .nil t, hlive, h⟩
  | cons hstep _ ih =>
    obtain ⟨out, happly, hout⟩ := hstep
    obtain ⟨out', u', happly', hout', htracks⟩ := h.apply hlive _
    obtain ⟨rfl, rfl⟩ := Prod.mk.inj (Option.some.inj (happly.symm.trans happly'))
    obtain ⟨t', hrun', hend⟩ := ih (live_apply hlive _) htracks
    exact ⟨t', .cons (Prod.ext (hout'.symm.trans hout) rfl) hrun', hend⟩

end Rust

namespace C

theorem Reports.unique {s : TemporalSignature} {code : ℤ}
    {o o' : Except PyError Qrtb.TemporalSignature} (h : Reports s code o) (h' : Reports s code o') :
    o = o' := by
  cases h <;> cases h' <;> rfl

theorem Tracks.run {batchSeed : Bytes} (hseed : batchSeed.length = 64)
    {t : Qrtb.TemporalAuthTree Bytes} {c c' : TemporalAuthTree}
    {events : List (Qrtb.TemporalAuthTree.Event × Memory)} (hrun : Run Step c events c')
    (hlive : Live batchSeed t) (h : Tracks batchSeed t c) :
    ∃ t', Run Qrtb.TemporalAuthTree.Step t (events.map Prod.fst) t' ∧ Live batchSeed t' ∧
      Tracks batchSeed t' c' := by
  induction hrun generalizing t with
  | nil => exact ⟨t, .nil t, hlive, h⟩
  | cons hstep _ ih =>
    obtain ⟨code, s, happly, hreports⟩ := hstep
    obtain ⟨code', s', u', happly', hreports', htracks⟩ := h.apply hseed hlive _ _
    obtain ⟨rfl, hrest⟩ := Prod.mk.inj (Option.some.inj (happly.symm.trans happly'))
    obtain ⟨rfl, rfl⟩ := Prod.mk.inj hrest
    obtain ⟨t', hrun', hend⟩ := ih (live_apply hlive _) htracks
    exact ⟨t', .cons (Prod.ext (hreports'.unique hreports) rfl) hrun', hend⟩

/-- Every proof of the batch lies inside of its array. -/
def Roomy (proofs : List MerkleProof) : Prop :=
  ∀ i < TOTAL_KEYS_PER_BATCH, ∀ p, proofs[i]? = some p → p.depth ≤ p.entries.length

theorem proofRound_room {memory : Memory} {pubKeys : Bytes} {i : ℕ} (hi : i < TOTAL_KEYS_PER_BATCH)
    {made made' : Bytes × List MerkleProof} (h : proofRound memory pubKeys i made = some made') :
    ∃ p, p.depth ≤ p.entries.length ∧ made'.2 = made.2.set i p ∧ i < made.2.length := by
  simp only [proofRound, Option.bind_eq_bind, Option.bind_eq_some_iff] at h
  obtain ⟨place, hplace, built, hbuilt, proofs, hstore, hmade⟩ := h
  obtain rfl := Option.some.inj hmade
  have hlt : i < made.2.length := (List.getElem?_eq_some_iff.mp hplace).1
  rw [store_singleton hlt] at hstore
  have hcount : (publicKeys []).length = TOTAL_KEYS_PER_BATCH :=
    Qrtb.TemporalAuthTree.length_publicKeys []
  rw [← hcount] at hi hbuilt
  obtain ⟨hroom, hdepth, hlength⟩ := merkleBuildWithProof_room hi hbuilt
  refine ⟨built.2, ?_, (Option.some.inj hstore).symm, hlt⟩
  rw [hdepth, hlength]
  exact hroom

theorem proofRounds_room {memory : Memory} {pubKeys : Bytes} {n : ℕ}
    (hn : n ≤ TOTAL_KEYS_PER_BATCH) {start made : Bytes × List MerkleProof}
    (h : forRange n (proofRound memory pubKeys) start = some made) :
    ∀ i < n, ∀ p, made.2[i]? = some p → p.depth ≤ p.entries.length := by
  induction n generalizing made with
  | zero => exact fun i hi => absurd hi (Nat.not_lt_zero i)
  | succ n ih =>
    rw [forRange_succ, Option.bind_eq_some_iff] at h
    obtain ⟨mid, hmid, hround⟩ := h
    obtain ⟨p, hp, hset, hlt⟩ := proofRound_room hn hround
    intro i hi q hq
    rw [hset] at hq
    by_cases hlast : n = i
    · subst hlast
      rw [List.getElem?_set_self hlt] at hq
      exact Option.some.inj hq ▸ hp
    · rw [List.getElem?_set_ne hlast] at hq
      exact ih (by omega) hmid i (by omega) q hq

theorem tatInit_room {memory : Memory} {batchSeed : Bytes} {c : TemporalAuthTree}
    (h : tatInit memory batchSeed = some c) : Roomy c.proofs := by
  simp only [tatInit, Option.bind_eq_bind, Option.bind_eq_some_iff] at h
  obtain ⟨seed, -, keys, -, made, hmade, hc⟩ := h
  obtain rfl := Option.some.inj hc
  exact proofRounds_room le_rfl hmade

theorem apply_proofs {c c' : TemporalAuthTree} {memory : Memory}
    {call : Qrtb.TemporalAuthTree.Call} {code : ℤ} {s : TemporalSignature}
    (h : c.apply memory call = some (code, s, c')) :
    c'.proofs = c.proofs ∧
      (code = 0 → ∃ idx < TOTAL_KEYS_PER_BATCH, c.proofs[idx]? = some s.proof) := by
  have hcopy : ∀ {idx message s}, c.signWith memory idx message = some s →
      c.proofs[idx]? = some s.proof := by
    intro idx message s hs
    simp only [TemporalAuthTree.signWith, Option.bind_eq_bind, Option.bind_eq_some_iff] at hs
    obtain ⟨_, -, _, -, _, -, proof, hproof, hs⟩ := hs
    rw [hproof, ← Option.some.inj hs]
  cases call with
  | sign message =>
    rw [TemporalAuthTree.apply, TemporalAuthTree.sign] at h
    split_ifs at h with hfull
    · obtain ⟨rfl, hrest⟩ := Prod.mk.inj (Option.some.inj h)
      obtain ⟨-, rfl⟩ := Prod.mk.inj hrest
      exact ⟨rfl, fun hcode => absurd hcode (by decide)⟩
    · rw [Option.bind_eq_bind, Option.bind_eq_some_iff] at h
      obtain ⟨s', hs, h⟩ := h
      obtain ⟨-, hrest⟩ := Prod.mk.inj (Option.some.inj h)
      obtain ⟨rfl, rfl⟩ := Prod.mk.inj hrest
      have hidx : c.keyIndex < TOTAL_KEYS_PER_BATCH :=
        Nat.lt_trans (Nat.lt_of_not_le hfull) (by decide)
      exact ⟨rfl, fun _ => ⟨_, hidx, hcopy hs⟩⟩
  | signRotation message =>
    rw [TemporalAuthTree.apply, TemporalAuthTree.signRotation] at h
    split_ifs at h with hfull
    · obtain ⟨rfl, hrest⟩ := Prod.mk.inj (Option.some.inj h)
      obtain ⟨-, rfl⟩ := Prod.mk.inj hrest
      exact ⟨rfl, fun hcode => absurd hcode (by decide)⟩
    · rw [Option.bind_eq_bind, Option.bind_eq_some_iff] at h
      obtain ⟨s', hs, h⟩ := h
      obtain ⟨-, hrest⟩ := Prod.mk.inj (Option.some.inj h)
      obtain ⟨rfl, rfl⟩ := Prod.mk.inj hrest
      have hidx : USABLE_KEYS + c.rotationIndex < TOTAL_KEYS_PER_BATCH :=
        Nat.add_lt_add_left (Nat.lt_of_not_le hfull) USABLE_KEYS
      exact ⟨rfl, fun _ => ⟨_, hidx, hcopy hs⟩⟩

theorem run_proofs {c c' : TemporalAuthTree}
    {events : List (Qrtb.TemporalAuthTree.Event × Memory)} (hrun : Run Step c events c') :
    c'.proofs = c.proofs := by
  induction hrun with
  | nil => rfl
  | cons hstep _ ih =>
    obtain ⟨code, s, happly, -⟩ := hstep
    exact ih.trans (apply_proofs happly).1

end C

namespace Native

/-- A run of one of the three trees returned the signature for the message. -/
inductive Returned (batchSeed : Bytes) : Bytes → TemporalSignature → Prop
  | python {events t e s} :
      Run TemporalAuthTree.Step (TemporalAuthTree.init batchSeed) events t →
      e ∈ events → e.outcome = .ok s → Returned batchSeed e.call.message s
  | rust {r₀ events r e s} :
      Rust.TemporalAuthTree.new batchSeed = some r₀ → Run Rust.Step r₀ events r →
      e ∈ events → e.outcome = .ok s → Returned batchSeed e.call.message s
  | c {memory c₀ events c e s} :
      C.tatInit memory batchSeed = some c₀ → Run C.Step c₀ events c →
      e ∈ events → e.1.outcome = .ok s → Returned batchSeed e.1.call.message s

theorem Returned.eq_keySignature {batchSeed : Bytes} (hseed : batchSeed.length = 64)
    {message : Bytes} {s : TemporalSignature} (h : Returned batchSeed message s) :
    ∃ idx < TOTAL_KEYS_PER_BATCH, s = keySignature batchSeed idx message := by
  have hlive := TemporalAuthTree.live_init batchSeed
  cases h with
  | python hrun he hs => exact run_returns hrun hlive he hs
  | rust hnew hrun he hs =>
    obtain ⟨r, hnew', htracks⟩ := Rust.new_tracks batchSeed
    obtain rfl := Option.some.inj (hnew.symm.trans hnew')
    obtain ⟨t, hrun', -⟩ := Rust.Tracks.run hrun hlive htracks
    exact run_returns hrun' hlive he hs
  | @c memory _ _ _ _ _ hinit hrun he hs =>
    obtain ⟨c, hinit', htracks⟩ := C.tatInit_tracks hseed memory
    obtain rfl := Option.some.inj (hinit.symm.trans hinit')
    obtain ⟨t, hrun', -⟩ := C.Tracks.run hseed hrun hlive htracks
    exact run_returns hrun' hlive (List.mem_map_of_mem he) hs

theorem Returned.accepted {batchSeed : Bytes} (hseed : batchSeed.length = 64) {message : Bytes}
    {s : TemporalSignature} (h : Returned batchSeed message s) :
    (s.signature.length = WOTS_SIG_SIZE ∧ s.publicKey.length = WOTS_SIG_SIZE) ∧
      ∀ root, TemporalAuthTree.verifyAgainstRoot message s.signature s.publicKey s.proof root =
        decide (root = batchRoot batchSeed) := by
  obtain ⟨idx, hidx, rfl⟩ := h.eq_keySignature hseed
  refine ⟨⟨Wots.length_sign message _, (length_keygen _).2⟩, fun root => ?_⟩
  rw [Bool.eq_iff_iff, decide_eq_true_iff]
  exact verifyAgainstRoot_keySignature batchSeed message root hidx

/-- What a C call reports with code 0 is returned by a run, and lies inside of its array. -/
theorem reported {batchSeed : Bytes} {memory memory' : C.Memory} {c₀ c c' : C.TemporalAuthTree}
    {events : List (TemporalAuthTree.Event × C.Memory)} (hinit : C.tatInit memory batchSeed = some c₀)
    (hrun : Run C.Step c₀ events c) {call : TemporalAuthTree.Call} {s : C.TemporalSignature}
    (happly : c.apply memory' call = some (0, s, c')) :
    s.proof.depth ≤ s.proof.entries.length ∧ Returned batchSeed call.message s.view := by
  obtain ⟨-, hproof⟩ := C.apply_proofs happly
  obtain ⟨idx, hidx, hproof⟩ := hproof rfl
  rw [C.run_proofs hrun] at hproof
  refine ⟨C.tatInit_room hinit idx hidx _ hproof, ?_⟩
  have hstep : C.Step c (⟨call, .ok s.view⟩, memory') c' := ⟨0, s, happly, .signed⟩
  exact .c hinit (hrun.append (.single hstep))
    (List.mem_append_right _ (List.mem_singleton.mpr rfl)) rfl

/-- All three verifiers return the verdict, for any memory and for every native form of the
signature that lies inside of its array. -/
structure Verdict (message : Bytes) (s : TemporalSignature) (root : Bytes) (verdict : Bool) :
    Prop where
  python : TemporalAuthTree.verifyAgainstRoot message s.signature s.publicKey s.proof root = verdict
  rust : ∀ r : Rust.TemporalSignature, r.view = s →
    Rust.TemporalAuthTree.verifyAgainstRoot message r root = some verdict
  c : ∀ (c : C.TemporalSignature) (chunks : Bytes), c.view = s →
    c.proof.depth ≤ c.proof.entries.length → chunks.length = WOTS_LEN_TOTAL →
    C.tatVerify chunks message c.signature c.publicKey c.proof root = some verdict

theorem Returned.verdict {batchSeed : Bytes} (hseed : batchSeed.length = 64) {message : Bytes}
    {s : TemporalSignature} (h : Returned batchSeed message s) (root : MerkleHash) :
    Verdict message s root.val (decide (root.val = batchRoot batchSeed)) := by
  obtain ⟨hlengths, hverdict⟩ := h.accepted hseed
  refine ⟨hverdict root.val, ?_, ?_⟩
  · rintro r rfl
    rw [Rust.TemporalAuthTree.verifyAgainstRoot_eq]
    exact (if_pos hlengths).trans (congrArg some (hverdict root.val))
  · rintro c chunks rfl hroom hchunks
    exact (C.tatVerify_eq message hchunks hlengths.1 hlengths.2 hroom root.property).trans
      (congrArg some (hverdict root.val))

theorem Returned.verdict_batchRoot {batchSeed : Bytes} (hseed : batchSeed.length = 64)
    {message : Bytes} {s : TemporalSignature} (h : Returned batchSeed message s) :
    Verdict message s (batchRoot batchSeed) true := by
  have hlength : (batchRoot batchSeed).length = MERKLE_HASH_SIZE :=
    MerkleTree.length_root (TemporalAuthTree.publicKeys_ne_nil batchSeed)
  have hverdict := h.verdict hseed ⟨batchRoot batchSeed, hlength⟩
  rwa [decide_eq_true rfl] at hverdict

/-- What any run of any of the three trees returns, all three verifiers accept under the root of
the batch, and under no other; and so does every tree of the batch, however far it was used. -/
theorem signatures_interoperate {batchSeed : Bytes} (hseed : batchSeed.length = 64) :
    (∀ message s, Returned batchSeed message s →
      (∀ root : MerkleHash,
        Verdict message s root.val (decide (root.val = batchRoot batchSeed))) ∧
      (∀ events t, Run TemporalAuthTree.Step (TemporalAuthTree.init batchSeed) events t →
        t.verifyAuth message s.signature s.publicKey s.proof = .ok true) ∧
      ∀ r₀ events r, Rust.TemporalAuthTree.new batchSeed = some r₀ → Run Rust.Step r₀ events r →
        ∀ sig : Rust.TemporalSignature, sig.view = s → r.verify message sig = some true) ∧
    ∀ memory c₀, C.tatInit memory batchSeed = some c₀ →
      ∀ events c memory' call s c', Run C.Step c₀ events c →
        c.apply memory' call = some (0, s, c') → ∀ chunks : Bytes, chunks.length = WOTS_LEN_TOTAL →
          C.tatVerify chunks call.message s.signature s.publicKey s.proof c'.authRoot =
            some true := by
  have hlive := TemporalAuthTree.live_init batchSeed
  refine ⟨fun message s h => ⟨h.verdict hseed, ?_, ?_⟩, ?_⟩
  · intro events t hrun
    have htree := (Live.issued hrun hlive).live.tree
    have hverify := (h.verdict_batchRoot hseed).python
    rw [TemporalAuthTree.verifyAuth_eq htree]
    exact congrArg Except.ok hverify
  · intro r₀ events r hnew hrun sig hview
    obtain ⟨r', hnew', htracks⟩ := Rust.new_tracks batchSeed
    obtain rfl := Option.some.inj (hnew.symm.trans hnew')
    obtain ⟨t, -, -, hend⟩ := Rust.Tracks.run hrun hlive htracks
    rw [Rust.TemporalAuthTree.verify, hend.root]
    exact (h.verdict_batchRoot hseed).rust sig hview
  · intro memory c₀ hinit events c memory' call s c' hrun happly chunks hchunks
    obtain ⟨hroom, hreturned⟩ := reported hinit hrun happly
    obtain ⟨c₁, hinit', htracks⟩ := C.tatInit_tracks hseed memory
    obtain rfl := Option.some.inj (hinit.symm.trans hinit')
    obtain ⟨t, -, hlive', htracks'⟩ := C.Tracks.run hseed hrun hlive htracks
    obtain ⟨_, _, _, happly', -, hend⟩ := htracks'.apply hseed hlive' memory' call
    obtain ⟨-, hrest⟩ := Prod.mk.inj (Option.some.inj (happly.symm.trans happly'))
    obtain ⟨-, rfl⟩ := Prod.mk.inj hrest
    rw [hend.root]
    exact (hreturned.verdict_batchRoot hseed).c s chunks rfl hroom hchunks

/-- The first signature of a C tree over the seed of zeros, in memory full of zeros. -/
theorem signatures_interoperate_zeros : ∃ (c c' : C.TemporalAuthTree) (s : C.TemporalSignature),
    C.tatInit zeroMemory (List.replicate 64 0) = some c ∧
      c.apply zeroMemory (.sign [1]) = some (0, s, c') ∧
      C.tatVerify (List.replicate 67 0) [1] s.signature s.publicKey s.proof c'.authRoot =
        some true := by
  have hseed : (List.replicate 64 (0 : UInt8)).length = 64 := List.length_replicate
  have hlive := TemporalAuthTree.live_init (List.replicate 64 (0 : UInt8))
  have hfree : ¬ (TemporalAuthTree.init (List.replicate 64 (0 : UInt8))).keyIndex ≥ USABLE_KEYS := by
    rw [not_le]
    exact show 0 < USABLE_KEYS by decide
  obtain ⟨c, hinit, htracks⟩ := C.tatInit_tracks hseed zeroMemory
  obtain ⟨code, s, c', happly, hreports, -⟩ := htracks.apply hseed hlive zeroMemory (.sign [1])
  rw [apply_sign_of_free hlive hfree] at hreports
  obtain rfl : code = 0 := by
    generalize hout : (Except.ok _ : Except PyError TemporalSignature) = outcome at hreports
    cases hreports with
    | signed => rfl
    | exhausted => cases hout
  exact ⟨c, c', s, hinit, happly, (signatures_interoperate hseed).2 zeroMemory c hinit [] c
    zeroMemory (.sign [1]) s c' (.nil c) happly (List.replicate 67 0) List.length_replicate⟩

end Native

end Qrtb
