import Qrtb.Wallet.KeyManager

/-!
# Old batches after a rotation

A rotation replaces the batch seed by one that is derived from it, and nothing
stored for the batches leads back. But the master seed stays in the key manager,
the first batch seed is derived from it, and every later one from the first. So
all old batch seeds can be derived again, in every state. Without the master seed
none of them could.
-/

namespace Qrtb

open Stateful SeedSpace

/-- What can be computed from known seeds. -/
inductive Derivable (known : List SeedTerm) : SeedTerm → Prop
  | stored {s : SeedTerm} : s ∈ known → Derivable known s
  | initialBatch {s : SeedTerm} : Derivable known s → Derivable known (.initialBatch s)
  | nextBatch {s : SeedTerm} : Derivable known s → Derivable known (.nextBatch s)
  | key {s : SeedTerm} (index : ℕ) : Derivable known s → Derivable known (.key s index)

theorem derivable_batchSeed {known : List SeedTerm} {masterSeed : SeedTerm}
    (h : masterSeed ∈ known) (n : ℕ) : Derivable known (batchSeed masterSeed n) := by
  induction n with
  | zero => exact (Derivable.stored h).initialBatch
  | succ n ih => exact ih.nextBatch

theorem not_derivable_batchSeed {known : List SeedTerm} {seed : Bytes} {n : ℕ}
    (h : ∀ s ∈ known, ∃ m, n ≤ m ∧ s = batchSeed (.master seed) m) {m : ℕ} (hm : m < n) :
    ¬ Derivable known (batchSeed (.master seed) m) := by
  -- neither the master seed nor a batch seed below `n` is ever reached
  have hreach : ∀ s, Derivable known s →
      s ≠ .master seed ∧ ∀ m < n, s ≠ batchSeed (.master seed) m := by
    intro s hs
    induction hs with
    | stored hs =>
      obtain ⟨j, hj, rfl⟩ := h _ hs
      refine ⟨by cases j <;> simp [batchSeed, initialBatch, nextBatch], ?_⟩
      intro m hm hsame
      have hindex := batchSeed_injective seed hsame
      omega
    | initialBatch _ ih =>
      refine ⟨by simp, ?_⟩
      intro m hm hsame
      cases m with
      | zero => exact ih.1 (SeedTerm.initialBatch.inj hsame)
      | succ m => cases hsame
    | nextBatch _ ih =>
      refine ⟨by simp, ?_⟩
      intro m hm hsame
      cases m with
      | zero => cases hsame
      | succ m => exact ih.2 m (by omega) (SeedTerm.nextBatch.inj hsame)
    | key index _ _ =>
      refine ⟨by simp, ?_⟩
      intro m hm hsame
      cases m with
      | zero => cases hsame
      | succ m => cases hsame
  intro hderivable
  exact (hreach _ hderivable).2 m hm rfl

namespace KeyManager

/-- The seeds belong to the batch the manager counts, and a prepared rotation to the next one. -/
structure Batched {S : Type} [SeedSpace S] (masterSeed : S) (k : KeyManager S) : Prop where
  master : k.masterSeed = masterSeed
  current : k.currentBatchSeed = batchSeed masterSeed k.batchNumber
  tree : k.authTree.batchSeed = k.currentBatchSeed
  next : ∀ p ∈ k.next, p.batchSeed = nextBatch k.currentBatchSeed ∧ p.authTree = .init p.batchSeed

section

variable {S : Type} [SeedSpace S] {masterSeed : S}

theorem batched_init (masterSeed : S) : Batched masterSeed (init masterSeed) :=
  ⟨rfl, rfl, rfl, by simp [init]⟩

theorem preserves_batched_signOnTree
    {sign : Bytes → Stateful (TemporalAuthTree S) TemporalSignature}
    (hsign : ∀ message t, (sign message t).2.batchSeed = t.batchSeed) (payload : Payload) :
    Preserves (Batched masterSeed) (signOnTree sign payload) := by
  intro k h
  have htree := (hsign payload.bytes k.authTree).trans h.tree
  rcases signOnTree_cases sign payload k with hk | hk | ⟨s, -, hk⟩
  · rwa [hk]
  · rw [hk]
    exact ⟨h.master, h.current, htree, h.next⟩
  · rw [hk]
    exact ⟨h.master, h.current, htree, h.next⟩

theorem batchSeed_sign (message : Bytes) (t : TemporalAuthTree S) :
    (TemporalAuthTree.sign message t).2.batchSeed = t.batchSeed := by
  unfold TemporalAuthTree.sign
  split_ifs <;> rfl

theorem batchSeed_signRotation (message : Bytes) (t : TemporalAuthTree S) :
    (TemporalAuthTree.signRotation message t).2.batchSeed = t.batchSeed := by
  unfold TemporalAuthTree.signRotation
  split_ifs <;> rfl

theorem preserves_batched_prepareRotation :
    Preserves (Batched masterSeed) (prepareRotation (S := S)) := by
  intro k h
  rw [prepareRotation_eq]
  refine ⟨h.master, h.current, h.tree, ?_⟩
  intro p hp
  obtain rfl := Option.some.inj hp
  exact ⟨rfl, rfl⟩

theorem preserves_batched_executeRotation :
    Preserves (Batched masterSeed) (executeRotation (S := S)) := by
  intro k h
  rcases executeRotation_cases k with ⟨-, hk⟩ | ⟨p, hp, hk⟩
  · rwa [hk]
  · obtain ⟨hseed, htree⟩ := h.next p hp
    rw [hk]
    refine ⟨h.master, ?_, by rw [htree]; rfl, by simp⟩
    simp only [hseed, h.current, batchSeed]

theorem Batched.generated {k : KeyManager S} (h : Batched masterSeed k) (epoch : ℤ) :
    Batched masterSeed (k.generated epoch) :=
  ⟨h.master, h.current, h.tree, h.next⟩

theorem preserves_batched_generateKeypair (epoch : ℤ) :
    Preserves (Batched masterSeed) (generateKeypair (S := S) epoch) :=
  preserves_generateKeypair fun _ h => h.generated epoch

theorem preserves_batched_getUnusedKeypair (epoch : ℤ) :
    Preserves (Batched masterSeed) (getUnusedKeypair (S := S) epoch) :=
  preserves_getUnusedKeypair fun _ h => h.generated epoch

theorem preserves_batched_sign (payload : Payload) (ref : KeyRef) :
    Preserves (Batched masterSeed) (sign (S := S) payload ref) := by
  intro k h
  rcases sign_cases payload ref k with hk | ⟨pair, -, -, hk⟩
  · rwa [hk]
  · rw [hk]
    exact ⟨h.master, h.current, h.tree, h.next⟩

theorem preserves_batched_apply (call : Call) :
    Preserves (Batched masterSeed) (apply (S := S) call) := by
  cases call with
  | markRegistered => exact fun k h => ⟨h.master, h.current, h.tree, h.next⟩
  | temporalSign message =>
    exact (preserves_batched_signOnTree batchSeed_sign _).bind fun _ => preserves_pure ()
  | temporalSignRotation message =>
    exact (preserves_batched_signOnTree batchSeed_signRotation _).bind fun _ => preserves_pure ()
  | prepareRotation => exact preserves_batched_prepareRotation.bind fun _ => preserves_pure ()
  | executeRotation => exact preserves_batched_executeRotation
  | evolveToEpoch targetEpoch => exact fun k h => ⟨h.master, h.current, h.tree, h.next⟩
  | generateKeypair epoch =>
    exact (preserves_batched_generateKeypair epoch).bind fun _ => preserves_pure ()
  | getUnusedKeypair epoch =>
    exact (preserves_batched_getUnusedKeypair epoch).bind fun _ => preserves_pure ()
  | sign message ref => exact (preserves_batched_sign _ ref).bind fun _ => preserves_pure ()

theorem batched_after (masterSeed : S) (calls : List Call) :
    Batched masterSeed (after apply calls (init masterSeed)) :=
  Preserves.after preserves_batched_apply calls (batched_init masterSeed)

/-- The call is an `execute_rotation` that goes through. -/
def rotates (k : KeyManager S) : Call → Bool
  | .executeRotation => k.next.isSome
  | _ => false

/-- The number of completed rotations of a sequence of calls. -/
def completedRotations : KeyManager S → List Call → ℕ
  | _, [] => 0
  | k, call :: calls => (k.rotates call).toNat + completedRotations (apply call k).2 calls

theorem batchNumber_signOnTree (sign : Bytes → Stateful (TemporalAuthTree S) TemporalSignature)
    (payload : Payload) (k : KeyManager S) :
    (signOnTree sign payload k).2.batchNumber = k.batchNumber := by
  rcases signOnTree_cases sign payload k with hk | hk | ⟨s, -, hk⟩
  · rw [hk]
  · rw [hk]
  · rw [hk]

theorem batchNumber_apply (call : Call) (k : KeyManager S) :
    (apply call k).2.batchNumber = k.batchNumber + (k.rotates call).toNat := by
  cases call with
  | markRegistered => rfl
  | temporalSign message =>
    rw [apply, snd_bind_pure]
    exact batchNumber_signOnTree _ _ k
  | temporalSignRotation message =>
    rw [apply, snd_bind_pure]
    exact batchNumber_signOnTree _ _ k
  | prepareRotation => rfl
  | executeRotation =>
    rcases executeRotation_cases k with ⟨hnext, hk⟩ | ⟨p, hnext, hk⟩
    · rw [apply, hk, rotates, hnext]
      rfl
    · rw [apply, hk, rotates, hnext]
      rfl
  | evolveToEpoch targetEpoch => rfl
  | generateKeypair epoch =>
    rw [apply, snd_bind_pure]
    rcases generateKeypair_cases epoch k with hk | hk
    · rw [hk]
      rfl
    · rw [hk]
      rfl
  | getUnusedKeypair epoch =>
    rw [apply, snd_bind_pure]
    rcases getUnusedKeypair_cases epoch k with hk | hk
    · rw [hk]
      rfl
    · rw [hk]
      rfl
  | sign message ref =>
    rw [apply, snd_bind_pure]
    rcases sign_cases (.raw message) ref k with hk | ⟨pair, -, -, hk⟩
    · rw [hk]
      rfl
    · rw [hk]
      rfl

theorem batchNumber_after (calls : List Call) (k : KeyManager S) :
    (after apply calls k).batchNumber = k.batchNumber + completedRotations k calls := by
  induction calls generalizing k with
  | nil => rfl
  | cons call calls ih =>
    have hrest := ih (apply call k).2
    rw [batchNumber_apply, Nat.add_assoc] at hrest
    exact hrest

end

/-- The seeds kept for the current and the prepared batch. -/
def batchSeeds {S : Type} (k : KeyManager S) : List S :=
  [k.currentBatchSeed, k.authTree.batchSeed] ++
    (k.next.toList.flatMap fun p => [p.batchSeed, p.authTree.batchSeed])

/-- All seeds in the attributes of the manager. The other attributes are counters, flags, hashes and
the keys of the cache, and no derivation starts from them. -/
def storedSeeds {S : Type} (k : KeyManager S) : List S := k.masterSeed :: k.batchSeeds

theorem Batched.batchSeeds {seed : Bytes} {k : KeyManager SeedTerm}
    (h : Batched (.master seed) k) :
    ∀ s ∈ k.batchSeeds, ∃ m, k.batchNumber ≤ m ∧ s = batchSeed (.master seed) m := by
  intro s hs
  have hnow : ∃ m, k.batchNumber ≤ m ∧ k.currentBatchSeed = batchSeed (.master seed) m :=
    ⟨k.batchNumber, le_rfl, h.current⟩
  rcases List.mem_append.mp hs with hs | hs
  · rcases List.mem_pair.mp hs with rfl | rfl
    · exact hnow
    · rwa [h.tree]
  · obtain ⟨p, hp, hs⟩ := List.mem_flatMap.mp hs
    obtain ⟨hseed, htree⟩ := h.next p (Option.mem_toList.mp hp)
    refine ⟨k.batchNumber + 1, by omega, ?_⟩
    rw [batchSeed, ← h.current]
    rcases List.mem_pair.mp hs with rfl | rfl
    · exact hseed
    · rw [htree]
      exact hseed

/-- Apart from the master seed, nothing stored leads to a batch before the last rotation. -/
theorem batchSeeds_forward_secret (seed : Bytes) (calls : List Call) {m : ℕ}
    (hm : m < completedRotations (init (SeedTerm.master seed)) calls) :
    ¬ Derivable (after apply calls (init (SeedTerm.master seed))).batchSeeds
      (batchSeed (.master seed) m) := by
  have hnumber := batchNumber_after calls (init (SeedTerm.master seed))
  refine not_derivable_batchSeed (batched_after _ calls).batchSeeds ?_
  rw [hnumber]
  exact Nat.lt_add_left _ hm

/-- After `n` rotations no older batch seed can be derived from what is stored. -/
def ForwardSecret (seed : Bytes) (n : ℕ) (k : KeyManager SeedTerm) : Prop :=
  ∀ m < n, ¬ Derivable k.storedSeeds (batchSeed (.master seed) m)

/-- After any calls with a completed rotation, every older batch seed can be derived from what the
manager stores. -/
theorem never_forwardSecret (seed : Bytes) (calls : List Call)
    (hrotated : 1 ≤ completedRotations (init (SeedTerm.master seed)) calls) :
    (after apply calls (init (SeedTerm.master seed))).forget = after apply calls (init seed) ∧
    (∀ m < completedRotations (init (SeedTerm.master seed)) calls,
      Derivable (after apply calls (init (SeedTerm.master seed))).storedSeeds
        (batchSeed (.master seed) m)) ∧
    ¬ ForwardSecret seed (completedRotations (init (SeedTerm.master seed)) calls)
      (after apply calls (init (SeedTerm.master seed))) := by
  have hbatched := batched_after (SeedTerm.master seed) calls
  have hmaster : SeedTerm.master seed ∈
      (after apply calls (init (SeedTerm.master seed))).storedSeeds := by
    rw [storedSeeds, hbatched.master]
    exact List.mem_cons_self
  refine ⟨?_, fun m _ => derivable_batchSeed hmaster m, ?_⟩
  · rw [← Simulates.after simulates_apply, forget_init]
    rfl
  · intro hsecret
    exact hsecret 0 (by omega) (derivable_batchSeed hmaster 0)

def oneRotation : List Call := [.prepareRotation, .executeRotation]

theorem never_forwardSecret_oneRotation :
    completedRotations (init (SeedTerm.master exampleSeed)) oneRotation = 1 ∧
      ¬ ForwardSecret exampleSeed 1
        (after apply oneRotation (init (SeedTerm.master exampleSeed))) := by
  have hone : completedRotations (init (SeedTerm.master exampleSeed)) oneRotation = 1 := rfl
  have h := (never_forwardSecret exampleSeed oneRotation (by rw [hone])).2.2
  rw [hone] at h
  exact ⟨hone, h⟩

/-- One rotation, and the seed of batch 0 is still within reach. -/
theorem firstBatch_derivable :
    completedRotations (init (SeedTerm.master (List.replicate 64 7))) oneRotation = 1 ∧
      Derivable
        (after apply oneRotation (init (SeedTerm.master (List.replicate 64 7)))).storedSeeds
        (batchSeed (.master (List.replicate 64 7)) 0) :=
  ⟨rfl, (Derivable.stored List.mem_cons_self).initialBatch⟩

end KeyManager

end Qrtb
