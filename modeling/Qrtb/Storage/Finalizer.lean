import Qrtb.Lib.LinkedLog
import Qrtb.Storage.Manager

/-!
# Block finalization and the stored chain (`src/block_producer.py`)

The finalizer keeps the blocks it was given until they are stored. Proposals have
no `entropy` attribute, so none is recorded. A stored block is linked to the block
of the latest epoch in the store, which is the one before it only when the blocks
are finalized in the order of their epochs.
-/

namespace Qrtb

open Transition PyFloat LinkedLog
open StorageManager (Writable blocksAfter blocksAfter_of_not_writable blockAt_blocksAfter)

structure BlockFinalizer (F : Type) where
  storage : StorageManager := ∅
  finalizedEpochs : Finset ℤ := ∅
  pendingBlocks : OrderedDict ℤ (ConsensusBlock F × List Transaction) := ∅

namespace BlockFinalizer

variable {F : Type} [PyFloat F]

def queueForFinalization (block : ConsensusBlock F) (txs : List Transaction)
    (f : BlockFinalizer F) : BlockFinalizer F :=
  { f with pendingBlocks := f.pendingBlocks.set block.epoch (block, txs) }

/-- The epoch is recorded once more after the block is stored; `fault` is for that statement. -/
def finalize (faults : Faults) (fault : Bool) (epoch : ℤ) (f : BlockFinalizer F) :
    Except PyError Bool × BlockFinalizer F :=
  if epoch ∈ f.finalizedEpochs then (.ok true, f)
  else
    match f.pendingBlocks.get? epoch with
    | none => (.ok false, f)
    | some (block, txs) =>
      match f.storage.storeBlockWithTransactions faults block txs with
      | (false, storage) => (.ok false, { f with storage })
      | (true, storage) =>
        let f : BlockFinalizer F :=
          { storage
            finalizedEpochs := insert epoch f.finalizedEpochs
            pendingBlocks := f.pendingBlocks.erase epoch }
        match storage.state.setCurrentEpoch fault epoch with
        | .error e => (.error e, f)
        | .ok state => (.ok true, { f with storage := { storage with state } })

/-- A finalizer on empty storage with these blocks queued. -/
def queued (blocks : List (ConsensusBlock F × List Transaction)) : BlockFinalizer F :=
  blocks.foldl (fun f p => f.queueForFinalization p.1 p.2) {}

/-- `finalize` without failing statements. -/
def applyFinalize (epoch : ℤ) (f : BlockFinalizer F) : BlockFinalizer F :=
  (f.finalize noFaults false epoch).2

/-- The stored epochs after one more call: a writable block is stored at its first call. -/
def nextDone (blocks : OrderedDict ℤ (ConsensusBlock F × List Transaction)) (done : List ℤ)
    (e : ℤ) : List ℤ :=
  if (∃ p ∈ blocks.get? e, Writable p) ∧ e ∉ done then done ++ [e] else done

/-- The epochs of the writable blocks, in the order in which they are first finalized. -/
def storedOrder (blocks : OrderedDict ℤ (ConsensusBlock F × List Transaction))
    (epochs : List ℤ) : List ℤ :=
  epochs.foldl (nextDone blocks) []

end BlockFinalizer

/-- Every stored block names the hash of the stored block with the greatest smaller epoch, and
zeros when there is none. -/
def BlockStore.ChainLinked (s : BlockStore) : Prop :=
  ∀ e b, s.getBlock e = .ok (some b) →
    b.prevHash = tip (fun p => ((s.blockAt p).map StoredBlock.blockHash).getD [])
      (List.replicate 32 0) (s.blocks.keys.filter (· < e))

namespace BlockFinalizer

variable {F : Type} [PyFloat F]

/-- A call does nothing, or hands its block to the storage and may then drop it. -/
theorem applyFinalize_cases (e : ℤ) (f : BlockFinalizer F) :
    ((e ∈ f.finalizedEpochs ∨ f.pendingBlocks.get? e = none) ∧ applyFinalize e f = f) ∨
    ∃ p, e ∉ f.finalizedEpochs ∧ f.pendingBlocks.get? e = some p ∧
      (applyFinalize e f).storage.blocks = blocksAfter f.storage p ∧
      (((applyFinalize e f).finalizedEpochs = f.finalizedEpochs ∧
        (applyFinalize e f).pendingBlocks = f.pendingBlocks) ∨
       ((applyFinalize e f).finalizedEpochs = insert e f.finalizedEpochs ∧
        (applyFinalize e f).pendingBlocks = f.pendingBlocks.erase e)) := by
  by_cases hfin : e ∈ f.finalizedEpochs
  · exact Or.inl ⟨Or.inl hfin, by rw [applyFinalize, finalize, if_pos hfin]⟩
  · cases hp : f.pendingBlocks.get? e with
    | none => exact Or.inl ⟨Or.inr rfl, by simp only [applyFinalize, finalize, if_neg hfin, hp]⟩
    | some p =>
      obtain ⟨block, txs⟩ := p
      refine Or.inr ⟨(block, txs), hfin, rfl, ?_⟩
      simp only [applyFinalize, finalize, if_neg hfin, hp, blocksAfter]
      rcases hstore : f.storage.storeBlockWithTransactions noFaults block txs with ⟨ok, storage⟩
      cases ok with
      | false => exact ⟨rfl, Or.inl ⟨rfl, rfl⟩⟩
      | true =>
        dsimp only
        cases storage.state.setCurrentEpoch false e with
        | error err => exact ⟨rfl, Or.inr ⟨rfl, rfl⟩⟩
        | ok state => exact ⟨rfl, Or.inr ⟨rfl, rfl⟩⟩

/-- Queued blocks stand under their own epochs, with hashes that are there and differ. -/
structure Distinct (blocks : OrderedDict ℤ (ConsensusBlock F × List Transaction)) : Prop where
  epoch : ∀ e p, blocks.get? e = some p → p.1.epoch = e
  hash : ∀ e e' p p', blocks.get? e = some p → blocks.get? e' = some p' →
    p.1.blockHash = p'.1.blockHash → e = e'
  hashed : ∀ e p, blocks.get? e = some p → p.1.blockHash ≠ []

/-- The hash of the queued block of an epoch. -/
def hashOf (blocks : OrderedDict ℤ (ConsensusBlock F × List Transaction)) (e : ℤ) : Bytes :=
  ((blocks.get? e).map fun p => p.1.blockHash).getD []

/-- The store holds the queued blocks of `done`, inserted in this order. -/
structure StoredAs (blocks : OrderedDict ℤ (ConsensusBlock F × List Transaction))
    (done : List ℤ) (s : BlockStore) : Prop where
  nodup : done.Nodup
  fits : ∀ e ∈ done, FitsSql e
  keys : ∀ e, e ∈ s.blocks.keys ↔ e ∈ done
  stored : ∀ pre e post, done = pre ++ e :: post →
    ∃ b p, s.blockAt e = some b ∧ blocks.get? e = some p ∧
      b.blockHash = p.1.blockHash ∧ b.prevHash = tip (hashOf blocks) (List.replicate 32 0) pre

variable {blocks : OrderedDict ℤ (ConsensusBlock F × List Transaction)} {done : List ℤ}

omit [PyFloat F] in
theorem hashOf_eq {e : ℤ} {p : ConsensusBlock F × List Transaction} (h : blocks.get? e = some p) :
    hashOf blocks e = p.1.blockHash := by
  rw [hashOf, h, Option.map_some, Option.getD_some]

namespace StoredAs

omit [PyFloat F] in
theorem of_mem {s : BlockStore} (h : StoredAs blocks done s) {e : ℤ} (he : e ∈ done) :
    ∃ b p, s.blockAt e = some b ∧ blocks.get? e = some p ∧ b.blockHash = p.1.blockHash := by
  obtain ⟨pre, post, hsplit⟩ := List.append_of_mem he
  obtain ⟨b, p, hb, hp, hhash, -⟩ := h.stored pre e post hsplit
  exact ⟨b, p, hb, hp, hhash⟩

theorem prevHash_linkedBlock {m : StorageManager} (h : StoredAs blocks done m.blocks)
    (hd : Distinct blocks) (block : ConsensusBlock F) (hashes : List Bytes) :
    (m.linkedBlock block hashes).prevHash = tip (hashOf blocks) (List.replicate 32 0) done := by
  rw [← tip_congr (hashOf blocks) (List.replicate 32 0) h.keys, tip, StorageManager.linkedBlock,
    BlockStore.getLatestBlock, BlockStore.maxEpoch]
  cases hmax : m.blocks.blocks.keys.max? with
  | none => rfl
  | some k =>
    have hk : k ∈ done := (h.keys k).mp (List.max?_eq_some_iff.mp hmax).1
    obtain ⟨b, p, hb, hp, hhash⟩ := h.of_mem hk
    rw [Option.bind_some, hb, Option.map_some, StoredBlock.fromConsensusBlock]
    · dsimp only
      rw [hashOf_eq hp, ← hhash]
    · exact fun hempty => hd.hashed k p hp (hhash.symm.trans hempty)

omit [PyFloat F] in
theorem fresh {s : BlockStore} (h : StoredAs blocks done s) (hd : Distinct blocks) {e : ℤ}
    {p : ConsensusBlock F × List Transaction} (hp : blocks.get? e = some p) (he : e ∉ done) :
    p.1.blockHash ∉ s.hashes := by
  rw [BlockStore.mem_hashes_iff_blockAt]
  rintro ⟨e', b', hb', hhash'⟩
  have hmem : e' ∈ done := (h.keys e').mp ((s.mem_keys_iff_blockAt e').mpr ⟨b', hb'⟩)
  obtain ⟨b, p', hb, hp', hhash⟩ := h.of_mem hmem
  obtain rfl := Option.some.inj (hb.symm.trans hb')
  obtain rfl := hd.hash e e' p p' hp hp' (hhash'.symm.trans hhash)
  exact he hmem

omit [PyFloat F] in
theorem replace {s s' : BlockStore} (h : StoredAs blocks done s) {e : ℤ} (he : e ∈ done)
    {block : StoredBlock}
    (hat : ∀ e', s'.blockAt e' =
      if e' = e then some (BlockStore.merge block (s.blockAt e')) else s.blockAt e') :
    StoredAs blocks done s' where
  nodup := h.nodup
  fits := h.fits
  keys e' := by
    rw [← h.keys e', s'.mem_keys_iff_blockAt, s.mem_keys_iff_blockAt, hat]
    split_ifs with heq
    · subst heq
      obtain ⟨b, -, hb, -⟩ := h.of_mem he
      simp [hb]
    · exact Iff.rfl
  stored pre e' post hsplit := by
    obtain ⟨b, p, hb, hp, hhash, hprev⟩ := h.stored pre e' post hsplit
    rw [hat, hb]
    split_ifs
    · exact ⟨_, p, rfl, hp, hhash, hprev⟩
    · exact ⟨b, p, rfl, hp, hhash, hprev⟩

omit [PyFloat F] in
theorem append {s s' : BlockStore} (h : StoredAs blocks done s) {e : ℤ} (he : e ∉ done)
    (hfits : FitsSql e) {p : ConsensusBlock F × List Transaction} (hp : blocks.get? e = some p)
    {b : StoredBlock} (hat : ∀ e', s'.blockAt e' = if e' = e then some b else s.blockAt e')
    (hhash : b.blockHash = p.1.blockHash)
    (hprev : b.prevHash = tip (hashOf blocks) (List.replicate 32 0) done) :
    StoredAs blocks (done ++ [e]) s' where
  nodup := List.nodup_append.mpr ⟨h.nodup, List.nodup_singleton e, fun x hx y hy hxy =>
    he (List.mem_singleton.mp hy ▸ hxy ▸ hx)⟩
  fits x hx := by
    rcases List.mem_append.mp hx with hx | hx
    · exact h.fits x hx
    · rwa [List.mem_singleton.mp hx]
  keys e' := by
    rw [s'.mem_keys_iff_blockAt, hat, List.mem_append, List.mem_singleton, ← h.keys e',
      s.mem_keys_iff_blockAt]
    split_ifs with heq
    · simp [heq]
    · simp [heq]
  stored pre e' post hsplit := by
    rcases post.eq_nil_or_concat with rfl | ⟨post, x, rfl⟩
    · obtain ⟨rfl, hlast⟩ := List.append_inj' hsplit rfl
      obtain rfl := List.singleton_inj.mp hlast
      exact ⟨b, p, by rw [hat, if_pos rfl], hp, hhash, hprev⟩
    · rw [List.concat_eq_append, ← List.cons_append, ← List.append_assoc] at hsplit
      obtain ⟨hdone, -⟩ := List.append_inj' hsplit rfl
      obtain ⟨b', p', hb', hrest⟩ := h.stored pre e' post hdone
      have hne : e' ≠ e := by
        rintro rfl
        exact he (by rw [hdone]; simp)
      exact ⟨b', p', by rw [hat, if_neg hne, hb'], hrest⟩

theorem blocksAfter {m : StorageManager} (h : StoredAs blocks done m.blocks)
    (hd : Distinct blocks) {e : ℤ} {p : ConsensusBlock F × List Transaction}
    (hp : blocks.get? e = some p) :
    StoredAs blocks (nextDone blocks done e) (StorageManager.blocksAfter m p) := by
  have hepoch := hd.epoch e p hp
  by_cases hw : Writable p
  · have hfresh : p.1.epoch ∉ m.blocks.blocks.keys → p.1.blockHash ∉ m.blocks.hashes := by
      intro hk
      exact h.fresh hd hp (fun he => hk (hepoch.symm ▸ (h.keys e).mpr he))
    obtain ⟨hashes, -, hat⟩ := blockAt_blocksAfter hw hfresh
    rw [hepoch] at hat
    by_cases he : e ∈ done
    · rw [nextDone, if_neg fun hc => hc.2 he]
      exact h.replace he hat
    · have hnone : m.blocks.blockAt e = none :=
        (m.blocks.blockAt_eq_none_iff e).mpr fun hk => he ((h.keys e).mp hk)
      have hat' : ∀ e', (StorageManager.blocksAfter m p).blockAt e' =
          if e' = e then some (m.linkedBlock p.1 hashes) else m.blocks.blockAt e' := by
        intro e'
        rw [hat]
        split_ifs with heq
        · rw [heq, hnone, BlockStore.merge]
        · rfl
      rw [nextDone, if_pos ⟨⟨p, hp, hw⟩, he⟩]
      exact h.append he (hepoch ▸ hw.2.1) hp hat' rfl (h.prevHash_linkedBlock hd p.1 hashes)
  · have hskip : ¬ ((∃ p ∈ blocks.get? e, Writable p) ∧ e ∉ done) := by
      rintro ⟨⟨p', hp', hw'⟩, -⟩
      obtain rfl := Option.some.inj (hp.symm.trans hp')
      exact hw hw'
    rw [blocksAfter_of_not_writable hw, nextDone, if_neg hskip]
    exact h

omit [PyFloat F] in
/-- The stored blocks form a chain exactly when they were inserted by increasing epoch. -/
theorem chainLinked_iff {s : BlockStore} (h : StoredAs blocks done s) (hd : Distinct blocks) :
    s.ChainLinked ↔ done.Pairwise (· < ·) := by
  have hinj : ∀ a ∈ done, ∀ b ∈ done, hashOf blocks a = hashOf blocks b → a = b := by
    intro a ha b hb hab
    obtain ⟨-, p, -, hp, -⟩ := h.of_mem ha
    obtain ⟨-, q, -, hq, -⟩ := h.of_mem hb
    rw [hashOf_eq hp, hashOf_eq hq] at hab
    exact hd.hash a b p q hp hq hab
  have htip : ∀ e, tip (fun p => ((s.blockAt p).map StoredBlock.blockHash).getD [])
      (List.replicate 32 0) (s.blocks.keys.filter (· < e)) =
      tip (hashOf blocks) (List.replicate 32 0) (done.filter (· < e)) := by
    intro e
    have hkeys : ∀ k, k ∈ s.blocks.keys.filter (· < e) ↔ k ∈ done.filter (· < e) := by
      simp [h.keys]
    rw [tip_congr _ _ hkeys]
    apply tip_congr_hash
    intro k hk
    obtain ⟨b, p, hb, hp, hhash⟩ := h.of_mem (List.mem_filter.mp hk).1
    rw [hb, hashOf_eq hp, ← hhash, Option.map_some, Option.getD_some]
  rw [← linked_iff_sorted h.nodup hinj]
  constructor
  · intro hchain pre e post hsplit
    obtain ⟨b, p, hb, -, -, hprev⟩ := h.stored pre e post hsplit
    have hfits : FitsSql e := h.fits e (by rw [hsplit]; simp)
    rw [← htip, ← hchain e b ((s.getBlock_eq_ok).mpr ⟨hfits, hb⟩), hprev]
  · intro hlinked e b hget
    obtain ⟨-, hb⟩ := (s.getBlock_eq_ok).mp hget
    have he : e ∈ done := (h.keys e).mp ((s.mem_keys_iff_blockAt e).mpr ⟨b, hb⟩)
    obtain ⟨pre, post, hsplit⟩ := List.append_of_mem he
    obtain ⟨b', -, hb', -, -, hprev⟩ := h.stored pre e post hsplit
    obtain rfl := Option.some.inj (hb.symm.trans hb')
    rw [htip, hprev, hlinked pre e post hsplit]

end StoredAs

/-- A finalizer that has stored the blocks of `done` and still holds those it has not finished. -/
structure Recorded (blocks : OrderedDict ℤ (ConsensusBlock F × List Transaction))
    (done : List ℤ) (f : BlockFinalizer F) : Prop where
  pending : ∀ e, f.pendingBlocks.get? e = if e ∈ f.finalizedEpochs then none else blocks.get? e
  finalized : ∀ e ∈ f.finalizedEpochs, (∃ p ∈ blocks.get? e, Writable p) → e ∈ done
  chain : StoredAs blocks done f.storage.blocks

theorem Recorded.step {f : BlockFinalizer F} (h : Recorded blocks done f) (hd : Distinct blocks)
    (e : ℤ) : Recorded blocks (nextDone blocks done e) (applyFinalize e f) := by
  have hmono : ∀ x ∈ done, x ∈ nextDone blocks done e := by
    intro x hx
    unfold nextDone
    split_ifs
    · exact List.mem_append_left _ hx
    · exact hx
  have hself : (∃ p ∈ blocks.get? e, Writable p) → e ∈ nextDone blocks done e := by
    intro hw
    unfold nextDone
    split_ifs with hc
    · simp
    · by_contra he
      exact hc ⟨hw, he⟩
  rcases applyFinalize_cases e f with ⟨hskip, happ⟩ | ⟨p, hfin, hp, hblocks, hrest⟩
  · have hsame : nextDone blocks done e = done := by
      apply if_neg
      rintro ⟨hw, he⟩
      rcases hskip with hfin | hnone
      · exact he (h.finalized e hfin hw)
      · by_cases hfin : e ∈ f.finalizedEpochs
        · exact he (h.finalized e hfin hw)
        · rw [h.pending, if_neg hfin] at hnone
          obtain ⟨p, hp, -⟩ := hw
          rw [hnone] at hp
          cases hp
    rw [happ, hsame]
    exact h
  · rw [h.pending, if_neg hfin] at hp
    have hchain := h.chain.blocksAfter hd hp
    rw [← hblocks] at hchain
    rcases hrest with ⟨hepochs, hpending⟩ | ⟨hepochs, hpending⟩
    · refine ⟨?_, ?_, hchain⟩
      · rw [hepochs, hpending]
        exact h.pending
      · rw [hepochs]
        exact fun x hx hw => hmono x (h.finalized x hx hw)
    · refine ⟨?_, ?_, hchain⟩
      · intro x
        rw [hepochs, hpending, OrderedDict.get?_erase, h.pending]
        by_cases hx : x = e
        · simp [hx]
        · simp [hx]
      · intro x hx hw
        rw [hepochs, Finset.mem_insert] at hx
        rcases hx with rfl | hx
        · exact hself hw
        · exact hmono x (h.finalized x hx hw)

omit [PyFloat F] in
theorem get?_queued {l : List (ConsensusBlock F × List Transaction)} {e : ℤ}
    {p : ConsensusBlock F × List Transaction}
    (h : (queued l).pendingBlocks.get? e = some p) : p ∈ l ∧ p.1.epoch = e := by
  induction l using List.reverseRecOn with
  | nil => cases h
  | append_singleton l q ih =>
    rw [queued, List.foldl_append] at h
    rcases OrderedDict.get?_set_eq_some.mp h with ⟨rfl, rfl⟩ | ⟨-, h⟩
    · exact ⟨by simp, rfl⟩
    · exact ⟨List.mem_append_left _ (ih h).1, (ih h).2⟩

omit [PyFloat F] in
theorem storage_queued (l : List (ConsensusBlock F × List Transaction)) :
    (queued l).storage = ∅ ∧ (queued l).finalizedEpochs = ∅ := by
  induction l using List.reverseRecOn with
  | nil => exact ⟨rfl, rfl⟩
  | append_singleton l q ih =>
    rw [queued, List.foldl_append]
    exact ih

theorem distinct_queued {l : List (ConsensusBlock F × List Transaction)}
    (hsealed : ∀ p ∈ l, ∃ b : ConsensusBlock F, b.postInit = .ok p.1)
    (hhash : (l.map fun p => p.1.blockHash).Nodup) : Distinct (queued l).pendingBlocks where
  epoch e p hp := (get?_queued hp).2
  hash e e' p p' hp hp' heq := by
    obtain ⟨hmem, rfl⟩ := get?_queued hp
    obtain ⟨hmem', rfl⟩ := get?_queued hp'
    rw [List.inj_on_of_nodup_map hhash hmem hmem' heq]
  hashed e p hp := by
    obtain ⟨b, hb⟩ := hsealed p (get?_queued hp).1
    obtain ⟨data, -, hpost⟩ := (ConsensusBlock.postInit_eq_ok b).mp hb
    intro hnil
    have hlen := Keccak.length_sha3_256 data
    rw [hpost] at hnil
    rw [show Keccak.sha3_256 data = [] from hnil] at hlen
    cases hlen

/-- After any calls the store holds the writable blocks in the order of their first calls. -/
theorem recorded_runs {l : List (ConsensusBlock F × List Transaction)}
    (hd : Distinct (queued l).pendingBlocks) (epochs : List ℤ) :
    Recorded (queued l).pendingBlocks (storedOrder (queued l).pendingBlocks epochs)
      (runs applyFinalize epochs (queued l)) := by
  induction epochs using List.reverseRecOn with
  | nil =>
    obtain ⟨hs, hf⟩ := storage_queued l
    refine ⟨fun e => by simp [hf], fun e he => by simp [hf] at he, ?_⟩
    rw [runs_nil, hs]
    exact ⟨List.nodup_nil, by simp [storedOrder], fun _ => Iff.rfl, by simp [storedOrder]⟩
  | append_singleton epochs e ih =>
    rw [runs_append_singleton, storedOrder, List.foldl_append]
    exact ih.step hd e

/-- The stored blocks form a chain exactly when the blocks that can be stored are first finalized
in the order of their epochs. -/
theorem chainLinked_finalized_iff (l : List (ConsensusBlock F × List Transaction))
    (hsealed : ∀ p ∈ l, ∃ b : ConsensusBlock F, b.postInit = .ok p.1)
    (hhash : (l.map fun p => p.1.blockHash).Nodup) (epochs : List ℤ) :
    (runs applyFinalize epochs (queued l)).storage.blocks.ChainLinked ↔
      (storedOrder (queued l).pendingBlocks epochs).Pairwise (· < ·) := by
  have hd := distinct_queued hsealed hhash
  exact (recorded_runs hd epochs).chain.chainLinked_iff hd

def firstBlocks : List (ConsensusBlock ℚ × List Transaction) :=
  [(sealedBlock 0, []), (sealedBlock 1, [])]

theorem firstBlocks_sealed :
    ∀ p ∈ firstBlocks, ∃ b : ConsensusBlock ℚ, b.postInit = .ok p.1 := by
  intro p hp
  simp only [firstBlocks, List.mem_cons, List.not_mem_nil, or_false] at hp
  rcases hp with rfl | rfl
  · exact ⟨_, sealedBlock_postInit (by decide)⟩
  · exact ⟨_, sealedBlock_postInit (by decide)⟩

theorem firstBlocks_distinct : (firstBlocks.map fun p => p.1.blockHash).Nodup := by
  decide +kernel

theorem firstBlocks_chain :
    (runs applyFinalize [0, 1] (queued firstBlocks)).storage.blocks.ChainLinked := by
  apply (chainLinked_finalized_iff firstBlocks firstBlocks_sealed firstBlocks_distinct [0, 1]).mpr
  decide +kernel

/-- In the other order they do not. -/
theorem firstBlocks_no_chain :
    ¬ (runs applyFinalize [1, 0] (queued firstBlocks)).storage.blocks.ChainLinked := by
  have hd := distinct_queued firstBlocks_sealed firstBlocks_distinct
  rw [(recorded_runs hd [1, 0]).chain.chainLinked_iff hd]
  decide +kernel

end BlockFinalizer

end Qrtb
