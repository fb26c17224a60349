import Qrtb.Storage.Immutability
import Qrtb.Lib.SortedTable

/-!
# The block store as one archive (`src/storage.py`)

Whatever is stored, the two tables hold one list of blocks in ascending order of their
epochs. Storing puts a block at its place or overwrites hashes of the block that stands
there, and every way of reading the store is a way of reading this list.
-/

namespace Qrtb

open Transition SortedTable

namespace BlockStore

variable (s : BlockStore)

/-- The hash is looked up first, and then the block of its epoch. -/
def getBlockByHash (blockHash : Bytes) : Option StoredBlock :=
  (s.blocks.items.find? fun p => p.2.blockHash = blockHash).bind fun p => s.blockAt p.1

/-- The blocks of the epochs in the range, in the order of their epochs. -/
def getBlockRange (startEpoch endEpoch : ℤ) : Except PyError (List StoredBlock) := do
  let first ← sqlInt startEpoch
  let last ← sqlInt endEpoch
  let epochs := s.blocks.keys.filter fun epoch => first ≤ epoch ∧ epoch ≤ last
  return (epochs.insertionSort (· ≤ ·)).filterMap s.blockAt

def hasBlock (epoch : ℤ) : Except PyError Bool := do
  return s.blocks.contains (← sqlInt epoch)

end BlockStore

abbrev Archive := List StoredBlock

namespace Archive

/-- The call goes through: everything fits, and a new epoch comes with a new hash. -/
def Admits (call : BlockStore.StoreCall) (archive : Archive) : Prop :=
  (call.fault = false ∧ FitsSql call.block.epoch ∧ FitsSql call.block.timestamp ∧
    FitsSql call.block.transactions.length) ∧
  ((∃ b ∈ archive, b.epoch = call.block.epoch) ∨ ∀ b ∈ archive, b.blockHash ≠ call.block.blockHash)

instance (call : BlockStore.StoreCall) (archive : Archive) : Decidable (archive.Admits call) :=
  inferInstanceAs (Decidable (_ ∧ _))

/-- An old block keeps everything but its first hashes. -/
def overwrite (block old : StoredBlock) : StoredBlock :=
  { old with
    transactions := block.transactions ++ old.transactions.drop block.transactions.length }

theorem epoch_overwrite (block old : StoredBlock) : (overwrite block old).epoch = old.epoch := rfl

def store (call : BlockStore.StoreCall) (archive : Archive) : Bool × Archive :=
  if archive.Admits call then (true, put StoredBlock.epoch overwrite call.block archive)
  else (false, archive)

end Archive

namespace BlockStore

/-- The archive a store holds. -/
structure Represents (s : BlockStore) (archive : Archive) : Prop where
  ascending : Ascending StoredBlock.epoch archive
  blocks : ∀ epoch, s.blockAt epoch = lookup StoredBlock.epoch epoch archive

namespace Represents

variable {s : BlockStore} {archive : Archive}

theorem mem_iff (h : s.Represents archive) (b : StoredBlock) :
    b ∈ archive ↔ s.blockAt b.epoch = some b := by
  rw [h.blocks, h.ascending.lookup_eq_some_iff]
  exact (and_iff_left rfl).symm

theorem epoch_of_blockAt (h : s.Represents archive) {epoch : ℤ} {b : StoredBlock}
    (hb : s.blockAt epoch = some b) : b ∈ archive ∧ b.epoch = epoch := by
  rw [h.blocks] at hb
  exact h.ascending.lookup_eq_some_iff.mp hb

theorem mem_keys_iff (h : s.Represents archive) (epoch : ℤ) :
    epoch ∈ s.blocks.keys ↔ ∃ b ∈ archive, b.epoch = epoch := by
  rw [mem_keys_iff_blockAt]
  simp only [h.blocks, h.ascending.lookup_eq_some_iff]

theorem contains (h : s.Represents archive) (epoch : ℤ) :
    s.blocks.contains epoch = archive.any fun b => b.epoch = epoch := by
  rw [Bool.eq_iff_iff, List.any_eq_true, OrderedDict.contains, Option.isSome_iff_exists,
    ← OrderedDict.mem_keys_iff, h.mem_keys_iff]
  simp only [decide_eq_true_iff]

theorem mem_hashes_iff (h : s.Represents archive) (blockHash : Bytes) :
    blockHash ∈ s.hashes ↔ ∃ b ∈ archive, b.blockHash = blockHash := by
  rw [mem_hashes_iff_blockAt]
  constructor
  · rintro ⟨epoch, b, hb, hhash⟩
    exact ⟨b, (h.epoch_of_blockAt hb).1, hhash⟩
  · rintro ⟨b, hb, hhash⟩
    exact ⟨b.epoch, b, (h.mem_iff b).mp hb, hhash⟩

theorem empty : (∅ : BlockStore).Represents [] := ⟨List.Pairwise.nil, fun _ => rfl⟩

theorem lands_iff (h : s.Represents archive) (call : StoreCall) :
    s.Lands call.fault call.block ↔ archive.Admits call := by
  have hfresh : (call.block.epoch ∉ s.blocks.keys → call.block.blockHash ∉ s.hashes) ↔
      (∃ b ∈ archive, b.epoch = call.block.epoch) ∨
        ∀ b ∈ archive, b.blockHash ≠ call.block.blockHash := by
    rw [h.mem_keys_iff, h.mem_hashes_iff, ← or_iff_not_imp_left, not_exists]
    simp only [not_and, ne_eq]
  constructor
  · intro hl
    exact ⟨⟨hl.noFault, hl.epoch, hl.timestamp, hl.txCount⟩, hfresh.mp hl.freshHash⟩
  · rintro ⟨⟨hfault, hepoch, htimestamp, hcount⟩, hnew⟩
    exact ⟨hfault, hepoch, htimestamp, hcount, hfresh.mpr hnew⟩

theorem store (h : s.Represents archive) (call : StoreCall) :
    (s.storeBlock call.fault call.block).1 = (archive.store call).1 ∧
      (apply call s).Represents (archive.store call).2 := by
  rw [Archive.store]
  split_ifs with hadmits
  · obtain ⟨hreturns, hblocks⟩ := s.storeBlock_of_lands ((h.lands_iff call).mpr hadmits)
    refine ⟨hreturns, h.ascending.put Archive.epoch_overwrite _, fun epoch => ?_⟩
    rw [apply, hblocks, h.ascending.lookup_put Archive.epoch_overwrite, h.blocks]
    split_ifs
    · cases lookup StoredBlock.epoch epoch archive <;> rfl
    · rfl
  · have hnot := s.storeBlock_of_not_lands (mt (h.lands_iff call).mp hadmits)
    rw [apply, hnot]
    exact ⟨rfl, h⟩

theorem runs (calls : List StoreCall) : (Transition.runs apply calls ∅).Represents
    (Transition.runs (fun call archive => (Archive.store call archive).2) calls []) := by
  induction calls using List.reverseRecOn with
  | nil => exact empty
  | append_singleton calls call ih =>
    rw [runs_append_singleton, runs_append_singleton]
    exact (ih.store call).2

theorem getBlockByHash (h : s.Represents archive) (blockHash : Bytes) :
    s.getBlockByHash blockHash = archive.find? fun b => b.blockHash = blockHash := by
  have hunique : ∀ b ∈ archive, ∀ b' ∈ archive, b.blockHash = b'.blockHash → b = b' := by
    intro b hb b' hb' hhash
    obtain ⟨r, hr, hrb⟩ := Option.map_eq_some_iff.mp ((h.mem_iff b).mp hb)
    obtain ⟨r', hr', hrb'⟩ := Option.map_eq_some_iff.mp ((h.mem_iff b').mp hb')
    have hsame : r.blockHash = r'.blockHash := by
      rw [← hrb, ← hrb'] at hhash
      exact hhash
    exact h.ascending.eq_of_key_eq hb hb' (s.uniqueHash _ _ r r' hr hr' hsame)
  rw [BlockStore.getBlockByHash]
  cases hfind : s.blocks.items.find? fun p => decide (p.2.blockHash = blockHash) with
  | none =>
    rw [Option.bind_none, eq_comm, List.find?_eq_none]
    intro b hb hhash
    obtain ⟨r, hr, hrb⟩ := Option.map_eq_some_iff.mp ((h.mem_iff b).mp hb)
    have hnone := List.find?_eq_none.mp hfind (b.epoch, r)
      ((OrderedDict.mem_items_iff _ _ _).mpr hr)
    rw [decide_eq_true_iff] at hnone hhash
    rw [← hrb] at hhash
    exact hnone hhash
  | some p =>
    obtain ⟨epoch, row⟩ := p
    have hrow := (OrderedDict.mem_items_iff _ _ _).mp (List.mem_of_find?_eq_some hfind)
    have hhash : row.blockHash = blockHash := by simpa using List.find?_some hfind
    obtain ⟨b, hb⟩ : ∃ b, s.blockAt epoch = some b ∧ b.blockHash = blockHash :=
      ⟨_, by rw [blockAt, hrow]; rfl, hhash⟩
    rw [Option.bind_some, hb.1, eq_comm]
    obtain ⟨hmem, -⟩ := h.epoch_of_blockAt hb.1
    cases harchive : archive.find? fun b => decide (b.blockHash = blockHash) with
    | none =>
      have hnone := List.find?_eq_none.mp harchive b hmem
      rw [decide_eq_true_iff] at hnone
      exact absurd hb.2 hnone
    | some b' =>
      have hhash' : b'.blockHash = blockHash := by simpa using List.find?_some harchive
      rw [hunique b' (List.mem_of_find?_eq_some harchive) b hmem (hhash'.trans hb.2.symm)]

theorem maxEpoch (h : s.Represents archive) :
    s.maxEpoch = archive.getLast?.map StoredBlock.epoch := by
  rw [BlockStore.maxEpoch]
  cases hlast : archive.getLast? with
  | none =>
    rw [Option.map_none, List.max?_eq_none_iff]
    rw [List.getLast?_eq_none_iff] at hlast
    refine List.eq_nil_iff_forall_not_mem.mpr fun epoch hepoch => ?_
    obtain ⟨b, hb, -⟩ := (h.mem_keys_iff epoch).mp hepoch
    rw [hlast] at hb
    cases hb
  | some last =>
    rw [Option.map_some, List.max?_eq_some_iff]
    refine ⟨(h.mem_keys_iff _).mpr ⟨last, List.mem_of_getLast? hlast, rfl⟩, fun epoch hepoch => ?_⟩
    obtain ⟨b, hb, rfl⟩ := (h.mem_keys_iff epoch).mp hepoch
    exact h.ascending.key_le_getLast hlast b hb

theorem getLatestBlock (h : s.Represents archive) : s.getLatestBlock = archive.getLast? := by
  rw [BlockStore.getLatestBlock, h.maxEpoch]
  cases hlast : archive.getLast? with
  | none => rfl
  | some last => exact (h.mem_iff last).mp (List.mem_of_getLast? hlast)

theorem epochs_between (h : s.Represents archive) (first last : ℤ) :
    (s.blocks.keys.filter fun epoch => first ≤ epoch ∧ epoch ≤ last).insertionSort (· ≤ ·) =
      (archive.filter fun b => first ≤ b.epoch ∧ b.epoch ≤ last).map StoredBlock.epoch := by
  refine Ascending.eq_map_key (h.ascending.filter _) ?_ fun epoch => ?_
  · have hsorted := List.pairwise_insertionSort (· ≤ ·)
      (s.blocks.keys.filter fun epoch => first ≤ epoch ∧ epoch ≤ last)
    have hnodup := ((List.perm_insertionSort (· ≤ ·)
      (s.blocks.keys.filter fun epoch => first ≤ epoch ∧ epoch ≤ last)).nodup_iff).mpr
        (s.blocks.nodup.filter _)
    exact hsorted.and hnodup |>.imp fun hpair => lt_of_le_of_ne hpair.1 hpair.2
  · rw [List.mem_insertionSort, List.mem_filter, h.mem_keys_iff]
    simp only [List.mem_filter, decide_eq_true_iff]
    constructor
    · rintro ⟨⟨b, hb, rfl⟩, hrange⟩
      exact ⟨b, ⟨hb, hrange⟩, rfl⟩
    · rintro ⟨b, ⟨hb, hrange⟩, rfl⟩
      exact ⟨⟨b, hb, rfl⟩, hrange⟩

theorem blocks_between (h : s.Represents archive) (first last : ℤ) :
    ((s.blocks.keys.filter fun epoch => first ≤ epoch ∧ epoch ≤ last).insertionSort
      (· ≤ ·)).filterMap s.blockAt =
        archive.filter fun b => first ≤ b.epoch ∧ b.epoch ≤ last := by
  rw [h.epochs_between, List.filterMap_map]
  have hblocks : ∀ bs : List StoredBlock, (∀ b ∈ bs, b ∈ archive) →
      bs.filterMap (s.blockAt ∘ StoredBlock.epoch) = bs := by
    intro bs
    induction bs with
    | nil => exact fun _ => rfl
    | cons b rest ih =>
      intro hmem
      have hb : (s.blockAt ∘ StoredBlock.epoch) b = some b :=
        (h.mem_iff b).mp (hmem b List.mem_cons_self)
      rw [List.filterMap_cons_some hb, ih fun c hc => hmem c (List.mem_cons_of_mem _ hc)]
  exact hblocks _ fun b hb => List.mem_of_mem_filter hb

end Represents

/-- After any calls of `store_block`, each of which may fail, the store holds the blocks of an
archive in ascending order of their epochs that the same calls have built, the next call returns
what it does to the archive, and every way of reading the store reads the archive. -/
theorem store_refines_archive (calls : List StoreCall) :
    let s := runs apply calls ∅
    let archive := runs (fun call archive => (Archive.store call archive).2) calls []
    Ascending StoredBlock.epoch archive ∧
      (∀ call, (s.storeBlock call.fault call.block).1 = (archive.store call).1) ∧
      (∀ epoch, s.getBlock epoch = (do
        let key ← sqlInt epoch
        return archive.find? fun b => b.epoch = key)) ∧
      (∀ epoch, s.hasBlock epoch = (do
        let key ← sqlInt epoch
        return archive.any fun b => b.epoch = key)) ∧
      (∀ blockHash, s.getBlockByHash blockHash =
        archive.find? fun b => b.blockHash = blockHash) ∧
      s.getLatestBlock = archive.getLast? ∧
      s.getChainHeight = (archive.getLast?.map StoredBlock.epoch).getD (-1) ∧
      ∀ startEpoch endEpoch, s.getBlockRange startEpoch endEpoch = (do
        let first ← sqlInt startEpoch
        let last ← sqlInt endEpoch
        return archive.filter fun b => first ≤ b.epoch ∧ b.epoch ≤ last) := by
  intro s archive
  have h : s.Represents archive := Represents.runs calls
  refine ⟨h.ascending, fun call => (h.store call).1, fun epoch => ?_, fun epoch => ?_,
    h.getBlockByHash, h.getLatestBlock, ?_, fun startEpoch endEpoch => ?_⟩
  · rw [getBlock]
    congr 1
    funext e
    rw [h.blocks]
    rfl
  · rw [hasBlock]
    congr 1
    funext e
    rw [h.contains]
  · rw [getChainHeight, h.maxEpoch]
  · rw [getBlockRange]
    congr 1
    funext first
    congr 1
    funext last
    exact congrArg pure (h.blocks_between first last)

end BlockStore

end Qrtb
