import Qrtb.Consensus.Proposal
import Qrtb.Lib.IndexedTable
import Qrtb.Lib.Transition

/-!
# The block store (`src/storage.py`)

A block is stored as a header row under its epoch and one numbered row for each
transaction hash. The header is inserted unless the epoch is taken; the hash
rows are replaced either way. `store_block` is one SQL transaction: when a
statement raises, it is rolled back and the call returns `False`.
-/

namespace Qrtb

open PyFloat

def FitsSql (n : ℤ) : Prop := -2 ^ 63 ≤ n ∧ n < 2 ^ 63

instance (n : ℤ) : Decidable (FitsSql n) := inferInstanceAs (Decidable (_ ∧ _))

/-- Binding an integer to a statement parameter. -/
def sqlInt (n : ℤ) : Except PyError ℤ :=
  if FitsSql n then .ok n else .error .overflowError

@[simp] theorem sqlInt_eq_ok {n m : ℤ} : sqlInt n = .ok m ↔ FitsSql n ∧ m = n := by
  unfold sqlInt
  split_ifs with h <;> simp [h, eq_comm]

/-- `try: with conn: …; return True; except: return False`. A statement fails by itself when
`fault` is set; whatever raises, the SQL transaction is rolled back. -/
def sqlTransaction {σ : Type} (fault : Bool) (body : σ → Except PyError σ) (s : σ) : Bool × σ :=
  match if fault then .error .operationalError else body s with
  | .ok s' => (true, s')
  | .error _ => (false, s)

theorem sqlTransaction_of_ok {σ : Type} {fault : Bool} {body : σ → Except PyError σ} {s s' : σ}
    (hf : fault = false) (h : body s = .ok s') : sqlTransaction fault body s = (true, s') := by
  simp [sqlTransaction, hf, h]

theorem sqlTransaction_of_not {σ : Type} {fault : Bool} {body : σ → Except PyError σ} {s : σ}
    (h : ¬ (fault = false ∧ (body s).Returns)) : sqlTransaction fault body s = (false, s) := by
  unfold sqlTransaction
  cases fault with
  | true => rfl
  | false =>
    cases hb : body s with
    | ok s' => exact absurd ⟨rfl, s', hb⟩ h
    | error e => rfl

structure StoredBlock where
  epoch : ℤ
  blockHash : Bytes
  prevHash : Bytes
  merkleRoot : Bytes
  timestamp : ℤ
  proposerId : Bytes
  transactions : List Bytes
  rawData : Bytes
  deriving DecidableEq

/-- An absent or empty previous hash is replaced by zeros. -/
def StoredBlock.fromConsensusBlock {F : Type} [PyFloat F] (block : ConsensusBlock F)
    (txHashes : List Bytes) (prevBlockHash : Option Bytes) : StoredBlock where
  epoch := block.epoch
  blockHash := block.blockHash
  prevHash := match prevBlockHash with
    | none | some [] => List.replicate 32 0
    | some h => h
  merkleRoot := block.proposal.measurementRoot
  timestamp := milliseconds block.finalizationTime
  proposerId := block.proposal.proposerId
  transactions := txHashes
  rawData := []

/-- A row of the table `blocks`, without its key. -/
structure BlockRow where
  blockHash : Bytes
  prevHash : Bytes
  merkleRoot : Bytes
  timestamp : ℤ
  proposerId : Bytes
  txCount : ℤ
  rawData : Bytes
  deriving DecidableEq

/-- The two tables. Hash rows are written with or after their header, so every one has a header,
and the column `block_hash` is declared unique. -/
structure BlockStore where
  blocks : OrderedDict ℤ BlockRow := ∅
  blockTransactions : IndexedTable ℤ Bytes := ∅
  uniqueHash : ∀ e e' r r', blocks.get? e = some r → blocks.get? e' = some r' →
    r.blockHash = r'.blockHash → e = e' := by simp
  headed : ∀ e, blocks.get? e = none → blockTransactions.select e = [] := by simp

namespace BlockStore

variable (s : BlockStore)

instance : EmptyCollection BlockStore := ⟨{}⟩

def hashes : List Bytes := s.blocks.values.map BlockRow.blockHash

theorem mem_hashes {h : Bytes} : h ∈ s.hashes ↔ ∃ e r, s.blocks.get? e = some r ∧ r.blockHash = h := by
  simp only [hashes, List.mem_map, OrderedDict.mem_values_iff]
  constructor
  · rintro ⟨r, ⟨e, he⟩, hr⟩
    exact ⟨e, r, he, hr⟩
  · rintro ⟨e, r, he, hr⟩
    exact ⟨r, ⟨e, he⟩, hr⟩

/-- `INSERT OR REPLACE` of the hash rows under a header that is there. -/
def replaceHashes (epoch : ℤ) (txHashes : List Bytes) (h : epoch ∈ s.blocks.keys) :
    BlockStore where
  blocks := s.blocks
  blockTransactions := s.blockTransactions.put epoch txHashes
  uniqueHash := s.uniqueHash
  headed := by
    intro e he
    obtain ⟨r, hr⟩ := (s.blocks.mem_keys_iff epoch).mp h
    have hne : e ≠ epoch := by
      rintro rfl
      rw [hr] at he
      cases he
    rw [IndexedTable.select_put_of_ne _ hne]
    exact s.headed e he

def insertHeader (epoch : ℤ) (row : BlockRow) (txHashes : List Bytes)
    (h : row.blockHash ∉ s.hashes) : BlockStore where
  blocks := s.blocks.set epoch row
  blockTransactions := s.blockTransactions.put epoch txHashes
  uniqueHash := by
    intro e e' r r' he he' heq
    rw [mem_hashes] at h
    push Not at h
    rcases OrderedDict.get?_set_eq_some.mp he with ⟨hx, hr⟩ | ⟨-, hold⟩
    · rcases OrderedDict.get?_set_eq_some.mp he' with ⟨hx', -⟩ | ⟨-, hold'⟩
      · rw [hx, hx']
      · exact absurd (heq.symm.trans (by rw [hr])) (h e' r' hold')
    · rcases OrderedDict.get?_set_eq_some.mp he' with ⟨-, hr'⟩ | ⟨-, hold'⟩
      · exact absurd (heq.trans (by rw [hr'])) (h e r hold)
      · exact s.uniqueHash e e' r r' hold hold' heq
  headed := by
    intro e he
    have hne : e ≠ epoch := by
      rintro rfl
      simp at he
    rw [OrderedDict.get?_set_of_ne _ hne] at he
    rw [IndexedTable.select_put_of_ne _ hne]
    exact s.headed e he

/-- The statements of `store_block`. A taken epoch makes the first one do nothing, also when the
hash is taken as well; a new epoch under a taken hash violates the unique column. -/
def insertBlock (block : StoredBlock) (s : BlockStore) : Except PyError BlockStore := do
  let epoch ← sqlInt block.epoch
  let timestamp ← sqlInt block.timestamp
  let txCount ← sqlInt block.transactions.length
  let row : BlockRow :=
    { blockHash := block.blockHash
      prevHash := block.prevHash
      merkleRoot := block.merkleRoot
      timestamp := timestamp
      proposerId := block.proposerId
      txCount := txCount
      rawData := block.rawData }
  if h : epoch ∈ s.blocks.keys then
    .ok (s.replaceHashes epoch block.transactions h)
  else if h : row.blockHash ∉ s.hashes then
    .ok (s.insertHeader epoch row block.transactions h)
  else .error .integrityError

def storeBlock (fault : Bool) (block : StoredBlock) (s : BlockStore) : Bool × BlockStore :=
  sqlTransaction fault (insertBlock block) s

/-- The block under an epoch, as the two tables hold it. -/
def blockAt (epoch : ℤ) : Option StoredBlock :=
  (s.blocks.get? epoch).map fun row =>
    { epoch := epoch
      blockHash := row.blockHash
      prevHash := row.prevHash
      merkleRoot := row.merkleRoot
      timestamp := row.timestamp
      proposerId := row.proposerId
      transactions := s.blockTransactions.select epoch
      rawData := row.rawData }

def getBlock (epoch : ℤ) : Except PyError (Option StoredBlock) := do
  return s.blockAt (← sqlInt epoch)

/-- `SELECT MAX(epoch)`. -/
def maxEpoch : Option ℤ := s.blocks.keys.max?

def getLatestBlock : Option StoredBlock := s.maxEpoch.bind s.blockAt

def getChainHeight : ℤ := s.maxEpoch.getD (-1)

theorem blockAt_eq_none_iff (epoch : ℤ) : s.blockAt epoch = none ↔ epoch ∉ s.blocks.keys := by
  rw [blockAt, Option.map_eq_none_iff, OrderedDict.mem_keys_iff, not_exists,
    Option.eq_none_iff_forall_ne_some]

theorem mem_keys_iff_blockAt (epoch : ℤ) :
    epoch ∈ s.blocks.keys ↔ ∃ b, s.blockAt epoch = some b := by
  rw [← not_iff_not, ← blockAt_eq_none_iff, not_exists, Option.eq_none_iff_forall_ne_some]

theorem mem_hashes_iff_blockAt (h : Bytes) :
    h ∈ s.hashes ↔ ∃ e b, s.blockAt e = some b ∧ b.blockHash = h := by
  rw [mem_hashes]
  constructor
  · rintro ⟨e, r, he, hr⟩
    exact ⟨e, _, by rw [blockAt, he, Option.map_some], hr⟩
  · rintro ⟨e, b, he, hb⟩
    obtain ⟨r, hr, rfl⟩ := Option.map_eq_some_iff.mp he
    exact ⟨e, r, hr, hb⟩

theorem getBlock_eq_ok {epoch : ℤ} {b : Option StoredBlock} :
    s.getBlock epoch = .ok b ↔ FitsSql epoch ∧ s.blockAt epoch = b := by
  have hbind : s.getBlock epoch = (sqlInt epoch >>= fun e => .ok (s.blockAt e)) := rfl
  rw [hbind, Except.bind_return_eq_ok]
  simp only [sqlInt_eq_ok]
  constructor
  · rintro ⟨e, ⟨hfit, rfl⟩, hb⟩
    exact ⟨hfit, hb.symm⟩
  · rintro ⟨hfit, hb⟩
    exact ⟨epoch, ⟨hfit, rfl⟩, hb.symm⟩

/-- The SQL transaction of `store_block` goes through. -/
structure Lands (fault : Bool) (block : StoredBlock) : Prop where
  noFault : fault = false
  epoch : FitsSql block.epoch
  timestamp : FitsSql block.timestamp
  txCount : FitsSql block.transactions.length
  freshHash : block.epoch ∉ s.blocks.keys → block.blockHash ∉ s.hashes

/-- What stands under the epoch of a stored block: the block itself, or the old one with its
first transaction hashes overwritten. -/
def merge (block : StoredBlock) : Option StoredBlock → StoredBlock
  | none => block
  | some old =>
    { old with
      transactions :=
        block.transactions ++ old.transactions.drop block.transactions.length }

theorem insertBlock_returns {block : StoredBlock} {fault : Bool} :
    fault = false ∧ (s.insertBlock block).Returns ↔ s.Lands fault block := by
  simp only [insertBlock, Except.returns_bind, sqlInt_eq_ok]
  constructor
  · rintro ⟨hf, epoch, ⟨he, rfl⟩, timestamp, ⟨ht, rfl⟩, count, ⟨hc, rfl⟩, s', hs'⟩
    refine ⟨hf, he, ht, hc, ?_⟩
    intro hk hmem
    simp [hk, hmem] at hs'
  · intro h
    refine ⟨h.noFault, _, ⟨h.epoch, rfl⟩, _, ⟨h.timestamp, rfl⟩, _, ⟨h.txCount, rfl⟩, ?_⟩
    by_cases hk : block.epoch ∈ s.blocks.keys
    · exact ⟨_, dif_pos hk⟩
    · exact ⟨_, (dif_neg hk).trans (dif_pos (h.freshHash hk))⟩

theorem storeBlock_of_not_lands {fault : Bool} {block : StoredBlock}
    (h : ¬ s.Lands fault block) : s.storeBlock fault block = (false, s) :=
  sqlTransaction_of_not (mt s.insertBlock_returns.mp h)

theorem blockAt_insertBlock {block : StoredBlock} {s' : BlockStore}
    (h : s.insertBlock block = .ok s') (e : ℤ) :
    s'.blockAt e = if e = block.epoch then some (merge block (s.blockAt e)) else s.blockAt e := by
  simp only [insertBlock, Except.bind_eq_ok, sqlInt_eq_ok] at h
  obtain ⟨_, ⟨-, rfl⟩, _, ⟨-, rfl⟩, _, ⟨-, rfl⟩, h⟩ := h
  by_cases hk : block.epoch ∈ s.blocks.keys
  · rw [dif_pos hk] at h
    obtain rfl := Except.ok.inj h
    obtain ⟨row, hrow⟩ := (s.blocks.mem_keys_iff block.epoch).mp hk
    by_cases he : e = block.epoch
    · subst he
      simp [blockAt, replaceHashes, hrow, merge, IndexedTable.select_put_self]
    · simp [blockAt, replaceHashes, he, IndexedTable.select_put_of_ne]
  · rw [dif_neg hk] at h
    split_ifs at h with hh
    · obtain rfl := Except.ok.inj h
      have hnone : s.blocks.get? block.epoch = none := by
        simpa [OrderedDict.mem_keys_iff, Option.eq_none_iff_forall_ne_some] using hk
      by_cases he : e = block.epoch
      · subst he
        simp [blockAt, insertHeader, hnone, merge, IndexedTable.select_put_self, s.headed _ hnone]
      · simp [blockAt, insertHeader, he, OrderedDict.get?_set_of_ne, IndexedTable.select_put_of_ne]

theorem storeBlock_of_lands {fault : Bool} {block : StoredBlock} (h : s.Lands fault block) :
    (s.storeBlock fault block).1 = true ∧
      ∀ e, (s.storeBlock fault block).2.blockAt e =
        if e = block.epoch then some (merge block (s.blockAt e)) else s.blockAt e := by
  obtain ⟨hf, s', hs'⟩ := s.insertBlock_returns.mpr h
  rw [storeBlock, sqlTransaction_of_ok hf hs']
  exact ⟨rfl, s.blockAt_insertBlock hs'⟩

/-- A stored block repeats exactly the first hashes of the old one when nothing is to change. -/
theorem merge_eq_iff (block old : StoredBlock) :
    merge block (some old) = old ↔ block.transactions <+: old.transactions := by
  have hmerge : merge block (some old) = old ↔
      block.transactions ++ old.transactions.drop block.transactions.length =
        old.transactions := by
    constructor
    · intro h
      exact congrArg StoredBlock.transactions h
    · intro h
      rw [merge, h]
  rw [hmerge, List.prefix_iff_eq_append]

end BlockStore

end Qrtb
