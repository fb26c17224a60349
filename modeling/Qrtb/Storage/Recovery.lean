import Qrtb.Ledger.Runs
import Qrtb.Lib.LinkedLog
import Qrtb.Lib.Scan
import Qrtb.Storage.Archive
import Qrtb.Storage.Replay

/-!
# Crash recovery (`src/storage.py`, `src/block_producer.py`)

`apply_block` spends inputs and adds outputs in memory and then stores the block.
`rebuild_utxo_set` goes through the stored blocks and does both again from the
tables, outputs first. The two sets are compared entry by entry: whatever of an
entry the tables keep is the same in both.
-/

namespace Qrtb

open Transition PyFloat

namespace TransactionStore

/-- The body of the rebuilding loop, for one transaction of a block. -/
def replay (s : TransactionStore) (epoch : ℤ) (u : UtxoSet) (txHash : Bytes) : UtxoSet :=
  match s.getTransaction txHash with
  | none => u
  | some _ =>
    (s.getInputs txHash).foldl (fun u ref => (u.spendUtxo ref.1 ref.2 txHash).2)
      (u.addOutputs txHash epoch 0 (s.getOutputs txHash))

end TransactionStore

namespace StorageManager

/-- The body of the rebuilding loop, for one epoch. -/
def replayEpoch (m : StorageManager) (u : UtxoSet) (epoch : ℕ) : Except PyError UtxoSet := do
  match ← m.blocks.getBlock epoch with
  | none => return u
  | some block => return block.transactions.foldl (m.transactions.replay epoch) u

def rebuildUtxoSet (m : StorageManager) : Except PyError StorageManager := do
  let utxoSet ← (List.range (m.blocks.getChainHeight + 1).toNat).foldlM m.replayEpoch {}
  return { m with utxoSet }

end StorageManager

/-- A block producer with its storage. -/
structure StoringProducer where
  producer : BlockProducer
  storage : StorageManager := ∅

namespace StoringProducer

variable {F : Type} [PyFloat F]

/-- The answer of the storage is not looked at. -/
def applyBlock (faults : Faults) (block : ConsensusBlock F) (txs : List Transaction)
    (s : StoringProducer) : Bool × StoringProducer :=
  match s.producer.applyBlock txs with
  | (false, producer) => (false, { s with producer })
  | (true, producer) =>
    (true,
      { producer, storage := (s.storage.storeBlockWithTransactions faults block txs).2 })

/-- A block that is applied successfully, with no failing statement. -/
def Step (s : StoringProducer) (c : ConsensusBlock F × List Transaction) (s' : StoringProducer) :
    Prop :=
  s.applyBlock noFaults c.1 c.2 = (true, s')

theorem step_cases {s s' : StoringProducer} {c : ConsensusBlock F × List Transaction}
    (h : Step s c s') :
    BlockProducer.applyTransactions c.2 s.producer.ledger = (true, s'.producer.ledger) ∧
      s'.storage = (s.storage.storeBlockWithTransactions noFaults c.1 c.2).2 := by
  unfold Step applyBlock at h
  unfold BlockProducer.applyBlock at h
  rcases happ : BlockProducer.applyTransactions c.2 s.producer.ledger with ⟨ok, L⟩
  rw [happ] at h
  cases ok with
  | false => cases congrArg Prod.fst h
  | true =>
    cases hh : c.2.mapM Transaction.txHash with
    | error e =>
      rw [hh] at h
      cases congrArg Prod.fst h
    | ok hashes =>
      rw [hh] at h
      obtain rfl := congrArg Prod.snd h
      exact ⟨rfl, rfl⟩

end StoringProducer

namespace StorageManager

variable {F : Type} [PyFloat F]

/-- Replaying a transaction from itself. -/
def recoverTransaction (epoch : ℤ) (u : UtxoSet) (tx : Transaction) : UtxoSet :=
  u.replay (tx.txHash.toOption.getD []) epoch (tx.outputs.map TxOutput.stored) tx.refs

def recoverBlock (u : UtxoSet) (c : ConsensusBlock F × List Transaction) : UtxoSet :=
  c.2.foldl (recoverTransaction c.1.epoch) u

/-- Replaying the blocks of the calls from themselves. -/
def recovered (calls : List (ConsensusBlock F × List Transaction)) : UtxoSet :=
  calls.foldl recoverBlock {}

theorem replay_of_heldAs {s : TransactionStore} {txHash : Bytes} {tx : Transaction}
    (h : s.HeldAs txHash tx) (epoch : ℤ) (u : UtxoSet) :
    s.replay epoch u txHash =
      u.replay txHash epoch (tx.outputs.map TxOutput.stored) tx.refs := by
  obtain ⟨row, hrow⟩ := h.found
  rw [TransactionStore.replay, hrow]
  simp only [h.inputs, h.outputs]
  rfl

theorem foldl_replay {s : TransactionStore} (epoch : ℤ) {txs : List Transaction}
    {hashes : List Bytes} (hh : txs.mapM Transaction.txHash = .ok hashes)
    (hheld : ∀ tx ∈ txs, ∀ txHash, tx.txHash = .ok txHash → s.HeldAs txHash tx) (u : UtxoSet) :
    hashes.foldl (s.replay epoch) u = txs.foldl (recoverTransaction epoch) u := by
  induction txs generalizing hashes u with
  | nil =>
    obtain rfl := Except.ok.inj hh
    rfl
  | cons tx txs ih =>
    rw [List.mapM_cons, Except.bind_eq_ok] at hh
    obtain ⟨txHash, htx, hh⟩ := hh
    obtain ⟨hashes', hh', hrest⟩ := Except.bind_eq_ok.mp hh
    obtain rfl := Except.ok.inj hrest
    rw [List.foldl_cons, List.foldl_cons, replay_of_heldAs (hheld tx (by simp) txHash htx),
      recoverTransaction, htx]
    exact ih hh' (fun t ht => hheld t (List.mem_cons_of_mem _ ht)) _

section

variable {family : Transaction → Prop} {calls : List (ConsensusBlock F × List Transaction)}
  {m : StorageManager}

omit [PyFloat F] in
theorem Archived.mem_keys_iff (h : Archived family calls m) (e : ℤ) :
    e ∈ m.blocks.blocks.keys ↔ ∃ c ∈ calls, c.1.epoch = e := by
  rw [m.blocks.mem_keys_iff_blockAt]
  constructor
  · rintro ⟨b, hb⟩
    obtain ⟨c, hc, he, -⟩ := h.blocks e b hb
    exact ⟨c, hc, he⟩
  · rintro ⟨c, hc, rfl⟩
    obtain ⟨b, hb, -⟩ := h.stored c hc
    exact ⟨b, hb⟩

theorem le_getChainHeight {s : BlockStore} {e : ℤ} (he : e ∈ s.blocks.keys) :
    e ≤ s.getChainHeight := by
  obtain ⟨k, hk⟩ := LinkedLog.exists_max? _ (List.ne_nil_of_mem he)
  rw [BlockStore.getChainHeight, BlockStore.maxEpoch, hk, Option.getD_some]
  exact (List.max?_eq_some_iff.mp hk).2 e he

theorem getChainHeight_lt {s : BlockStore} (h : ∀ e ∈ s.blocks.keys, FitsSql e) :
    s.getChainHeight < 2 ^ 63 := by
  rw [BlockStore.getChainHeight, BlockStore.maxEpoch]
  cases hk : s.blocks.keys.max? with
  | none => decide
  | some k => exact (h k (List.max?_eq_some_iff.mp hk).1).2

omit [PyFloat F] in
theorem Archived.replayEpoch_eq (h : Archived family calls m)
    (hinj : TransactionStore.OneBody family) (hfam : ∀ c ∈ calls, ∀ tx ∈ c.2, family tx) {e : ℕ}
    (he : FitsSql e) (u : UtxoSet) :
    m.replayEpoch u e =
      .ok ((calls.find? fun c => c.1.epoch = (e : ℤ)).elim u (recoverBlock u)) := by
  have hget := (m.blocks.getBlock_eq_ok (b := m.blocks.blockAt e)).mpr ⟨he, rfl⟩
  rw [replayEpoch, hget]
  cases hfind : calls.find? fun c => c.1.epoch = (e : ℤ) with
  | none =>
    have hnone : m.blocks.blockAt e = none := by
      rw [m.blocks.blockAt_eq_none_iff, h.mem_keys_iff]
      rintro ⟨c, hc, hce⟩
      exact absurd (by simpa using hce) (List.find?_eq_none.mp hfind c hc)
    rw [hnone]
    rfl
  | some c =>
    have hce : c.1.epoch = (e : ℤ) := by simpa using List.find?_some hfind
    have hc := List.mem_of_find?_eq_some hfind
    obtain ⟨b, hb, hhashes⟩ := h.stored c hc
    rw [← hce, hb]
    have hheld : ∀ tx ∈ c.2, ∀ txHash, tx.txHash = .ok txHash →
        m.transactions.HeldAs txHash tx := fun tx htx txHash hh =>
      TransactionStore.heldAs_of_found hinj h.consistent (hfam c hc tx htx) hh
        (h.found c hc tx htx txHash hh)
    exact congrArg Except.ok (foldl_replay c.1.epoch hhashes hheld u)

omit [PyFloat F] in
theorem rebuildUtxoSet_eq (h : Archived family calls m) (hinj : TransactionStore.OneBody family)
    (hfam : ∀ c ∈ calls, ∀ tx ∈ c.2, family tx)
    (hsorted : (calls.map fun c => c.1.epoch).Pairwise (· < ·))
    (hrange : ∀ c ∈ calls, 0 ≤ c.1.epoch ∧ FitsSql c.1.epoch) :
    m.rebuildUtxoSet = .ok { m with utxoSet := recovered calls } := by
  have hheight : m.blocks.getChainHeight < 2 ^ 63 := getChainHeight_lt fun e he => by
    obtain ⟨c, hc, rfl⟩ := (h.mem_keys_iff e).mp he
    exact (hrange c hc).2
  have hepoch : ∀ e ∈ List.range (m.blocks.getChainHeight + 1).toNat, ∀ u,
      m.replayEpoch u e =
        .ok ((calls.find? fun c => c.1.epoch = (e : ℤ)).elim u (recoverBlock u)) := by
    intro e he u
    have hfits : FitsSql (e : ℤ) := by
      have := List.mem_range.mp he
      constructor <;> omega
    exact h.replayEpoch_eq hinj hfam hfits u
  have hrec : (List.range (m.blocks.getChainHeight + 1).toNat).foldlM m.replayEpoch {} =
      .ok (recovered calls) := by
    rw [Scan.foldlM_eq_ok hepoch, recovered]
    congr 1
    apply Scan.foldl_range_find (fun c : ConsensusBlock F × List Transaction => c.1.epoch)
    · exact hsorted
    · intro c hc
      have hle := le_getChainHeight ((h.mem_keys_iff c.1.epoch).mpr ⟨c, hc, rfl⟩)
      have h0 := (hrange c hc).1
      omega
  rw [rebuildUtxoSet, hrec]
  rfl

end

end StorageManager

namespace StoringProducer

variable {F : Type} [PyFloat F]

open StorageManager (Writable Archived recovered recoverBlock recoverTransaction)

/-- Blocks with increasing epochs and different hashes, whose transactions do not spend their own
outputs and share a hash only when they spend and create the same. -/
structure WellSequenced (calls : List (ConsensusBlock F × List Transaction)) : Prop where
  epochs : (calls.map fun c => c.1.epoch).Pairwise (· < ·)
  nonneg : ∀ c ∈ calls, 0 ≤ c.1.epoch
  blockHashes : (calls.map fun c => c.1.blockHash).Nodup
  txHashes : TransactionStore.OneBody fun tx => ∃ c ∈ calls, tx ∈ c.2
  noSelfReference : ∀ c ∈ calls, ∀ tx ∈ c.2, ∀ h, tx.txHash = .ok h → ∀ ref ∈ tx.refs, ref.1 ≠ h

/-- The block and all its transactions can be stored. -/
def Storable (c : ConsensusBlock F × List Transaction) : Prop :=
  Writable c ∧ ∀ tx ∈ c.2, tx.Storable

/-- A run of blocks that can be stored ends with all of them in the archive. -/
theorem archived_run {family : Transaction → Prop}
    (hinj : TransactionStore.OneBody family)
    {s s' : StoringProducer} {calls : List (ConsensusBlock F × List Transaction)}
    (hrun : Run Step s calls s') {pre : List (ConsensusBlock F × List Transaction)}
    (hpre : Archived family pre s.storage)
    (hepochs : ((pre ++ calls).map fun c => c.1.epoch).Pairwise (· < ·))
    (hhashes : ((pre ++ calls).map fun c => c.1.blockHash).Nodup)
    (hfam : ∀ c ∈ calls, ∀ tx ∈ c.2, family tx) (hst : ∀ c ∈ calls, Storable c) :
    Archived family (pre ++ calls) s'.storage := by
  induction hrun generalizing pre with
  | nil =>
    rw [List.append_nil]
    exact hpre
  | cons hstep hrun ih =>
    rename_i s t u c calls
    obtain ⟨-, hstorage⟩ := step_cases hstep
    rw [← List.singleton_append, ← List.append_assoc] at hepochs hhashes ⊢
    have hc := hst c List.mem_cons_self
    have hfront : (pre ++ [c]) <+: (pre ++ [c]) ++ calls := List.prefix_append _ _
    have hnewEpoch : ∀ c' ∈ pre, c'.1.epoch ≠ c.1.epoch := by
      intro c' hc'
      have hlt := List.Pairwise.sublist (hfront.sublist.map fun c => c.1.epoch) hepochs
      rw [List.map_append, List.pairwise_append] at hlt
      exact ne_of_lt (hlt.2.2 _ (List.mem_map_of_mem hc') _ (by simp))
    have hnewHash : ∀ c' ∈ pre, c'.1.blockHash ≠ c.1.blockHash := by
      intro c' hc'
      have hnd := hhashes.sublist (hfront.sublist.map fun c => c.1.blockHash)
      rw [List.map_append, List.nodup_append] at hnd
      exact hnd.2.2 _ (List.mem_map_of_mem hc') _ (by simp)
    apply ih
    · rw [hstorage]
      exact hpre.store hinj hc.1 hc.2 (hfam c List.mem_cons_self) hnewEpoch hnewHash
    · exact hepochs
    · exact hhashes
    · exact fun c' hc' => hfam c' (List.mem_cons_of_mem _ hc')
    · exact fun c' hc' => hst c' (List.mem_cons_of_mem _ hc')

variable {γ : Type} {f : Utxo → γ}

/-- The view does not see what the tables lose of this transaction in a block of this epoch. -/
def Unseen (f : Utxo → γ) (epoch : ℤ) (tx : Transaction) : Prop :=
  ∀ out ∈ tx.outputs, ∀ h i,
    f { txHash := h, outputIndex := i, output := out, epochCreated := tx.epoch } =
      f { txHash := h, outputIndex := i, output := out.stored, epochCreated := epoch }

theorem map_get?_applyTransactions (hf : Ledger.EntryView f) {epoch : ℤ}
    {txs : List Transaction} {L L' : Ledger} {u : UtxoSet}
    (happ : BlockProducer.applyTransactions txs L = (true, L'))
    (hhash : ∀ tx ∈ txs, ∃ h, tx.txHash = .ok h)
    (hself : ∀ tx ∈ txs, ∀ h, tx.txHash = .ok h → ∀ ref ∈ tx.refs, ref.1 ≠ h)
    (hview : ∀ tx ∈ txs, Unseen f epoch tx)
    (hsame : ∀ k, (L.utxoSet.utxos.get? k).map f = (u.utxos.get? k).map f) (k : OutRef) :
    (L'.utxoSet.utxos.get? k).map f =
      ((txs.foldl (recoverTransaction epoch) u).utxos.get? k).map f := by
  induction txs generalizing L u with
  | nil =>
    obtain rfl := congrArg Prod.snd happ
    exact hsame k
  | cons tx txs ih =>
    rw [BlockProducer.applyTransactions] at happ
    rcases hres : Ledger.applyTransaction tx L with ⟨res, M⟩
    have hres1 : (Ledger.applyTransaction tx L).1 = res := congrArg Prod.fst hres
    have hres2 : (Ledger.applyTransaction tx L).2 = M := congrArg Prod.snd hres
    rw [hres] at happ
    obtain ⟨h, hh⟩ := hhash tx List.mem_cons_self
    have htrue : res = .ok true := by
      rcases res with e | ok
      · cases congrArg Prod.fst happ
      · cases ok with
        | false => cases congrArg Prod.fst happ
        | true => rfl
    subst htrue
    rw [List.foldl_cons]
    apply ih happ
    · exact fun t ht => hhash t (List.mem_cons_of_mem _ ht)
    · exact fun t ht => hself t (List.mem_cons_of_mem _ ht)
    · exact fun t ht => hview t (List.mem_cons_of_mem _ ht)
    · intro j
      rw [← hres2, recoverTransaction, hh]
      exact Ledger.map_get?_applied hf hres1 hh (hself tx List.mem_cons_self h hh)
        (fun out hout i => hview tx List.mem_cons_self out hout h i) hsame j

theorem map_get?_run (hf : Ledger.EntryView f) {s s' : StoringProducer}
    {calls : List (ConsensusBlock F × List Transaction)} (hrun : Run Step s calls s')
    (hhash : ∀ c ∈ calls, ∀ tx ∈ c.2, ∃ h, tx.txHash = .ok h)
    (hself : ∀ c ∈ calls, ∀ tx ∈ c.2, ∀ h, tx.txHash = .ok h → ∀ ref ∈ tx.refs, ref.1 ≠ h)
    (hview : ∀ c ∈ calls, ∀ tx ∈ c.2, Unseen f c.1.epoch tx) {u : UtxoSet}
    (hsame : ∀ k, (s.producer.ledger.utxoSet.utxos.get? k).map f = (u.utxos.get? k).map f)
    (k : OutRef) :
    (s'.producer.ledger.utxoSet.utxos.get? k).map f =
      ((calls.foldl recoverBlock u).utxos.get? k).map f := by
  induction hrun generalizing u with
  | nil => exact hsame k
  | cons hstep hrun ih =>
    rename_i s t u' c calls
    obtain ⟨happ, -⟩ := step_cases hstep
    rw [List.foldl_cons]
    apply ih
    · exact fun c' hc' => hhash c' (List.mem_cons_of_mem _ hc')
    · exact fun c' hc' => hself c' (List.mem_cons_of_mem _ hc')
    · exact fun c' hc' => hview c' (List.mem_cons_of_mem _ hc')
    · intro j
      exact map_get?_applyTransactions hf happ (hhash c List.mem_cons_self)
        (hself c List.mem_cons_self) (hview c List.mem_cons_self) hsame j

/-- Recovery after a run from nothing: it goes through, and the recovered set looks like the live
one. -/
theorem rebuild_run (hf : Ledger.EntryView f) {p : BlockProducer}
    (hp : p.ledger.utxoSet = {}) {s : StoringProducer}
    {calls : List (ConsensusBlock F × List Transaction)} (hrun : Run Step ⟨p, ∅⟩ calls s)
    (hseq : WellSequenced calls) (hst : ∀ c ∈ calls, Storable c)
    (hview : ∀ c ∈ calls, ∀ tx ∈ c.2, Unseen f c.1.epoch tx) :
    s.storage.rebuildUtxoSet = .ok { s.storage with utxoSet := recovered calls } ∧
      ∀ k, (s.producer.ledger.utxoSet.utxos.get? k).map f =
        ((recovered calls).utxos.get? k).map f := by
  have hfam : ∀ c ∈ calls, ∀ tx ∈ c.2, ∃ c ∈ calls, tx ∈ c.2 := fun c hc tx htx => ⟨c, hc, htx⟩
  have harch : Archived (fun tx => ∃ c ∈ calls, tx ∈ c.2) ([] ++ calls) s.storage :=
    archived_run hseq.txHashes hrun (StorageManager.archived_empty _) hseq.epochs hseq.blockHashes hfam hst
  refine ⟨StorageManager.rebuildUtxoSet_eq harch hseq.txHashes hfam hseq.epochs
    fun c hc => ⟨hseq.nonneg c hc, (hst c hc).1.2.1⟩, ?_⟩
  apply map_get?_run hf hrun
  · exact fun c hc tx htx => ((hst c hc).2 tx htx).exists_hash
  · exact hseq.noSelfReference
  · exact hview
  · intro k
    rw [hp]

end StoringProducer

namespace UtxoSet

/-- Value, address and lock of an unspent output. -/
def unspentAt (s : UtxoSet) (k : OutRef) : Option (ℤ × Bytes × ℤ) :=
  (s.utxos.get? k).bind fun u =>
    if u.isSpent then none else some (u.output.value, u.output.address, u.output.lockEpoch)

end UtxoSet

namespace StoringProducer

variable {F : Type} [PyFloat F]

def kept (u : Utxo) : Bool × ℤ × Bytes × ℤ :=
  (u.isSpent, u.output.value, u.output.address, u.output.lockEpoch)

theorem entryView_kept : Ledger.EntryView kept where
  isSpent _ _ h := congrArg Prod.fst h
  markSpent _ _ _ h := congrArg (fun p => (true, p.2)) h

theorem unspentAt_congr {s s' : UtxoSet} {k : OutRef}
    (h : (s.utxos.get? k).map kept = (s'.utxos.get? k).map kept) :
    s.unspentAt k = s'.unspentAt k := by
  have hread : ∀ s : UtxoSet, s.unspentAt k =
      ((s.utxos.get? k).map kept).bind fun p => if p.1 then none else some p.2 := by
    intro s
    rw [UtxoSet.unspentAt]
    cases s.utxos.get? k with
    | none => rfl
    | some u => rfl
  rw [hread, hread, h]

/-- When every block of a run can be stored with all its transactions, the recovered set has the
unspent outputs of the live one. -/
theorem rebuild_restores_unspent {p : BlockProducer} (hp : p.ledger.utxoSet = {})
    {s : StoringProducer} {calls : List (ConsensusBlock F × List Transaction)}
    (hrun : Run Step ⟨p, ∅⟩ calls s) (hseq : WellSequenced calls)
    (hst : ∀ c ∈ calls, Storable c) :
    ∃ m, s.storage.rebuildUtxoSet = .ok m ∧
      ∀ k, m.utxoSet.unspentAt k = s.producer.ledger.utxoSet.unspentAt k := by
  obtain ⟨hm, hsame⟩ := rebuild_run entryView_kept hp hrun hseq hst fun _ _ _ _ _ _ _ _ => rfl
  exact ⟨_, hm, fun k => (unspentAt_congr (hsame k)).symm⟩

theorem exists_step {s : StoringProducer} {c : ConsensusBlock F × List Transaction} {L : Ledger}
    (happ : BlockProducer.applyTransactions c.2 s.producer.ledger = (true, L))
    (hh : (c.2.mapM Transaction.txHash).Returns) :
    ∃ s', Step s c s' ∧ s'.producer.ledger = L := by
  obtain ⟨hashes, hh⟩ := hh
  have hprod : s.producer.applyBlock c.2 =
      (true, { s.producer with
        ledger := L, mempool := (s.producer.mempool.clearConfirmed hashes.dedup).2 }) := by
    rw [BlockProducer.applyBlock, happ, hh]
  refine ⟨(s.applyBlock noFaults c.1 c.2).2, ?_, ?_⟩
  · rw [Step, applyBlock, hprod]
  · rw [applyBlock, hprod]

/-- A transaction that changes no registry applies when its inputs can be spent one by one. -/
theorem applies_of_spendable {tx : Transaction} {L : Ledger} (hreg : tx.txType ≠ .register)
    (hrot : tx.txType ≠ .rotateAuth) (hpack : tx.Packable) (hnodup : tx.refs.Nodup)
    (hs : ∀ inp ∈ tx.inputs, L.utxoSet.Spendable inp.ref) :
    (Ledger.applyTransaction tx L).1 = .ok true := by
  obtain ⟨h, hh⟩ : ∃ h, Ledger.hashWhenUsed tx = .ok h := by
    obtain ⟨h, hh⟩ := tx.txHash_returns.mpr hpack
    unfold Ledger.hashWhenUsed
    split_ifs
    · exact ⟨[], rfl⟩
    · exact ⟨h, hh⟩
  have hspend := (L.utxoSet.spendInputs_eq_true_iff h tx.inputs).mpr ⟨hnodup, hs⟩
  have hregistry : ∀ M : Ledger, (Ledger.applyRegistry tx M).1 = .ok true := by
    intro M
    cases htype : tx.txType <;> first | contradiction | simp [Ledger.applyRegistry, htype]
  rcases Ledger.applyTransaction_cases tx L with ⟨e, he, -⟩ | ⟨t, ht, hfalse, -⟩ | ⟨t, -, -, ha⟩
  · rw [hh] at he
    cases he
  · obtain rfl := Except.ok.inj (hh.symm.trans ht)
    rw [hspend] at hfalse
    cases hfalse
  · rw [ha, hregistry]

theorem applies_of_no_inputs {tx : Transaction} (htype : tx.txType = .coinbase)
    (hin : tx.inputs = []) (hpack : tx.Packable) (L : Ledger) :
    (Ledger.applyTransaction tx L).1 = .ok true :=
  applies_of_spendable (by simp [htype]) (by simp [htype]) hpack (by simp [Transaction.refs, hin])
    (by simp [hin])

theorem exists_run_single (block : ConsensusBlock F) {tx : Transaction}
    (htype : tx.txType = .coinbase) (hin : tx.inputs = []) (hpack : tx.Packable) :
    ∃ s, Run Step ⟨{ validatorId := [] }, ∅⟩ [(block, [tx])] s ∧
      s.producer.ledger = (Ledger.applyTransaction tx {}).2 := by
  have happ : BlockProducer.applyTransactions [tx] {} =
      (true, (Ledger.applyTransaction tx {}).2) := by
    have htrue := applies_of_no_inputs htype hin hpack {}
    rcases hres : Ledger.applyTransaction tx {} with ⟨res, L⟩
    rw [hres] at htrue
    rw [BlockProducer.applyTransactions, hres, show res = .ok true from htrue]
    rfl
  have hh : ([tx].mapM Transaction.txHash).Returns := by
    rw [Except.returns_mapM]
    intro t ht
    rw [List.mem_singleton.mp ht]
    exact tx.txHash_returns.mpr hpack
  obtain ⟨s, hstep, hledger⟩ :=
    exists_step (s := ⟨{ validatorId := [] }, ∅⟩) (c := (block, [tx])) happ hh
  exact ⟨s, Run.single hstep, hledger⟩

omit [PyFloat F] in
theorem wellSequenced_single {block : ConsensusBlock F} {tx : Transaction}
    (hepoch : 0 ≤ block.epoch) (hin : tx.inputs = []) : WellSequenced [(block, [tx])] where
  epochs := List.pairwise_singleton _ _
  nonneg c hc := by
    rw [List.mem_singleton.mp hc]
    exact hepoch
  blockHashes := List.nodup_singleton _
  txHashes := by
    rintro t t' h ⟨c, hc, ht⟩ ⟨c', hc', ht'⟩ - -
    obtain rfl := List.mem_singleton.mp hc
    obtain rfl := List.mem_singleton.mp hc'
    rw [List.mem_singleton.mp ht, List.mem_singleton.mp ht']
    exact ⟨rfl, rfl⟩
  noSelfReference := by
    intro c hc t ht h _ ref href
    obtain rfl := List.mem_singleton.mp hc
    rw [List.mem_singleton.mp ht, Transaction.refs, hin] at href
    cases href

/-- A coinbase of epoch 1 with two outputs. -/
def minting : Transaction :=
  { version := 1, txType := .coinbase, inputs := [],
    outputs := [{ value := 1000000, address := [1] }, { value := 2000000, address := [1] }],
    epoch := 1, timestamp := 0, fee := 0, nonce := List.replicate 8 0 }

def mintHash : Bytes :=
  match minting.txHash with
  | .ok h => h
  | .error _ => []

/-- A transfer of epoch 2 that spends the first of them. -/
def moving : Transaction :=
  Ledger.spending .transfer [(mintHash, 0)] none { value := 900000, address := [2] } 2

def twoBlocks : List (ConsensusBlock ℚ × List Transaction) :=
  [(sealedBlock 1, [minting]), (sealedBlock 2, [moving])]

theorem txHash_minting : minting.txHash = .ok mintHash := by
  obtain ⟨h, hh⟩ := minting.txHash_returns.mpr (by decide)
  simp only [mintHash, hh]

theorem packable_moving : moving.Packable :=
  Ledger.packable_spending (by simp) (by simp) (by simp) (by simp) (by simp) (by decide)

theorem txHash_moving_ne : moving.txHash ≠ .ok mintHash := by
  rw [← txHash_minting]
  decide +kernel

theorem exists_step_single {s : StoringProducer} (block : ConsensusBlock F) {tx : Transaction}
    (happ : (Ledger.applyTransaction tx s.producer.ledger).1 = .ok true) (hpack : tx.Packable) :
    ∃ s', Step s (block, [tx]) s' ∧
      s'.producer.ledger = (Ledger.applyTransaction tx s.producer.ledger).2 := by
  have hblock : BlockProducer.applyTransactions [tx] s.producer.ledger =
      (true, (Ledger.applyTransaction tx s.producer.ledger).2) := by
    rcases hres : Ledger.applyTransaction tx s.producer.ledger with ⟨res, L⟩
    rw [hres] at happ
    rw [BlockProducer.applyTransactions, hres, show res = .ok true from happ]
    rfl
  apply exists_step (c := (block, [tx])) hblock
  rw [Except.returns_mapM]
  intro t ht
  rw [List.mem_singleton.mp ht]
  exact tx.txHash_returns.mpr hpack

/-- The run of the two blocks, and what it leaves of the outputs of the first. -/
theorem exists_run_twoBlocks : ∃ s, Run Step ⟨{ validatorId := [] }, ∅⟩ twoBlocks s ∧
    (∃ u, s.producer.ledger.utxoSet.utxos.get? (mintHash, 0) = some u ∧ u.isSpent = true) ∧
    s.producer.ledger.utxoSet.utxos.get? (mintHash, 1) =
      some (UtxoSet.newUtxo 1 mintHash 1 { value := 2000000, address := [1] }) := by
  have hmint : (Ledger.applyTransaction minting {}).1 = .ok true :=
    applies_of_no_inputs rfl rfl (by decide) {}
  obtain ⟨s, hstep, hledger⟩ := exists_step_single (s := ⟨{ validatorId := [] }, ∅⟩)
    (sealedBlock 1) hmint (by decide)
  have hget := Ledger.get?_applyTransaction_output hmint txHash_minting (j := 0) rfl
  have hget' := Ledger.get?_applyTransaction_output hmint txHash_minting (j := 1) rfl
  have hmove : (Ledger.applyTransaction moving (Ledger.applyTransaction minting {}).2).1 =
      .ok true := by
    apply applies_of_spendable (by simp [moving]) (by simp [moving]) packable_moving
      (by simp [moving])
    intro inp hi
    obtain rfl := List.mem_singleton.mp hi
    exact ⟨_, hget, rfl⟩
  rw [← hledger] at hget hget' hmove
  obtain ⟨s', hstep', hledger'⟩ := exists_step_single (sealedBlock 2) hmove packable_moving
  have hnew : ∀ i, ¬ moving.Creates (mintHash, i) := by
    rintro i ⟨h, j, out, hh, -, hk⟩
    obtain rfl : mintHash = h := congrArg Prod.fst hk
    exact txHash_moving_ne hh
  refine ⟨s', .cons hstep (.single hstep'), ?_, ?_⟩
  · obtain ⟨t, hspent⟩ := Ledger.get?_applyTransaction_input hmove
      (List.mem_singleton_self (Ledger.unsignedInput none (mintHash, 0))) (hnew 0) hget
    rw [← hledger'] at hspent
    exact ⟨_, hspent, rfl⟩
  · rw [hledger', Ledger.get?_applyTransaction_of_not_creates (by simp [moving]) (hnew 1)]
    exact hget'

theorem eq_of_mem_twoBlocks {c : ConsensusBlock ℚ × List Transaction} (hc : c ∈ twoBlocks)
    {tx : Transaction} (htx : tx ∈ c.2) : tx = minting ∨ tx = moving := by
  simp only [twoBlocks, List.mem_cons, List.not_mem_nil, or_false] at hc
  rcases hc with rfl | rfl
  · exact Or.inl (List.mem_singleton.mp htx)
  · exact Or.inr (List.mem_singleton.mp htx)

theorem wellSequenced_twoBlocks : WellSequenced twoBlocks where
  epochs := by decide +kernel
  nonneg := by decide +kernel
  blockHashes := by decide +kernel
  txHashes := by
    rintro tx tx' h ⟨c, hc, htx⟩ ⟨c', hc', htx'⟩ hh hh'
    rcases eq_of_mem_twoBlocks hc htx with rfl | rfl <;>
      rcases eq_of_mem_twoBlocks hc' htx' with rfl | rfl
    · exact ⟨rfl, rfl⟩
    · exact absurd (hh'.trans (hh.symm.trans txHash_minting)) txHash_moving_ne
    · exact absurd (hh.trans (hh'.symm.trans txHash_minting)) txHash_moving_ne
    · exact ⟨rfl, rfl⟩
  noSelfReference := by
    intro c hc tx htx h hh ref href
    rcases eq_of_mem_twoBlocks hc htx with rfl | rfl
    · cases href
    · rw [moving, Ledger.refs_spending, List.mem_singleton] at href
      rw [href]
      rintro rfl
      exact txHash_moving_ne hh

theorem storable_twoBlocks : ∀ c ∈ twoBlocks, Storable c := by
  intro c hc
  simp only [twoBlocks, List.mem_cons, List.not_mem_nil, or_false] at hc
  rcases hc with rfl | rfl
  · exact ⟨by decide +kernel, by decide⟩
  · exact ⟨by decide +kernel, by decide +kernel⟩

/-- A coinbase in one block and a transfer of its first output in the next: the output comes back
as spent, the others as they are. -/
theorem rebuild_restores_unspent_twoBlocks :
    ∃ s : StoringProducer, Run Step ⟨{ validatorId := [] }, ∅⟩ twoBlocks s ∧
      s.producer.ledger.utxoSet.unspentAt (mintHash, 0) = none ∧
      s.producer.ledger.utxoSet.unspentAt (mintHash, 1) = some (2000000, [1], 0) ∧
      ∃ m, s.storage.rebuildUtxoSet = .ok m ∧
        ∀ k, m.utxoSet.unspentAt k = s.producer.ledger.utxoSet.unspentAt k := by
  obtain ⟨s, hrun, ⟨u, hu, hspent⟩, hkept⟩ := exists_run_twoBlocks
  refine ⟨s, hrun, ?_, ?_, rebuild_restores_unspent rfl hrun wellSequenced_twoBlocks
    storable_twoBlocks⟩
  · rw [UtxoSet.unspentAt, hu, Option.bind_some, if_pos hspent]
  · rw [UtxoSet.unspentAt, hkept]
    rfl

end StoringProducer

namespace StorageManager

theorem rebuildUtxoSet_of_not_found {m m' : StorageManager}
    (h : ∀ txHash, m.transactions.getTransaction txHash = none)
    (hm : m.rebuildUtxoSet = .ok m') : m'.utxoSet = {} := by
  have hreplay : ∀ epoch u txHash, m.transactions.replay epoch u txHash = u := by
    intro epoch u txHash
    rw [TransactionStore.replay, h]
  have hblock : ∀ epoch (hashes : List Bytes) u,
      hashes.foldl (m.transactions.replay epoch) u = u := by
    intro epoch hashes
    induction hashes with
    | nil => exact fun u => rfl
    | cons txHash hashes ih =>
      intro u
      rw [List.foldl_cons, hreplay, ih]
  have hepochs : ∀ (l : List ℕ) u u', l.foldlM m.replayEpoch u = .ok u' → u' = u := by
    intro l
    induction l with
    | nil => exact fun u u' hu => (Except.ok.inj hu).symm
    | cons e l ih =>
      intro u u' hu
      rw [List.foldlM_cons, Except.bind_eq_ok] at hu
      obtain ⟨v, hv, hu⟩ := hu
      rw [replayEpoch, Except.bind_eq_ok] at hv
      obtain ⟨b, -, hv⟩ := hv
      have huv : v = u := by
        cases b with
        | none => exact (Except.ok.inj hv).symm
        | some b => exact (Except.ok.inj hv).symm.trans (hblock e b.transactions u)
      rw [ih v u' hu, huv]
  rw [rebuildUtxoSet, Except.bind_eq_ok] at hm
  obtain ⟨u, hu, hm⟩ := hm
  obtain rfl := Except.ok.inj hm
  exact hepochs _ _ _ hu

end StorageManager

namespace StoringProducer

/-- A coinbase with a lock of `2 ^ 63` is applied, its block is stored, and its outputs are not
recovered. -/
theorem rebuild_loses_unspent :
    ∃ s : StoringProducer,
      Run Step ⟨{ validatorId := [] }, ∅⟩ [(sealedBlock 0, [Ledger.funding [] (2 ^ 63)])] s ∧
      WellSequenced [(sealedBlock 0, [Ledger.funding [] (2 ^ 63)])] ∧
      ¬ ∃ m, s.storage.rebuildUtxoSet = .ok m ∧
        ∀ k, m.utxoSet.unspentAt k = s.producer.ledger.utxoSet.unspentAt k := by
  obtain ⟨s, hrun, hledger⟩ := exists_run_single (sealedBlock 0)
    (rfl : (Ledger.funding [] (2 ^ 63)).txType = .coinbase) rfl (by decide)
  refine ⟨s, hrun, wellSequenced_single (by decide +kernel) rfl, ?_⟩
  rintro ⟨m, hm, hsame⟩
  obtain ⟨txHash, hh, hall⟩ := Ledger.exists_fundingHash []
    (show (0 : ℤ) ≤ 2 ^ 63 by decide) (by decide)
  have hlive : s.producer.ledger.utxoSet.unspentAt (txHash, 0) = some (1000000, [], 0) := by
    rw [hledger, UtxoSet.unspentAt, (hall {}).1]
    rfl
  have hnotFound : ∀ key, s.storage.transactions.getTransaction key = none := by
    intro key
    cases hrun with
    | cons hstep hrest =>
      cases hrest
      obtain ⟨-, hstorage⟩ := step_cases hstep
      rw [hstorage, StorageManager.transactions_storeBlockWithTransactions,
        Option.eq_none_iff_forall_ne_some]
      intro row hrow
      have hhashes : ([Ledger.funding [] (2 ^ 63)].mapM Transaction.txHash).Returns := by
        rw [Except.returns_mapM]
        intro t ht
        rw [List.mem_singleton.mp ht]
        exact ⟨txHash, hh⟩
      rcases (StorageManager.available_iff noFaults hhashes ∅ key).mp ⟨row, hrow⟩ with
        ⟨row', hrow'⟩ | ⟨i, tx, hi, -, hst, -⟩
      · cases hrow'
      · rw [List.mem_singleton.mp (List.mem_of_getElem? hi)] at hst
        exact absurd hst (by decide)
  have hempty := StorageManager.rebuildUtxoSet_of_not_found hnotFound hm
  have hkey := hsame (txHash, 0)
  rw [hlive, hempty] at hkey
  cases hkey

end StoringProducer

end Qrtb
