import Qrtb.Blocks.MempoolState
import Qrtb.Lib.Packing
import Mathlib.Data.List.Permutation

/-!
# The candidates for a block (`get_transactions_for_block` in `src/transaction.py`)

The queue is walked once, and every transaction that still fits is taken. What is
taken are different transactions in the order of the queue that spend apart, within
the limit, and nothing held would still fit. The order is that of the quotients as
they are rounded, which is not the order of the exact ones.
-/

namespace Qrtb

open Transition

namespace Mempool

def selectWithin (m : Mempool) (maxSize : ℤ) : ℤ → List PriorityEntry → List Transaction
  | _, [] => []
  | totalSize, entry :: entries =>
    match m.transactions.get? entry.txHash with
    | none => m.selectWithin maxSize totalSize entries
    | some tx =>
      if totalSize + tx.size > maxSize then m.selectWithin maxSize totalSize entries
      else tx :: m.selectWithin maxSize (totalSize + tx.size) entries

def getTransactionsWithin (m : Mempool) (maxSize : ℤ) : List Transaction :=
  m.selectWithin maxSize 0 m.priority

theorem selectWithin_natCast (m : Mempool) (maxSize totalSize : ℕ) (entries : List PriorityEntry) :
    m.selectWithin maxSize totalSize entries = m.selectForBlock maxSize totalSize entries := by
  induction entries generalizing totalSize with
  | nil => rfl
  | cons entry entries ih =>
    rw [selectWithin, selectForBlock]
    cases m.transactions.get? entry.txHash with
    | none => exact ih totalSize
    | some tx =>
      have hrest := ih (totalSize + tx.size)
      rw [Nat.cast_add] at hrest
      simp only [ih, hrest]
      congr 1
      rw [gt_iff_lt, gt_iff_lt, ← Nat.cast_add, Nat.cast_lt]

theorem getTransactionsWithin_natCast (m : Mempool) (maxSize : ℕ) :
    m.getTransactionsWithin maxSize = m.getTransactionsForBlock maxSize :=
  m.selectWithin_natCast maxSize 0 m.priority

/-- The transactions in the order of the queue. -/
def queued (m : Mempool) : List Transaction :=
  m.priority.filterMap fun p => m.transactions.get? p.txHash

theorem selectWithin_eq_fill (m : Mempool) (maxSize totalSize : ℤ) (entries : List PriorityEntry) :
    m.selectWithin maxSize totalSize entries =
      Packing.fill (fun tx : Transaction => (tx.size : ℤ)) maxSize totalSize
        (entries.filterMap fun p => m.transactions.get? p.txHash) := by
  induction entries generalizing totalSize with
  | nil => rfl
  | cons entry entries ih =>
    rw [selectWithin, List.filterMap_cons]
    cases m.transactions.get? entry.txHash with
    | none => exact ih totalSize
    | some tx =>
      simp only [Packing.fill, ih]

theorem getTransactionsWithin_eq_fill (m : Mempool) (maxSize : ℤ) :
    m.getTransactionsWithin maxSize =
      Packing.fill (fun tx : Transaction => (tx.size : ℤ)) maxSize 0 m.queued :=
  m.selectWithin_eq_fill maxSize 0 m.priority

variable (rate : ℤ → ℕ → ℚ)

/-- The first has the greater rate, or the same and the later timestamp, or the greater hash. -/
def Precedes (tx tx' : Transaction) : Prop :=
  ∃ h h', tx.txHash = .ok h ∧ tx'.txHash = .ok h' ∧ (entry rate h' tx').Below (entry rate h tx)

/-- Every held transaction has one entry, the entries are in order, and transactions spend apart. -/
structure Queues (m : Mempool) : Prop where
  keyed : ∀ h tx, m.transactions.get? h = some tx → tx.txHash = .ok h
  disjoint : ∀ h h' tx tx', m.transactions.get? h = some tx → m.transactions.get? h' = some tx' →
    h ≠ h' → tx.refs.Disjoint tx'.refs
  entries : ∀ h, m.priority.filter (fun p => p.txHash = h) =
    ((m.transactions.get? h).map (entry rate h)).toList
  sorted : m.priority.Pairwise fun a b => b.Below a

variable {rate} {m : Mempool}

theorem Precedes.ne {tx tx' : Transaction} (h : Precedes rate tx tx') : tx ≠ tx' := by
  rintro rfl
  obtain ⟨k, k', hk, hk', hbelow⟩ := h
  obtain rfl := Except.ok.inj (hk.symm.trans hk')
  exact hbelow.asymm hbelow

theorem Represents.queues (h : m.Represents rate) : m.Queues rate :=
  ⟨h.keyed, h.disjoint, h.entries, h.sorted⟩

theorem queues_empty (maxSize : ℤ) : Queues rate { maxSize := maxSize } where
  keyed := by simp
  disjoint := by simp
  entries := by simp
  sorted := List.Pairwise.nil

theorem Queues.exists_get? (h : m.Queues rate) {p : PriorityEntry} (hp : p ∈ m.priority) :
    ∃ tx, m.transactions.get? p.txHash = some tx ∧ p = entry rate p.txHash tx := by
  have hmem : p ∈ m.priority.filter fun q => q.txHash = p.txHash :=
    List.mem_filter.mpr ⟨hp, by simp⟩
  rw [h.entries, Option.mem_toList, Option.map_eq_some_iff] at hmem
  obtain ⟨tx, hget, hentry⟩ := hmem
  exact ⟨tx, hget, hentry.symm⟩

theorem Queues.mem_queued (h : m.Queues rate) {tx : Transaction} : tx ∈ m.queued ↔ m.Holds tx := by
  rw [queued, List.mem_filterMap]
  constructor
  · rintro ⟨p, -, hp⟩
    exact ⟨p.txHash, hp⟩
  · rintro ⟨k, hk⟩
    have hentry : entry rate k tx ∈ m.priority.filter fun p => p.txHash = k := by
      rw [h.entries, hk]
      exact List.mem_singleton_self _
    exact ⟨entry rate k tx, List.mem_of_mem_filter hentry, hk⟩

theorem Queues.pairwise_queued (h : m.Queues rate) :
    m.queued.Pairwise fun tx tx' => Precedes rate tx tx' ∧ SpendApart tx tx' := by
  rw [queued, List.pairwise_filterMap]
  apply h.sorted.imp_of_mem
  intro p q hp hq hbelow tx htx tx' htx'
  obtain ⟨u, hu, hpentry⟩ := h.exists_get? hp
  obtain ⟨u', hu', hqentry⟩ := h.exists_get? hq
  obtain rfl := Option.some.inj (hu.symm.trans htx)
  obtain rfl := Option.some.inj (hu'.symm.trans htx')
  refine ⟨⟨p.txHash, q.txHash, h.keyed _ _ hu, h.keyed _ _ hu', ?_⟩, ?_⟩
  · rwa [← hpentry, ← hqentry]
  · apply h.disjoint _ _ _ _ hu hu'
    intro hsame
    rw [hsame, hu'] at hu
    obtain rfl := Option.some.inj hu
    rw [hpentry, hqentry, hsame] at hbelow
    exact hbelow.asymm hbelow

/-- Different held transactions in order that spend apart, within the limit, and nothing else that
is held fits beside them. A negative limit selects nothing. -/
structure Selects (rate : ℤ → ℕ → ℚ) (m : Mempool) (maxSize : ℤ) (txs : List Transaction) :
    Prop where
  held : ∀ tx ∈ txs, m.Holds tx
  distinct : txs.Nodup
  ordered : txs.Pairwise (Precedes rate)
  apart : txs.Pairwise SpendApart
  within : 0 ≤ maxSize → (txs.map fun tx => (tx.size : ℤ)).sum ≤ maxSize
  negative : maxSize < 0 → txs = []
  maximal : ∀ tx, m.Holds tx → tx ∉ txs →
    maxSize < tx.size + (txs.map fun tx => (tx.size : ℤ)).sum

theorem Queues.selects (h : m.Queues rate) (maxSize : ℤ) :
    m.Selects rate maxSize (m.getTransactionsWithin maxSize) := by
  rw [getTransactionsWithin_eq_fill]
  have hsub := Packing.fill_sublist (fun tx : Transaction => (tx.size : ℤ)) maxSize 0 m.queued
  have hpairs := h.pairwise_queued.sublist hsub
  have hordered : (Packing.fill (fun tx : Transaction => (tx.size : ℤ)) maxSize 0
      m.queued).Pairwise (Precedes rate) := hpairs.imp And.left
  constructor
  · intro tx htx
    exact h.mem_queued.mp (hsub.subset htx)
  · exact hordered.imp Precedes.ne
  · exact hordered
  · exact hpairs.imp And.right
  · intro hlimit
    have hsum := Packing.sum_fill_le (fun tx : Transaction => (tx.size : ℤ)) m.queued hlimit
    rwa [zero_add] at hsum
  · exact Packing.fill_of_lt fun b _ => Int.natCast_nonneg b.size
  · intro tx hheld hskipped
    have hlt := Packing.lt_of_notMem_fill (fun b _ => Int.natCast_nonneg b.size)
      (h.mem_queued.mpr hheld) hskipped
    rw [zero_add, add_comm] at hlt
    exact hlt

/-- A pool that has no room for anything. -/
structure Closed (m : Mempool) : Prop where
  maxSize : m.maxSize < 0
  currentSize : m.currentSize = 0
  transactions : m.transactions = ∅

theorem Closed.act (h : m.Closed) (c : Command) : c.act rate m = m := by
  have hget : ∀ txHash, m.transactions.get? txHash = none := by
    intro txHash
    rw [h.transactions]
    rfl
  have hremove : ∀ txHash, removeTransaction txHash m = (none, m) := by
    intro txHash
    rw [removeTransaction, hget]
  cases c with
  | add tx =>
    rw [Command.act]
    rcases addTransactionBy_cases rate tx m with hsame | ⟨k, -, -, hfits, -⟩
    · exact hsame
    · have hmax := h.maxSize
      rw [h.currentSize] at hfits
      omega
  | remove txHash =>
    rw [Command.act, hremove]
  | clearConfirmed confirmedHashes =>
    rw [Command.act]
    induction confirmedHashes with
    | nil => rfl
    | cons txHash hashes ih =>
      rw [Mempool.clearConfirmed, hremove]
      exact ih

theorem queues_runs (rate : ℤ → ℕ → ℚ) (maxSizeMb : ℤ) (cs : List Command) :
    (runs (Command.act rate) cs { maxSize := maxSizeMb * 1024 * 1024 }).Queues rate := by
  rcases le_or_gt 0 maxSizeMb with hsize | hsize
  · obtain ⟨n, rfl⟩ := Int.eq_ofNat_of_zero_le hsize
    exact (represents_runs rate n cs).queues
  · have hclosed : Closed { maxSize := maxSizeMb * 1024 * 1024 } := ⟨by simp only; omega, rfl, rfl⟩
    have hrun : runs (Command.act rate) cs { maxSize := maxSizeMb * 1024 * 1024 } =
        { maxSize := maxSizeMb * 1024 * 1024 } := by
      induction cs with
      | nil => rfl
      | cons c cs ih => rw [runs_cons, hclosed.act, ih]
    rw [hrun]
    exact queues_empty _

/-- Whatever was done to a pool, the candidates for a block are selected in the order of the
rounded quotients. -/
theorem getTransactionsWithin_selects (maxSizeMb : ℤ) (cs : List Command) (maxSize : ℤ) :
    (runs (Command.act floatRate) cs { maxSize := maxSizeMb * 1024 * 1024 }).Selects floatRate maxSize
      ((runs (Command.act floatRate) cs
        { maxSize := maxSizeMb * 1024 * 1024 }).getTransactionsWithin maxSize) :=
  (queues_runs floatRate maxSizeMb cs).selects maxSize

/-- The pool holds exactly these transactions. -/
structure Filled (m : Mempool) (txs : List Transaction) : Prop where
  currentSize : m.currentSize = (txs.map fun tx => (tx.size : ℤ)).sum
  spentOutputs : ∀ k ∈ m.spentOutputs, ∃ tx ∈ txs, k ∈ tx.refs
  transactions : ∀ h tx, m.transactions.get? h = some tx ↔ tx ∈ txs ∧ tx.txHash = .ok h

/-- Neither the hash nor an output in common. -/
def Unrelated (tx tx' : Transaction) : Prop := tx.txHash ≠ tx'.txHash ∧ SpendApart tx tx'

theorem Filled.add {txs : List Transaction} (hm : m.Filled txs) (rate : ℤ → ℕ → ℚ) {tx : Transaction}
    (hpackable : tx.Packable) (hnew : ∀ tx' ∈ txs, Unrelated tx' tx)
    (hroom : ((txs ++ [tx]).map fun tx => (tx.size : ℤ)).sum ≤ m.maxSize) :
    ((Command.add tx).act rate m).Filled (txs ++ [tx]) ∧
      ((Command.add tx).act rate m).maxSize = m.maxSize := by
  obtain ⟨h, hh⟩ := tx.txHash_returns.mpr hpackable
  have hsum : ((txs ++ [tx]).map fun tx => (tx.size : ℤ)).sum = m.currentSize + tx.size := by
    rw [hm.currentSize, List.map_append, List.sum_append]
    simp
  have habsent : m.transactions.get? h = none := by
    rw [Option.eq_none_iff_forall_ne_some]
    intro tx' htx'
    obtain ⟨hmem, hhash⟩ := (hm.transactions h tx').mp htx'
    exact (hnew tx' hmem).1 (hhash.trans hh.symm)
  have hunspent : ∀ k ∈ tx.refs, k ∉ m.spentOutputs := by
    intro k hk hin
    obtain ⟨tx', htx', hk'⟩ := hm.spentOutputs k hin
    exact (hnew tx' htx').2 hk' hk
  rw [Command.act, addTransactionBy_of_new rate hh habsent (hsum ▸ hroom) hunspent]
  refine ⟨⟨hsum.symm, ?_, ?_⟩, rfl⟩
  · intro k hk
    rcases Finset.mem_union.mp hk with hold | hself
    · obtain ⟨tx', htx', hk'⟩ := hm.spentOutputs k hold
      exact ⟨tx', List.mem_append_left _ htx', hk'⟩
    · exact ⟨tx, List.mem_append_right _ (List.mem_singleton_self tx), List.mem_toFinset.mp hself⟩
  · intro k tx'
    rw [OrderedDict.get?_set_eq_some, hm.transactions, List.mem_append, List.mem_singleton]
    constructor
    · rintro (⟨rfl, rfl⟩ | ⟨-, hmem, hhash⟩)
      · exact ⟨Or.inr rfl, hh⟩
      · exact ⟨Or.inl hmem, hhash⟩
    · rintro ⟨hmem | rfl, hhash⟩
      · refine Or.inr ⟨?_, hmem, hhash⟩
        rintro rfl
        exact (hnew tx' hmem).1 (hhash.trans hh.symm)
      · exact Or.inl ⟨Except.ok.inj (hhash.symm.trans hh), rfl⟩

theorem filled_runs (rate : ℤ → ℕ → ℚ) {maxSize : ℤ} {txs : List Transaction}
    (hpackable : ∀ tx ∈ txs, tx.Packable) (hunrelated : txs.Pairwise Unrelated)
    (hroom : (txs.map fun tx => (tx.size : ℤ)).sum ≤ maxSize) :
    (runs (Command.act rate) (txs.map Command.add) { maxSize := maxSize }).Filled txs ∧
      (runs (Command.act rate) (txs.map Command.add) { maxSize := maxSize }).maxSize = maxSize := by
  induction txs using List.reverseRecOn with
  | nil => exact ⟨⟨rfl, by simp, by simp⟩, rfl⟩
  | append_singleton txs tx ih =>
    obtain ⟨hbefore, -, hlast⟩ := List.pairwise_append.mp hunrelated
    have hless : (txs.map fun tx => (tx.size : ℤ)).sum ≤ maxSize := by
      rw [List.map_append, List.sum_append, List.map_singleton, List.sum_singleton] at hroom
      omega
    obtain ⟨hm, hsize⟩ := ih (fun tx' htx => hpackable tx' (List.mem_append_left _ htx)) hbefore hless
    have hself : tx ∈ txs ++ [tx] := List.mem_append_right _ (List.mem_singleton_self tx)
    rw [List.map_append, List.map_singleton, runs_append_singleton]
    have hadd := hm.add rate (hpackable tx hself)
      (fun tx' htx => hlast tx' htx tx (List.mem_singleton_self tx)) (by rw [hsize]; exact hroom)
    rw [hsize] at hadd
    exact hadd

theorem Filled.holds_iff {txs : List Transaction} (hm : m.Filled txs)
    (hpackable : ∀ tx ∈ txs, tx.Packable) {tx : Transaction} : m.Holds tx ↔ tx ∈ txs := by
  constructor
  · rintro ⟨h, hget⟩
    exact ((hm.transactions h tx).mp hget).1
  · intro hmem
    obtain ⟨h, hh⟩ := tx.txHash_returns.mpr (hpackable tx hmem)
    exact ⟨h, (hm.transactions h tx).mpr ⟨hmem, hh⟩⟩

theorem Filled.perm_getTransactionsWithin {txs : List Transaction} (hm : m.Filled txs)
    (hqueues : m.Queues rate) (hpackable : ∀ tx ∈ txs, tx.Packable) (hnodup : txs.Nodup)
    {maxSize : ℤ} (hfits : (txs.map fun tx => (tx.size : ℤ)).sum ≤ maxSize) :
    (m.getTransactionsWithin maxSize).Perm txs := by
  have hqueued : m.queued.Perm txs := by
    rw [List.perm_ext_iff_of_nodup (hqueues.pairwise_queued.imp fun h => h.1.ne) hnodup]
    intro tx
    rw [hqueues.mem_queued, hm.holds_iff hpackable]
  rw [getTransactionsWithin_eq_fill, Packing.fill_eq_self (fun b _ => Int.natCast_nonneg b.size)]
  · exact hqueued
  · rw [zero_add, (hqueued.map _).sum_eq]
    exact hfits

/-- A pool that was given unrelated transactions offers all of them if they fit into a block. -/
theorem perm_getTransactionsForBlock_runs (maxSizeMb : ℤ) {maxSize : ℕ} {txs : List Transaction}
    (hpackable : ∀ tx ∈ txs, tx.Packable) (hunrelated : txs.Pairwise Unrelated)
    (hroom : (txs.map fun tx => (tx.size : ℤ)).sum ≤ maxSizeMb * 1024 * 1024)
    (hfits : (txs.map fun tx => (tx.size : ℤ)).sum ≤ maxSize) :
    ((runs (Command.act floatRate) (txs.map Command.add)
      { maxSize := maxSizeMb * 1024 * 1024 }).getTransactionsForBlock maxSize).Perm txs := by
  rw [← getTransactionsWithin_natCast]
  refine (filled_runs floatRate hpackable hunrelated hroom).1.perm_getTransactionsWithin
    (queues_runs floatRate maxSizeMb _) hpackable ?_ hfits
  exact hunrelated.imp fun h heq => h.1 (congrArg Transaction.txHash heq)

/-- A transaction of 118 bytes with nothing but a fee and a time. -/
def priced (fee timestamp : ℤ) : Transaction where
  version := 1
  txType := .coinbase
  inputs := []
  outputs := [{ value := 1000, address := List.replicate 64 1 }]
  epoch := 0
  timestamp := timestamp
  fee := fee
  nonce := List.replicate 8 0

/-- Two fees whose quotients round to the same number. -/
def twoPriced : List Transaction := [priced (2 ^ 60) 1, priced (2 ^ 60 + 1) 0]

theorem filled_twoPriced (rate : ℤ → ℕ → ℚ) :
    (runs (Command.act rate) (twoPriced.map Command.add)
      { maxSize := 100 * 1024 * 1024 }).Filled twoPriced := by
  have hhash : (priced (2 ^ 60) 1).txHash ≠ (priced (2 ^ 60 + 1) 0).txHash := by decide +kernel
  have hunrelated : twoPriced.Pairwise Unrelated := by
    rw [twoPriced, List.pairwise_pair]
    exact ⟨hhash, fun k hk => by cases hk⟩
  exact (filled_runs rate (by decide) hunrelated (by decide)).1

/-- The smaller fee comes first by its timestamp, which the exact quotients forbid. -/
theorem not_selects_exact :
    ¬ (runs (Command.act floatRate) (twoPriced.map Command.add)
      { maxSize := 100 * 1024 * 1024 }).Selects exactRate 4194304
        ((runs (Command.act floatRate) (twoPriced.map Command.add)
          { maxSize := 100 * 1024 * 1024 }).getTransactionsWithin 4194304) := by
  intro hexact
  have hqueues := queues_runs floatRate 100 (twoPriced.map Command.add)
  have hperm := (filled_twoPriced floatRate).perm_getTransactionsWithin hqueues (by decide)
    (by decide) (by decide : _ ≤ (4194304 : ℤ))
  have hrounded := (hqueues.selects 4194304).ordered
  have hordered := hexact.ordered
  rcases List.perm_pair.mp hperm with hlist | hlist
  · rw [hlist, List.pairwise_pair] at hordered
    obtain ⟨h, h', -, -, hbelow⟩ := hordered
    have hrate : exactRate (2 ^ 60) 118 < exactRate (2 ^ 60 + 1) 118 := by
      norm_num [exactRate]
    rcases hbelow with hlt | ⟨heq, -⟩
    · exact lt_asymm hrate hlt
    · exact hrate.ne' heq
  · rw [hlist, List.pairwise_pair] at hrounded
    obtain ⟨h, h', -, -, hbelow⟩ := hrounded
    have hrate : floatRate (2 ^ 60) 118 = floatRate (2 ^ 60 + 1) 118 := by decide +kernel
    rcases hbelow with hlt | ⟨-, htime | ⟨htime, -⟩⟩
    · exact hlt.ne hrate
    · exact absurd htime (by decide : ¬ (1 : ℤ) < 0)
    · exact absurd htime (by decide : ¬ (1 : ℤ) = 0)

end Mempool

end Qrtb
