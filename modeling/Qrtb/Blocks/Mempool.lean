import Qrtb.Ledger.Transaction
import Qrtb.Lib.OrderedDict
import Qrtb.Lib.Transition
import Mathlib.Data.Finset.Basic

/-!
# The mempool (`Mempool` in `src/transaction.py`)

Transactions wait under their hash, with a queue sorted by fee rate and the set
of outputs they spend. Any two transactions in a pool reached from the empty one
spend different outputs; nothing is said about one transaction on its own.
-/

namespace Qrtb

structure PriorityEntry where
  feeRate : ℚ
  timestamp : ℤ
  txHash : Bytes
  deriving DecidableEq

/-- Tuples compare component by component. -/
def PriorityEntry.le (a b : PriorityEntry) : Bool :=
  a.feeRate < b.feeRate || (a.feeRate == b.feeRate &&
    (a.timestamp < b.timestamp || (a.timestamp == b.timestamp && !(b.txHash < a.txHash : Bool))))

structure Mempool where
  maxSize : ℤ := 100 * 1024 * 1024
  currentSize : ℤ := 0
  transactions : OrderedDict Bytes Transaction := ∅
  priority : List PriorityEntry := []
  spentOutputs : Finset OutRef := ∅
  deriving DecidableEq

namespace Mempool

def Holds (m : Mempool) (tx : Transaction) : Prop := ∃ h, m.transactions.get? h = some tx

/-- The queue is sorted again after every insertion, highest fee first. -/
def enqueue (entry : PriorityEntry) (priority : List PriorityEntry) : List PriorityEntry :=
  (priority ++ [entry]).mergeSort fun a b => b.le a

def addTransaction (tx : Transaction) (m : Mempool) : Except PyError (Bool × String) × Mempool :=
  match tx.txHash with
  | .error e => (.error e, m)
  | .ok txHash =>
    if m.transactions.contains txHash then (.ok (false, "already in mempool"), m)
    else if m.currentSize + tx.size > m.maxSize then (.ok (false, "mempool full"), m)
    else if ∃ k ∈ tx.refs, k ∈ m.spentOutputs then (.ok (false, "double-spend detected"), m)
    else
      (.ok (true, "added"),
        { m with
          transactions := m.transactions.set txHash tx
          currentSize := m.currentSize + tx.size
          spentOutputs := m.spentOutputs ∪ tx.refs.toFinset
          priority := enqueue ⟨trueDiv tx.fee tx.size, tx.timestamp, txHash⟩ m.priority })

def removeTransaction (txHash : Bytes) (m : Mempool) : Option Transaction × Mempool :=
  match m.transactions.get? txHash with
  | none => (none, m)
  | some tx =>
    (some tx,
      { m with
        transactions := m.transactions.erase txHash
        currentSize := m.currentSize - tx.size
        spentOutputs := m.spentOutputs \ tx.refs.toFinset
        priority := m.priority.filter fun p => p.txHash ≠ txHash })

/-- The selection loop: entries without a transaction and transactions that do not fit are
skipped. -/
def selectForBlock (m : Mempool) (maxSize : ℕ) : ℕ → List PriorityEntry → List Transaction
  | _, [] => []
  | totalSize, entry :: entries =>
    match m.transactions.get? entry.txHash with
    | none => m.selectForBlock maxSize totalSize entries
    | some tx =>
      if totalSize + tx.size > maxSize then m.selectForBlock maxSize totalSize entries
      else tx :: m.selectForBlock maxSize (totalSize + tx.size) entries

def getTransactionsForBlock (m : Mempool) (maxSize : ℕ) : List Transaction :=
  m.selectForBlock maxSize 0 m.priority

/-- Remove every confirmed transaction and count those that were there. -/
def clearConfirmed : List Bytes → Mempool → ℕ × Mempool
  | [], m => (0, m)
  | txHash :: hashes, m =>
    match removeTransaction txHash m with
    | (none, m') => clearConfirmed hashes m'
    | (some _, m') =>
      let rest := clearConfirmed hashes m'
      (rest.1 + 1, rest.2)

theorem removeTransaction_comm (h h' : Bytes) (m : Mempool) :
    (removeTransaction h' (removeTransaction h m).2).2 =
      (removeTransaction h (removeTransaction h' m).2).2 := by
  by_cases heq : h = h'
  · rw [heq]
  have hne : ¬ h' = h := fun e => heq e.symm
  cases hget : m.transactions.get? h with
  | none =>
    cases hget' : m.transactions.get? h' with
    | none => simp [removeTransaction, hget, hget']
    | some tx' => simp [removeTransaction, hget, hget', OrderedDict.get?_erase]
  | some tx =>
    cases hget' : m.transactions.get? h' with
    | none => simp [removeTransaction, hget, hget', OrderedDict.get?_erase]
    | some tx' =>
      simp [removeTransaction, hget, hget', OrderedDict.get?_erase, heq, hne,
        OrderedDict.erase_comm _ h h', sub_right_comm, sdiff_right_comm, Bool.and_comm]

/-- The pool after a clean-up does not depend on the order of the confirmed hashes. -/
theorem clearConfirmed_perm {hashes hashes' : List Bytes} (hp : hashes.Perm hashes') (m : Mempool) :
    (clearConfirmed hashes m).2 = (clearConfirmed hashes' m).2 := by
  have hfold : ∀ (hashes : List Bytes) (m : Mempool), (clearConfirmed hashes m).2 =
      hashes.foldl (fun m h => (removeTransaction h m).2) m := by
    intro hashes
    induction hashes with
    | nil => intro m; rfl
    | cons h hashes ih =>
      intro m
      rw [List.foldl_cons, ← ih, clearConfirmed]
      rcases removeTransaction h m with ⟨- | tx, m'⟩
      · rfl
      · rfl
  rw [hfold, hfold]
  apply hp.foldl_eq'
  intro h _ h' _ m
  exact removeTransaction_comm h h' m

/-- The two operations that change a pool. -/
inductive Op where
  | add (tx : Transaction)
  | remove (txHash : Bytes)

def Step (m : Mempool) : Op → Mempool → Prop
  | .add tx, m' => (addTransaction tx m).2 = m'
  | .remove txHash, m' => (removeTransaction txHash m).2 = m'

/-- The pool some sequence of operations on an empty pool of some size ends in. -/
def Reachable (m : Mempool) : Prop :=
  ∃ (size : ℤ) (ops : List Op), Transition.Run Step { maxSize := size } ops m

structure Inv (m : Mempool) : Prop where
  keyed : ∀ h tx, m.transactions.get? h = some tx → tx.txHash = .ok h
  tracked : ∀ h tx, m.transactions.get? h = some tx → ∀ k ∈ tx.refs, k ∈ m.spentOutputs
  disjoint : ∀ h h' tx tx', m.transactions.get? h = some tx → m.transactions.get? h' = some tx' →
    h ≠ h' → tx.refs.Disjoint tx'.refs
  queued : (m.priority.map PriorityEntry.txHash).Nodup
  held : ∀ p ∈ m.priority, ∃ tx, m.transactions.get? p.txHash = some tx

theorem inv_empty (size : ℤ) : Inv { maxSize := size } := by
  constructor <;> simp

theorem perm_enqueue (entry : PriorityEntry) (priority : List PriorityEntry) :
    (enqueue entry priority).Perm (entry :: priority) :=
  (List.mergeSort_perm _ _).trans (List.perm_append_singleton entry priority)

/-- What an addition can do: raise, refuse, or enter a transaction that shares no output. -/
theorem addTransaction_cases (tx : Transaction) (m : Mempool) :
    (∃ e, tx.txHash = .error e ∧ addTransaction tx m = (.error e, m)) ∨
    ∃ h, tx.txHash = .ok h ∧
      ((∃ reason, addTransaction tx m = (.ok (false, reason), m)) ∨
        m.transactions.get? h = none ∧ (∀ k ∈ tx.refs, k ∉ m.spentOutputs) ∧
          addTransaction tx m =
            (.ok (true, "added"),
              { m with
                transactions := m.transactions.set h tx
                currentSize := m.currentSize + tx.size
                spentOutputs := m.spentOutputs ∪ tx.refs.toFinset
                priority := enqueue ⟨trueDiv tx.fee tx.size, tx.timestamp, h⟩ m.priority })) := by
  unfold addTransaction
  cases hh : tx.txHash with
  | error e => exact Or.inl ⟨e, rfl, rfl⟩
  | ok h =>
    refine Or.inr ⟨h, rfl, ?_⟩
    dsimp only
    split_ifs with hin hfull hspent
    · exact Or.inl ⟨_, rfl⟩
    · exact Or.inl ⟨_, rfl⟩
    · exact Or.inl ⟨_, rfl⟩
    · refine Or.inr ⟨?_, ?_, rfl⟩
      · simpa [OrderedDict.contains] using hin
      · intro k hk hks
        exact hspent ⟨k, hk, hks⟩

theorem Inv.queued_cons {m : Mempool} (hm : m.Inv) {h : Bytes} (hnew : m.transactions.get? h = none)
    (feeRate : ℚ) (timestamp : ℤ) :
    ((⟨feeRate, timestamp, h⟩ :: m.priority).map PriorityEntry.txHash).Nodup := by
  rw [List.map_cons, List.nodup_cons]
  refine ⟨?_, hm.queued⟩
  intro hmem
  obtain ⟨p, hp, hph⟩ := List.mem_map.mp hmem
  obtain ⟨tx', hget⟩ := hm.held p hp
  rw [hph, hnew] at hget
  cases hget

theorem Inv.addTransaction {m : Mempool} (hm : m.Inv) (tx : Transaction) :
    (addTransaction tx m).2.Inv := by
  rcases addTransaction_cases tx m with ⟨e, -, he⟩ | ⟨h, hh, ⟨reason, he⟩ | ⟨hnew, hfree, he⟩⟩
  · rwa [he]
  · rwa [he]
  rw [he]
  have hperm := perm_enqueue ⟨trueDiv tx.fee tx.size, tx.timestamp, h⟩ m.priority
  constructor
  · exact OrderedDict.forall_get?_set hh hm.keyed
  · apply OrderedDict.forall_get?_set
    · intro k hk
      exact Finset.mem_union_right _ (List.mem_toFinset.mpr hk)
    · intro h' tx' hget k hk
      exact Finset.mem_union_left _ (hm.tracked h' tx' hget k hk)
  · apply OrderedDict.pairwise_get?_set (fun _ _ hdisj => hdisj.symm) _ hm.disjoint
    intro h' tx' hget k hk hk'
    exact hfree k hk' (hm.tracked h' tx' hget k hk)
  · have hnodup := hm.queued_cons hnew (trueDiv tx.fee tx.size) tx.timestamp
    exact (hperm.map PriorityEntry.txHash).nodup_iff.mpr hnodup
  · intro p hp
    rcases List.mem_cons.mp (hperm.mem_iff.mp hp) with rfl | hp
    · exact ⟨tx, OrderedDict.get?_set_self _ _ _⟩
    · obtain ⟨tx', hget⟩ := hm.held p hp
      have hne : p.txHash ≠ h := by
        intro heq
        rw [heq, hnew] at hget
        cases hget
      exact ⟨tx', (OrderedDict.get?_set_of_ne _ hne _).trans hget⟩

theorem Inv.removeTransaction {m : Mempool} (hm : m.Inv) (h : Bytes) :
    (removeTransaction h m).2.Inv := by
  unfold Mempool.removeTransaction
  cases hget : m.transactions.get? h with
  | none => exact hm
  | some tx =>
    constructor
    · intro h' tx' hget'
      exact hm.keyed h' tx' (OrderedDict.get?_erase_eq_some.mp hget').2
    · intro h' tx' hget' k hk
      obtain ⟨hne, hget'⟩ := OrderedDict.get?_erase_eq_some.mp hget'
      rw [Finset.mem_sdiff, List.mem_toFinset]
      refine ⟨hm.tracked h' tx' hget' k hk, ?_⟩
      intro hk'
      exact hm.disjoint h' h tx' tx hget' hget hne hk hk'
    · intro a b txa txb ha hb hne
      exact hm.disjoint a b txa txb (OrderedDict.get?_erase_eq_some.mp ha).2
        (OrderedDict.get?_erase_eq_some.mp hb).2 hne
    · exact hm.queued.sublist (List.filter_sublist.map _)
    · intro p hp
      obtain ⟨hp, hne⟩ := List.mem_filter.mp hp
      obtain ⟨tx', hget'⟩ := hm.held p hp
      exact ⟨tx', OrderedDict.get?_erase_eq_some.mpr ⟨by simpa using hne, hget'⟩⟩

theorem Reachable.inv {m : Mempool} (h : m.Reachable) : m.Inv := by
  obtain ⟨size, ops, hrun⟩ := h
  apply hrun.invariant (I := Inv) _ (inv_empty size)
  intro m op m' hm hstep
  cases op with
  | add tx =>
    obtain rfl : (addTransaction tx m).2 = m' := hstep
    exact hm.addTransaction tx
  | remove h =>
    obtain rfl : (removeTransaction h m).2 = m' := hstep
    exact hm.removeTransaction h

/-- Two transactions that refer to no common output. -/
def SpendApart (tx tx' : Transaction) : Prop := tx.refs.Disjoint tx'.refs

theorem selectForBlock_sublist (m : Mempool) (maxSize totalSize : ℕ)
    (entries : List PriorityEntry) :
    (m.selectForBlock maxSize totalSize entries).Sublist
      (entries.filterMap fun p => m.transactions.get? p.txHash) := by
  induction entries generalizing totalSize with
  | nil => exact List.Sublist.refl _
  | cons p entries ih =>
    cases hp : m.transactions.get? p.txHash with
    | none =>
      simp only [selectForBlock, List.filterMap_cons, hp]
      exact ih totalSize
    | some tx =>
      simp only [selectForBlock, List.filterMap_cons, hp]
      split_ifs
      · exact (ih totalSize).cons tx
      · exact (ih (totalSize + tx.size)).cons_cons tx

theorem Inv.pairwise_filterMap {m : Mempool} (hm : m.Inv) {entries : List PriorityEntry}
    (hn : (entries.map PriorityEntry.txHash).Nodup) :
    (entries.filterMap fun p => m.transactions.get? p.txHash).Pairwise SpendApart := by
  rw [List.pairwise_filterMap]
  apply (List.pairwise_map.mp hn).imp
  intro p q hne tx hp tx' hq
  exact hm.disjoint p.txHash q.txHash tx tx' hp hq hne

/-- The candidates for a block come from the pool and spend pairwise different outputs. -/
theorem Inv.candidates {m : Mempool} (hm : m.Inv) (maxSize : ℕ) :
    (m.getTransactionsForBlock maxSize).Pairwise SpendApart ∧
      ∀ tx ∈ m.getTransactionsForBlock maxSize, tx.Packable := by
  have hsub := m.selectForBlock_sublist maxSize 0 m.priority
  refine ⟨(hm.pairwise_filterMap hm.queued).sublist hsub, ?_⟩
  intro tx htx
  obtain ⟨p, -, hp⟩ := List.mem_filterMap.mp (hsub.subset htx)
  exact tx.txHash_returns.mp ⟨_, hm.keyed _ tx hp⟩

end Mempool

end Qrtb
