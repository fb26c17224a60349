import Qrtb.Blocks.Mempool

/-!
# The representation of the mempool (`Mempool` in `src/transaction.py`)

A pool stores its contents four times over: by hash, as a size, as the set of spent
outputs and as the sorted queue. Every sequence of additions, removals and clean-ups
leaves the four in agreement. The rate at which a transaction is queued is a
parameter: the float of the source and the exact quotient are two values of it.
-/

namespace Qrtb

open Transition

namespace PriorityEntry

/-- Strictly before in the order of tuples. -/
def Below (a b : PriorityEntry) : Prop :=
  a.feeRate < b.feeRate ∨ (a.feeRate = b.feeRate ∧
    (a.timestamp < b.timestamp ∨ (a.timestamp = b.timestamp ∧ a.txHash < b.txHash)))

variable {a b c : PriorityEntry}

theorem Below.asymm (h : a.Below b) : ¬ b.Below a := by
  rintro (h' | ⟨hrate', h'⟩)
  · rcases h with h | ⟨hrate, -⟩
    · exact lt_asymm h h'
    · exact h'.ne' hrate
  · rcases h with h | ⟨-, h⟩
    · exact h.ne' hrate'
    · rcases h with h | ⟨htime, h⟩
      · rcases h' with h' | ⟨htime', -⟩ <;> omega
      · rcases h' with h' | ⟨-, h'⟩
        · omega
        · exact List.lt_asymm h h'

theorem Below.trans (h : a.Below b) (h' : b.Below c) : a.Below c := by
  rcases h with h | ⟨hrate, h⟩
  · rcases h' with h' | ⟨hrate', -⟩
    · exact Or.inl (h.trans h')
    · exact Or.inl (hrate' ▸ h)
  · rcases h' with h' | ⟨hrate', h'⟩
    · exact Or.inl (hrate ▸ h')
    · refine Or.inr ⟨hrate.trans hrate', ?_⟩
      rcases h with h | ⟨htime, h⟩
      · rcases h' with h' | ⟨htime', -⟩ <;> exact Or.inl (by omega)
      · rcases h' with h' | ⟨htime', h'⟩
        · exact Or.inl (by omega)
        · exact Or.inr ⟨htime.trans htime', List.lt_trans h h'⟩

theorem below_trichotomy (a b : PriorityEntry) : a.Below b ∨ a = b ∨ b.Below a := by
  rcases lt_trichotomy a.feeRate b.feeRate with h | hrate | h
  · exact Or.inl (Or.inl h)
  · rcases lt_trichotomy a.timestamp b.timestamp with h | htime | h
    · exact Or.inl (Or.inr ⟨hrate, Or.inl h⟩)
    · by_cases hlt : a.txHash < b.txHash
      · exact Or.inl (Or.inr ⟨hrate, Or.inr ⟨htime, hlt⟩⟩)
      · by_cases hgt : b.txHash < a.txHash
        · exact Or.inr (Or.inr (Or.inr ⟨hrate.symm, Or.inr ⟨htime.symm, hgt⟩⟩))
        · have hhash : a.txHash = b.txHash := List.le_antisymm hgt hlt
          cases a
          cases b
          simp_all
    · exact Or.inr (Or.inr (Or.inr ⟨hrate.symm, Or.inl h⟩))
  · exact Or.inr (Or.inr (Or.inl h))

theorem le_iff : a.le b = true ↔ ¬ b.Below a := by
  rcases below_trichotomy a b with h | rfl | h
  · refine iff_of_true ?_ h.asymm
    rcases h with h | ⟨hrate, h | ⟨htime, h⟩⟩
    · simp [le, h]
    · simp [le, hrate, h]
    · simp [le, hrate, htime, List.lt_asymm h]
  · refine iff_of_true ?_ fun h => h.asymm h
    simp [le, List.lt_irrefl]
  · refine iff_of_false ?_ fun hn => hn h
    rcases h with h | ⟨hrate, h | ⟨htime, h⟩⟩
    · simp [le, h.ne', h.le]
    · simp [le, hrate, h.ne', h.le]
    · simp [le, hrate, htime, h]

theorem le_trans (h : a.le b = true) (h' : b.le c = true) : a.le c = true := by
  rw [le_iff] at h h' ⊢
  intro hca
  rcases below_trichotomy a b with hab | rfl | hba
  · exact h' (hca.trans hab)
  · exact h' hca
  · exact h hba

theorem le_total (a b : PriorityEntry) : (a.le b || b.le a) = true := by
  rw [Bool.or_eq_true, le_iff, le_iff]
  by_contra h
  push Not at h
  exact h.1.asymm h.2

theorem below_of_le (h : a.le b = true) (hne : a.txHash ≠ b.txHash) : a.Below b := by
  rcases below_trichotomy a b with hab | rfl | hba
  · exact hab
  · exact absurd rfl hne
  · exact absurd hba (le_iff.mp h)

end PriorityEntry

namespace Mempool

theorem sorted_enqueue (entry : PriorityEntry) (priority : List PriorityEntry) :
    (enqueue entry priority).Pairwise fun a b => b.le a = true := by
  apply List.pairwise_mergeSort
  · intro a b c hab hbc
    exact PriorityEntry.le_trans hbc hab
  · intro a b
    exact PriorityEntry.le_total b a

variable (rate : ℤ → ℕ → ℚ)

def entry (txHash : Bytes) (tx : Transaction) : PriorityEntry :=
  ⟨rate tx.fee tx.size, tx.timestamp, txHash⟩

/-- `add_transaction` with the division as a parameter. -/
def addTransactionBy (tx : Transaction) (m : Mempool) : Except PyError (Bool × String) × Mempool :=
  match tx.txHash with
  | .error e => (.error e, m)
  | .ok txHash =>
    if m.transactions.contains txHash then (.ok (false, "already in mempool"), m)
    else if m.currentSize + tx.size > m.maxSize then (.ok (false, "mempool full"), m)
    else if ∃ k ∈ tx.refs, k ∈ m.spentOutputs then (.ok (false, "double-spend detected"), m)
    else
      (.ok (true, "added"),
        { m with
          transactions := m.transactions.set txHash tx
          currentSize := m.currentSize + tx.size
          spentOutputs := m.spentOutputs ∪ tx.refs.toFinset
          priority := enqueue (entry rate txHash tx) m.priority })

def exactRate (fee : ℤ) (size : ℕ) : ℚ := fee / size

/-- The fee rate as the source computes it. -/
def floatRate (fee : ℤ) (size : ℕ) : ℚ := trueDiv fee size

theorem addTransactionBy_floatRate (tx : Transaction) (m : Mempool) :
    addTransactionBy floatRate tx m = addTransaction tx m := rfl

theorem addTransactionBy_cases (tx : Transaction) (m : Mempool) :
    (addTransactionBy rate tx m).2 = m ∨
    ∃ h, tx.txHash = .ok h ∧ m.transactions.get? h = none ∧
      m.currentSize + tx.size ≤ m.maxSize ∧ (∀ k ∈ tx.refs, k ∉ m.spentOutputs) ∧
      (addTransactionBy rate tx m).2 =
        { m with
          transactions := m.transactions.set h tx
          currentSize := m.currentSize + tx.size
          spentOutputs := m.spentOutputs ∪ tx.refs.toFinset
          priority := enqueue (entry rate h tx) m.priority } := by
  unfold addTransactionBy
  cases hh : tx.txHash with
  | error e => exact Or.inl rfl
  | ok h =>
    dsimp only
    split_ifs with hin hfull hspent
    · exact Or.inl rfl
    · exact Or.inl rfl
    · exact Or.inl rfl
    · refine Or.inr ⟨h, rfl, ?_, by omega, ?_, rfl⟩
      · simpa [OrderedDict.contains] using hin
      · intro k hk hks
        exact hspent ⟨k, hk, hks⟩

theorem addTransactionBy_of_new {tx : Transaction} {m : Mempool} {h : Bytes}
    (hh : tx.txHash = .ok h) (hnew : m.transactions.get? h = none)
    (hroom : m.currentSize + tx.size ≤ m.maxSize) (hspent : ∀ k ∈ tx.refs, k ∉ m.spentOutputs) :
    addTransactionBy rate tx m =
      (.ok (true, "added"),
        { m with
          transactions := m.transactions.set h tx
          currentSize := m.currentSize + tx.size
          spentOutputs := m.spentOutputs ∪ tx.refs.toFinset
          priority := enqueue (entry rate h tx) m.priority }) := by
  have hcontains : ¬ m.transactions.contains h = true := by simp [OrderedDict.contains, hnew]
  have hshared : ¬ ∃ k ∈ tx.refs, k ∈ m.spentOutputs := by
    rintro ⟨k, hk, hks⟩
    exact hspent k hk hks
  rw [addTransactionBy, hh]
  simp only [if_neg hcontains, if_neg (not_lt.mpr hroom), gt_iff_lt, if_neg hshared]

/-- Size, spent outputs and queue are those of the held transactions. -/
structure Represents (m : Mempool) : Prop where
  keyed : ∀ h tx, m.transactions.get? h = some tx → tx.txHash = .ok h
  size : m.currentSize = m.transactions.sumBy fun tx => (tx.size : ℤ)
  bounded : m.currentSize ≤ m.maxSize
  disjoint : ∀ h h' tx tx', m.transactions.get? h = some tx → m.transactions.get? h' = some tx' →
    h ≠ h' → tx.refs.Disjoint tx'.refs
  spent : ∀ k, k ∈ m.spentOutputs ↔ ∃ h tx, m.transactions.get? h = some tx ∧ k ∈ tx.refs
  entries : ∀ h, m.priority.filter (fun p => p.txHash = h) =
    ((m.transactions.get? h).map (entry rate h)).toList
  sorted : m.priority.Pairwise fun a b => b.Below a

variable {rate} {m : Mempool}

theorem represents_empty (maxSizeMb : ℕ) :
    Represents rate { maxSize := maxSizeMb * 1024 * 1024 } where
  keyed := by simp
  size := by
    rw [OrderedDict.sumBy_eq_sum_keys]
    rfl
  bounded := by
    dsimp only
    omega
  disjoint := by simp
  spent := by simp
  entries := by simp
  sorted := List.Pairwise.nil

/-- A queue with at most one entry for each hash that is sorted is strictly sorted. -/
theorem below_of_sorted {priority : List PriorityEntry}
    (hsorted : priority.Pairwise fun a b => b.le a = true)
    (hone : ∀ h, (priority.filter fun p => p.txHash = h).length ≤ 1) :
    priority.Pairwise fun a b => b.Below a := by
  have hnodup : (priority.map PriorityEntry.txHash).Nodup := by
    rw [List.nodup_iff_count_le_one]
    intro h
    rw [List.count, List.countP_map, List.countP_eq_length_filter]
    simpa [Function.comp_def, beq_eq_decide] using hone h
  apply List.Pairwise.imp₂ _ hsorted (List.pairwise_map.mp hnodup)
  intro a b hle hne
  exact PriorityEntry.below_of_le hle (Ne.symm hne)

theorem eq_toList_of_perm {α : Type} {xs : List α} {o : Option α} (h : xs.Perm o.toList) :
    xs = o.toList := by
  cases o with
  | none => exact List.perm_nil.mp h
  | some a => exact List.perm_singleton.mp h

theorem Represents.entries_enqueue (hm : m.Represents rate) {h : Bytes} {tx : Transaction}
    (hnew : m.transactions.get? h = none) (key : Bytes) :
    (enqueue (entry rate h tx) m.priority).filter (fun p => p.txHash = key) =
      (((m.transactions.set h tx).get? key).map (entry rate key)).toList := by
  apply eq_toList_of_perm
  refine ((perm_enqueue (entry rate h tx) m.priority).filter _).trans (List.Perm.of_eq ?_)
  by_cases hkey : key = h
  · subst hkey
    have hold : m.priority.filter (fun p => p.txHash = key) = [] := by
      rw [hm.entries, hnew]
      rfl
    rw [List.filter_cons_of_pos (by simp [entry]), hold, OrderedDict.get?_set_self]
    rfl
  · have hne : ¬ h = key := fun e => hkey e.symm
    rw [List.filter_cons_of_neg (by simp [entry, hne]), hm.entries,
      OrderedDict.get?_set_of_ne _ hkey]

theorem length_entries_le (o : Option Transaction) (h : Bytes) :
    (o.map (entry rate h)).toList.length ≤ 1 := by
  cases o with
  | none => exact Nat.zero_le 1
  | some tx => exact le_rfl

theorem Represents.add (hm : m.Represents rate) {h : Bytes} {tx : Transaction}
    (hh : tx.txHash = .ok h) (hnew : m.transactions.get? h = none)
    (hfits : m.currentSize + tx.size ≤ m.maxSize) (hfree : ∀ k ∈ tx.refs, k ∉ m.spentOutputs) :
    Represents rate { m with
      transactions := m.transactions.set h tx
      currentSize := m.currentSize + tx.size
      spentOutputs := m.spentOutputs ∪ tx.refs.toFinset
      priority := enqueue (entry rate h tx) m.priority } where
  keyed := OrderedDict.forall_get?_set hh hm.keyed
  size := by
    simp [OrderedDict.sumBy_set, OrderedDict.weightAt, hnew, hm.size]
  bounded := hfits
  disjoint := by
    apply OrderedDict.pairwise_get?_set (fun _ _ hdisj => hdisj.symm) _ hm.disjoint
    intro h' tx' hget k hk hk'
    exact hfree k hk' ((hm.spent k).mpr ⟨h', tx', hget, hk⟩)
  spent := by
    intro k
    rw [Finset.mem_union, List.mem_toFinset, hm.spent]
    constructor
    · rintro (⟨a, txa, ha, hk⟩ | hk)
      · have hne : a ≠ h := by
          rintro rfl
          rw [hnew] at ha
          cases ha
        exact ⟨a, txa, OrderedDict.get?_set_eq_some.mpr (Or.inr ⟨hne, ha⟩), hk⟩
      · exact ⟨h, tx, OrderedDict.get?_set_self .., hk⟩
    · rintro ⟨a, txa, ha, hk⟩
      rcases OrderedDict.get?_set_eq_some.mp ha with ⟨-, rfl⟩ | ⟨-, ha⟩
      · exact Or.inr hk
      · exact Or.inl ⟨a, txa, ha, hk⟩
  entries := hm.entries_enqueue hnew
  sorted := by
    apply below_of_sorted (sorted_enqueue ..)
    intro key
    rw [hm.entries_enqueue hnew]
    exact length_entries_le _ key

theorem Represents.removeTransaction (hm : m.Represents rate) (h : Bytes) :
    (removeTransaction h m).2.Represents rate := by
  unfold Mempool.removeTransaction
  cases hget : m.transactions.get? h with
  | none => exact hm
  | some tx =>
    constructor
    · intro h' tx' hget'
      exact hm.keyed h' tx' (OrderedDict.get?_erase_eq_some.mp hget').2
    · simp [OrderedDict.sumBy_erase, OrderedDict.weightAt, hget, hm.size]
    · have hbound := hm.bounded
      dsimp only
      omega
    · intro a b txa txb ha hb hne
      exact hm.disjoint a b txa txb (OrderedDict.get?_erase_eq_some.mp ha).2
        (OrderedDict.get?_erase_eq_some.mp hb).2 hne
    · intro k
      rw [Finset.mem_sdiff, List.mem_toFinset, hm.spent]
      constructor
      · rintro ⟨⟨a, txa, ha, hk⟩, hout⟩
        have hne : a ≠ h := by
          rintro rfl
          obtain rfl := Option.some.inj (hget.symm.trans ha)
          exact hout hk
        exact ⟨a, txa, OrderedDict.get?_erase_eq_some.mpr ⟨hne, ha⟩, hk⟩
      · rintro ⟨a, txa, ha, hk⟩
        obtain ⟨hne, ha⟩ := OrderedDict.get?_erase_eq_some.mp ha
        exact ⟨⟨a, txa, ha, hk⟩, fun hk' => hm.disjoint a h txa tx ha hget hne hk hk'⟩
    · intro key
      rw [List.filter_filter]
      by_cases hkey : key = h
      · subst hkey
        simp [OrderedDict.get?_erase]
      · rw [OrderedDict.get?_erase, if_neg hkey, ← hm.entries]
        apply List.filter_congr
        intro p _
        by_cases hp : p.txHash = key
        · simp [hp, hkey]
        · simp [hp]
    · exact hm.sorted.sublist List.filter_sublist

theorem Represents.clearConfirmed (hm : m.Represents rate) (confirmedHashes : List Bytes) :
    (clearConfirmed confirmedHashes m).2.Represents rate := by
  induction confirmedHashes generalizing m with
  | nil => exact hm
  | cons h hashes ih =>
    have hnext := ih (hm.removeTransaction h)
    rw [Mempool.clearConfirmed]
    generalize Mempool.removeTransaction h m = removed at hnext ⊢
    obtain ⟨_ | tx, m'⟩ := removed
    · exact hnext
    · exact hnext

inductive Command where
  | add (tx : Transaction)
  | remove (txHash : Bytes)
  | clearConfirmed (confirmedHashes : List Bytes)

variable (rate) in
def Command.act : Command → Mempool → Mempool
  | .add tx, m => (addTransactionBy rate tx m).2
  | .remove txHash, m => (removeTransaction txHash m).2
  | .clearConfirmed confirmedHashes, m => (Mempool.clearConfirmed confirmedHashes m).2

theorem Represents.act (hm : m.Represents rate) (c : Command) :
    (c.act rate m).Represents rate := by
  cases c with
  | add tx =>
    rw [Command.act]
    rcases addTransactionBy_cases rate tx m with h | ⟨h, hh, hnew, hfits, hfree, he⟩
    · rw [h]
      exact hm
    · rw [he]
      exact hm.add hh hnew hfits hfree
  | remove txHash => exact hm.removeTransaction txHash
  | clearConfirmed confirmedHashes => exact hm.clearConfirmed confirmedHashes

theorem represents_runs (rate : ℤ → ℕ → ℚ) (maxSizeMb : ℕ) (cs : List Command) :
    (runs (Command.act rate) cs { maxSize := maxSizeMb * 1024 * 1024 }).Represents rate := by
  induction cs using List.reverseRecOn with
  | nil => exact represents_empty maxSizeMb
  | append_singleton cs c ih =>
    rw [runs_append_singleton]
    exact ih.act c

/-- After any sequence of calls on a new pool the four structures agree, with exact fee rates and
with those of the source. -/
theorem mempool_represents (maxSizeMb : ℕ) (cs : List Command) :
    (runs (Command.act exactRate) cs { maxSize := maxSizeMb * 1024 * 1024 }).Represents exactRate ∧
      (runs (Command.act floatRate) cs { maxSize := maxSizeMb * 1024 * 1024 }).Represents
        floatRate :=
  ⟨represents_runs exactRate maxSizeMb cs, represents_runs floatRate maxSizeMb cs⟩

end Mempool

end Qrtb
