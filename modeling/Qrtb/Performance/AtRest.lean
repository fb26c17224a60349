import Qrtb.Performance.Concurrency

/-!
# The sharded UTXO set at rest (`src/performance.py`)

When every call has returned, the index is complete for the unspent entries. It
may still name spent ones, which a balance query skips.
-/

namespace Qrtb

namespace ShardedUtxoSet

open Interleaving Transition

variable {history : History} {c c' : Config ShardedUtxoSet Local}
  {e : Interleaving.Event Call Response Section}

def AddsOnce (history : History) : Prop := ((addedOutputs history).map Prod.fst).Nodup

instance : Decidable (AddsOnce history) :=
  inferInstanceAs (Decidable ((addedOutputs history).map Prod.fst).Nodup)

theorem AddsOnce.of_append (h : AddsOnce (history ++ [e])) : AddsOnce history := by
  unfold AddsOnce at *
  rw [addedOutputs_append_singleton, Multiset.map_add] at h
  exact Multiset.nodup_of_le (Multiset.le_add_right _ _) h

theorem fresh_of_addsOnce (hrun : Runs history c) (honce : AddsOnce history)
    (hrec : Recorded history c.shared) (hst : Step calls c e c') (txHash : Bytes) (i : ℤ)
    (output : TxOutput) (epoch : ℤ) (he : e = .act (.added txHash i output epoch)) :
    c.shared.getSection (txHash, i) = none := by
  have hrunning : ((txHash, i), output) ∈ (c.running.map Local.unstored).sum := by
    subst he
    cases hst with
    | act ls hact =>
      cases hact
      simp [Local.unstored]
  by_contra hsome
  obtain ⟨u, hu⟩ := Option.ne_none_iff_exists'.mp hsome
  have hstored : ((txHash, i), u.output) ∈ storedOutputs history := (hrec.stored _ _).mpr ⟨u, hu, rfl⟩
  unfold AddsOnce at honce
  rw [addedOutputs_eq hrun, Multiset.map_add] at honce
  have hdisjoint := (Multiset.nodup_add.mp honce).2.2
  have hleft : (txHash, i) ∈ (storedOutputs history).map Prod.fst :=
    Multiset.mem_map.mpr ⟨_, hstored, rfl⟩
  have hright : (txHash, i) ∈ ((c.running.map Local.unstored).sum).map Prod.fst :=
    Multiset.mem_map.mpr ⟨_, hrunning, rfl⟩
  exact Multiset.disjoint_left.mp hdisjoint hleft hright

theorem recorded_and_indexed (hrun : Runs history c) (honce : AddsOnce history) :
    Recorded history c.shared ∧ Indexed c := by
  have hinv : Runs history c ∧ (AddsOnce history → Recorded history c.shared ∧ Indexed c) := by
    refine hrun.history (I := fun history c =>
      Runs history c ∧ (AddsOnce history → Recorded history c.shared ∧ Indexed c)) ?_ ?_
    · refine ⟨.nil _, fun _ => ⟨⟨?_, ?_, ?_⟩, ⟨?_, ?_, ?_⟩⟩⟩
      · simp [storedOutputs]
      · simp [markedKeys, Spent]
      · simp [markedKeys]
      · simp
      · simp
      · simp
    · intro history c e c' ih hst
      refine ⟨ih.1.append (.single hst), fun honce => ?_⟩
      obtain ⟨hrec, hidx⟩ := ih.2 honce.of_append
      have hfresh := fresh_of_addsOnce ih.1 honce.of_append hrec hst
      exact ⟨hrec.step hst hfresh, hidx.step hst hfresh⟩
  exact hinv.2 honce

variable (s : ShardedUtxoSet)

theorem answers_batchLookup (refs : List OutRef) (r : Response) :
    Answers calls s (.batchLookup refs) r ↔ r = .utxos (refs.map s.getSection) := by
  constructor
  · rintro ⟨es, q, hrun, hret⟩
    have hinv : ∃ groups results, q = (s, .looking refs groups results) ∧
        s.Looked refs groups results := by
      refine hrun.invariant (I := fun q => ∃ groups results, q = (s, .looking refs groups results) ∧
        s.Looked refs groups results) ?_ ⟨_, _, rfl, s.looked_shardGroups refs⟩
      rintro q e ⟨s', l'⟩ ⟨groups, results, rfl, hlooked⟩ hact
      cases hact with
      | lookupShard _ pre post group => exact ⟨pre ++ post, _, rfl, hlooked.next⟩
    obtain ⟨groups, results, rfl, hlooked⟩ := hinv
    cases groups with
    | nil =>
      cases hret
      rw [hlooked.results_eq]
    | cons group groups => cases hret
  · rintro rfl
    -- the threads may well run in the order of the groups
    have hall : ∀ groups results, s.Looked refs groups results →
        ∃ es, Run (alone calls) (s, .looking refs groups results) es
          (s, .looking refs [] (refs.map s.getSection)) := by
      intro groups
      induction groups with
      | nil =>
        intro results hlooked
        rw [← hlooked.results_eq]
        exact ⟨[], .nil _⟩
      | cons group groups ih =>
        intro results hlooked
        obtain ⟨es, hrest⟩ := ih _ (@Looked.next s refs [] groups group _ hlooked)
        exact ⟨.read :: es, alone_cons _ (Act.lookupShard s refs [] groups group results) hrest⟩
    obtain ⟨es, hrun⟩ := hall _ _ (s.looked_shardGroups refs)
    exact ⟨es, _, hrun, rfl⟩

theorem answers_getBalance (address : Bytes) (currentEpoch : ℤ) (r : Response) :
    Answers calls s (.getBalance address currentEpoch) r ↔
      r = .balance (s.getBalance address currentEpoch) := by
  have hsum : ∀ keys : List OutRef, keys.Nodup → keys.toFinset = s.keysOf address →
      (keys.map (s.spendableValue currentEpoch)).sum = s.getBalance address currentEpoch := by
    intro keys hnodup hkeys
    rw [getBalance, ← hkeys, List.sum_toFinset _ hnodup]
  constructor
  · rintro ⟨es, q, hrun, hret⟩
    have hinv : q = (s, .entered (.getBalance address currentEpoch)) ∨
        ∃ keys total, q = (s, .counting address currentEpoch keys total) ∧
          total + (keys.map (s.spendableValue currentEpoch)).sum =
            s.getBalance address currentEpoch := by
      refine hrun.invariant (I := fun q => q = (s, .entered (.getBalance address currentEpoch)) ∨
        ∃ keys total, q = (s, .counting address currentEpoch keys total) ∧
          total + (keys.map (s.spendableValue currentEpoch)).sum =
            s.getBalance address currentEpoch) ?_ (Or.inl rfl)
      rintro q e ⟨s', l'⟩ (rfl | ⟨keys, total, rfl, htotal⟩) hact
      · cases hact with
        | @listKeys _ _ keys hnodup hkeys =>
          exact Or.inr ⟨keys, 0, rfl, by rw [zero_add, hsum keys hnodup hkeys]⟩
      · cases hact with
        | count _ _ key keys total =>
          refine Or.inr ⟨keys, _, rfl, ?_⟩
          rw [← htotal, List.map_cons, List.sum_cons, add_assoc]
    rcases hinv with rfl | ⟨keys, total, rfl, htotal⟩
    · cases hret
    · cases keys with
      | nil =>
        cases hret
        rw [← htotal, List.map_nil, List.sum_nil, add_zero]
      | cons key keys => cases hret
  · rintro rfl
    have hall : ∀ (keys : List OutRef) (total : ℤ),
        ∃ es, Run (alone calls) (s, .counting address currentEpoch keys total) es
          (s, .counting address currentEpoch []
            (total + (keys.map (s.spendableValue currentEpoch)).sum)) := by
      intro keys
      induction keys with
      | nil =>
        intro total
        rw [List.map_nil, List.sum_nil, add_zero]
        exact ⟨[], .nil _⟩
      | cons key keys ih =>
        intro total
        obtain ⟨es, hrest⟩ := ih (total + s.spendableValue currentEpoch key)
        rw [List.map_cons, List.sum_cons, ← add_assoc]
        exact ⟨.read :: es, alone_cons _ (Act.count s address currentEpoch key keys total) hrest⟩
    have hnodup := (s.keysOf address).nodup_toList
    have hkeys := (s.keysOf address).toList_toFinset
    obtain ⟨es, hrest⟩ := hall (s.keysOf address).toList 0
    rw [hsum _ hnodup hkeys, zero_add] at hrest
    exact ⟨.read :: es, _,
      alone_cons _ (Act.listKeys s address currentEpoch hnodup hkeys) hrest, rfl⟩

theorem entry_of_mem_balanceOutputs (hrec : Recorded history c.shared)
    (hadded : addedOutputs history = storedOutputs history)
    (hspent : markedKeys history = spentKeys history) {address : Bytes} {currentEpoch : ℤ}
    {p : OutRef × TxOutput} (hp : p ∈ balanceOutputs history address currentEpoch) :
    ∃ u, c.shared.getSection p.1 = some u ∧ u.output = p.2 ∧ u.isSpent = false ∧
      u.output.address = address ∧ u.output.lockEpoch ≤ currentEpoch := by
  obtain ⟨hp, hunspent, haddr, hlock⟩ := Multiset.mem_filter.mp hp
  rw [hadded] at hp
  obtain ⟨u, hu, hout⟩ := (hrec.stored p.1 p.2).mp hp
  rw [← hspent, hrec.marked] at hunspent
  refine ⟨u, hu, hout, ?_, hout ▸ haddr, hout ▸ hlock⟩
  by_contra hs
  exact hunspent ⟨u, hu, by simpa using hs⟩

theorem mem_balanceOutputs (hrec : Recorded history c.shared)
    (hadded : addedOutputs history = storedOutputs history)
    (hspent : markedKeys history = spentKeys history) {currentEpoch : ℤ} {k : OutRef} {u : Utxo}
    (hu : c.shared.getSection k = some u) (hs : u.isSpent = false)
    (hlock : u.output.lockEpoch ≤ currentEpoch) :
    (k, u.output) ∈ balanceOutputs history u.output.address currentEpoch := by
  rw [balanceOutputs, Multiset.mem_filter, hadded, hrec.stored, ← hspent, hrec.marked]
  refine ⟨⟨u, hu, rfl⟩, ?_, rfl, hlock⟩
  exact not_spent_of_getSection hu hs

/-- With a complete index the balance counts every unspent output of the address. -/
theorem getBalance_eq (hrec : Recorded history c.shared) (hidx : Indexed c) (hrest : c.running = 0)
    (hadded : addedOutputs history = storedOutputs history)
    (hspent : markedKeys history = spentKeys history) (honce : AddsOnce history)
    (address : Bytes) (currentEpoch : ℤ) :
    c.shared.getBalance address currentEpoch =
      ((balanceOutputs history address currentEpoch).map fun p => p.2.value).sum := by
  have hvalue : ∀ p ∈ balanceOutputs history address currentEpoch,
      c.shared.spendableValue currentEpoch p.1 = p.2.value := by
    intro p hp
    obtain ⟨u, hu, hout, hs, _, hlock⟩ := entry_of_mem_balanceOutputs hrec hadded hspent hp
    simp only [spendableValue, hu]
    rw [if_pos ⟨hs, hlock⟩, hout]
  have hnodup : ((balanceOutputs history address currentEpoch).map Prod.fst).Nodup :=
    Multiset.nodup_of_le (Multiset.map_le_map (Multiset.filter_le _ _)) honce
  calc c.shared.getBalance address currentEpoch
      = ∑ k ∈ (⟨_, hnodup⟩ : Finset OutRef), c.shared.spendableValue currentEpoch k := by
        refine (Finset.sum_subset ?_ ?_).symm
        · intro k hk
          obtain ⟨p, hp, rfl⟩ := Multiset.mem_map.mp hk
          obtain ⟨u, hu, _, hs, haddr, _⟩ := entry_of_mem_balanceOutputs hrec hadded hspent hp
          rcases hidx.covered p.1 u hu hs with hmem | ⟨epoch, hm⟩
          · exact haddr ▸ hmem
          · simp [hrest] at hm
        · intro k hk hout
          obtain ⟨u, hu, rfl⟩ := hidx.named address k hk
          simp only [spendableValue, hu]
          refine if_neg ?_
          rintro ⟨hs, hlock⟩
          exact hout (Multiset.mem_map.mpr
            ⟨_, mem_balanceOutputs hrec hadded hspent hu hs hlock, rfl⟩)
    _ = ((balanceOutputs history address currentEpoch).map
          fun p => c.shared.spendableValue currentEpoch p.1).sum := by
        rw [Finset.sum_mk, Multiset.map_map]
        rfl
    _ = ((balanceOutputs history address currentEpoch).map fun p => p.2.value).sum := by
        rw [Multiset.map_congr rfl hvalue]

/-- Under any interleaving of calls that adds each key at most once, a key is spent at most once,
and at rest lookups answer as the unsharded set and balances count what was added and not spent. -/
theorem concurrent_calls_correct (hrun : Runs history c) (honce : AddsOnce history) :
    (∀ key, (spentKeys history).count key ≤ 1) ∧
    (c.running = 0 →
      (∀ refs r, Answers calls c.shared (.batchLookup refs) r ↔
        r = .utxos (refs.map fun ref => (reference history).getUtxo ref.1 ref.2)) ∧
      (∀ address currentEpoch r, Answers calls c.shared (.getBalance address currentEpoch) r ↔
        r = .balance
          ((balanceOutputs history address currentEpoch).map fun p => p.2.value).sum)) := by
  obtain ⟨hrec, hidx⟩ := recorded_and_indexed hrun honce
  constructor
  · intro key
    have hmarked := Multiset.nodup_iff_count_le_one.mp hrec.once key
    rw [markedKeys_eq hrun, Multiset.count_add] at hmarked
    omega
  · intro hrest
    have hadded : addedOutputs history = storedOutputs history := by
      simpa [hrest] using addedOutputs_eq hrun
    have hspent : markedKeys history = spentKeys history := by
      simpa [hrest] using markedKeys_eq hrun
    constructor
    · intro refs r
      have hget : refs.map c.shared.getSection =
          refs.map fun ref => (reference history).getUtxo ref.1 ref.2 :=
        List.map_congr_left fun ref _ => holds_reference hrun ref
      rw [answers_batchLookup, hget]
    · intro address currentEpoch r
      rw [answers_getBalance, getBalance_eq hrec hidx hrest hadded hspent honce]

/-- A spend that overtakes the second half of an addition: the addition puts the spent key back
into the index. -/
def overtakenHistory : History :=
  [.invoke (.addUtxo [7] 0 ⟨5, [1], 0, []⟩ 3), .act (.added [7] 0 ⟨5, [1], 0, []⟩ 3),
    .invoke (.spendUtxo [7] 0 [9]), .act (.spent [7] 0 [9]), .act .indexed,
    .respond (.spendUtxo [7] 0 [9])
      (.utxo (some ⟨[7], 0, ⟨5, [1], 0, []⟩, 3, true, some [9]⟩)),
    .act .indexed, .respond (.addUtxo [7] 0 ⟨5, [1], 0, []⟩ 3) .nothing]

theorem overtaken_runs : ∃ c, Runs overtakenHistory c ∧ c.running = 0 ∧
    ([7], 0) ∈ c.shared.keysOf [1] := by
  refine ⟨_, .cons (.invoke _ _ _) (.cons (.act _ (.store _ _ _ _ _)) (.cons (.invoke _ _ _)
    (.cons (.act _ (.mark rfl)) (.cons (.act _ (.discard _ _ _ _ _)) (.cons (.respond _ _ rfl)
    (.cons (.act _ (.index _ _ _ _ _)) (.cons (.respond _ _ rfl) (.nil _)))))))), rfl, ?_⟩
  decide

/-- The key is back in the index, spent once, and worth nothing to the balance. -/
theorem overtaken_addition_correct : ∃ c, Runs overtakenHistory c ∧
    ([7], 0) ∈ c.shared.keysOf [1] ∧ (spentKeys overtakenHistory).count ([7], 0) ≤ 1 ∧
    Answers calls c.shared (.getBalance [1] 0) (.balance 0) := by
  obtain ⟨c, hrun, hrest, hkey⟩ := overtaken_runs
  obtain ⟨honce, hqueries⟩ := concurrent_calls_correct hrun (by decide)
  exact ⟨c, hrun, hkey, honce _, ((hqueries hrest).2 [1] 0 _).mpr (by decide)⟩

end ShardedUtxoSet

end Qrtb
