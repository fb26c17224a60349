import Qrtb.Lib.Greedy
import Qrtb.Wallet.Outputs

/-!
# What the selection returns

The selection is the greedy one: largest outputs first, until they cover amount
and fee. It takes distinct spendable outputs, adds them up, is enough when
anything is enough, and no smaller set of spendable outputs is enough.
-/

namespace Qrtb

open Stateful SeedSpace

namespace Wallet

variable {S : Type} {w : Wallet S}

/-- The spendable outputs, the largest first. -/
def descending (w : Wallet S) : List Utxo :=
  w.getSpendableUtxos.insertionSort fun a b => b.output.value ≤ a.output.value

theorem perm_descending (w : Wallet S) : w.descending.Perm w.getSpendableUtxos :=
  List.perm_insertionSort _ _

theorem pairwise_descending (w : Wallet S) :
    w.descending.Pairwise fun a b => b.output.value ≤ a.output.value := by
  have : Std.Total fun a b : Utxo => b.output.value ≤ a.output.value :=
    ⟨fun a b => le_total b.output.value a.output.value⟩
  have : IsTrans Utxo fun a b => b.output.value ≤ a.output.value := ⟨fun _ _ _ h h' => h'.trans h⟩
  exact List.pairwise_insertionSort _ _

theorem Keyed.nodup_spendable (h : w.Keyed) : (w.getSpendableUtxos.map Utxo.ref).Nodup := by
  have hvalues : w.utxos.values.map Utxo.ref = w.utxos.keys := by
    rw [OrderedDict.values, OrderedDict.keys, List.map_map]
    apply List.map_congr_left
    intro entry hentry
    exact h _ _ ((OrderedDict.mem_items_iff _ _ _).mp hentry)
  apply (List.filter_sublist.map Utxo.ref).nodup
  rw [hvalues]
  exact w.utxos.nodup

theorem mem_utxos_of_spendable {u : Utxo} (h : u ∈ w.getSpendableUtxos) : u ∈ w.utxos.values :=
  List.mem_of_mem_filter h

theorem selectLoop_eq_takeUntil (needed total : ℤ) (us : List Utxo) :
    selectLoop needed total us = Greedy.takeUntil (fun u => u.output.value) needed total us := by
  induction us generalizing total with
  | nil => rfl
  | cons u us ih => simp only [selectLoop, Greedy.takeUntil, ih]

theorem selectUtxos_eq_takeUntil (target fee : ℤ) (w : Wallet S) :
    w.selectUtxos target fee =
      Greedy.takeUntil (fun u => u.output.value) (target + fee) 0 w.descending :=
  selectLoop_eq_takeUntil _ _ _

theorem selectUtxos_isPrefix (target fee : ℤ) (w : Wallet S) :
    (w.selectUtxos target fee).1 <+: w.descending := by
  rw [selectUtxos_eq_takeUntil]
  exact Greedy.takeUntil_isPrefix _ _ _ _

theorem selectUtxos_total (target fee : ℤ) (w : Wallet S) :
    (w.selectUtxos target fee).2 =
      ((w.selectUtxos target fee).1.map fun u => u.output.value).sum := by
  rw [selectUtxos_eq_takeUntil, Greedy.takeUntil_total, zero_add]

theorem spendable_of_selected {target fee : ℤ} {u : Utxo} (h : u ∈ (w.selectUtxos target fee).1) :
    u ∈ w.getSpendableUtxos :=
  (w.perm_descending.mem_iff).mp ((selectUtxos_isPrefix target fee w).subset h)

theorem Keyed.nodup_selected (h : w.Keyed) (target fee : ℤ) :
    ((w.selectUtxos target fee).1.map Utxo.ref).Nodup := by
  apply ((selectUtxos_isPrefix target fee w).sublist.map Utxo.ref).nodup
  exact (w.perm_descending.map Utxo.ref).nodup_iff.mpr h.nodup_spendable

variable [SeedSpace S]

/-- The selection is distinct, spendable and added up; it is enough with as few outputs as can be,
or it is everything. -/
theorem selectUtxos_optimal (config : WalletConfig) (masterSeed : S) (calls : List Call)
    (hw : w = after apply calls (init config masterSeed))
    (hvalue : ∀ u ∈ w.utxos.values, 0 ≤ u.output.value) {target fee : ℤ}
    (hneeded : 0 < target + fee) :
    (((w.selectUtxos target fee).1.map Utxo.ref).Nodup ∧
      (∀ u ∈ (w.selectUtxos target fee).1, u ∈ w.getSpendableUtxos) ∧
      (w.selectUtxos target fee).2 =
        ((w.selectUtxos target fee).1.map fun u => u.output.value).sum) ∧
    (target + fee ≤ (w.getSpendableUtxos.map fun u => u.output.value).sum →
      target + fee ≤ (w.selectUtxos target fee).2 ∧
      ∀ others : Finset Utxo, (∀ u ∈ others, u ∈ w.getSpendableUtxos) →
        target + fee ≤ ∑ u ∈ others, u.output.value →
        (w.selectUtxos target fee).1.length ≤ others.card) ∧
    ((w.getSpendableUtxos.map fun u => u.output.value).sum < target + fee →
      (w.selectUtxos target fee).1.Perm w.getSpendableUtxos) := by
  have hkeyed : w.Keyed := by
    rw [hw]
    exact keyed_after config masterSeed calls
  have hsum : (w.descending.map fun u => u.output.value).sum =
      (w.getSpendableUtxos.map fun u => u.output.value).sum :=
    (w.perm_descending.map _).sum_eq
  refine ⟨⟨hkeyed.nodup_selected target fee, fun u hu => spendable_of_selected hu,
    selectUtxos_total target fee w⟩, ?_, ?_⟩
  · intro henough
    rw [selectUtxos_eq_takeUntil]
    refine ⟨Greedy.le_takeUntil (henough.trans_eq hsum.symm), ?_⟩
    intro others hothers hcovers
    rw [← Finset.length_toList]
    apply Greedy.length_takeUntil_le w.pairwise_descending hneeded
    · apply List.Nodup.subperm others.nodup_toList
      intro u hu
      exact w.perm_descending.mem_iff.mpr (hothers u (Finset.mem_toList.mp hu))
    · rwa [Finset.sum_map_toList]
  · intro hshort
    have hdescending : ∀ u ∈ w.descending, 0 ≤ u.output.value := fun u hu =>
      hvalue u (mem_utxos_of_spendable (w.perm_descending.mem_iff.mp hu))
    rw [selectUtxos_eq_takeUntil,
      Greedy.takeUntil_eq_self hdescending (hsum.trans_lt hshort)]
    exact w.perm_descending

/-- One output of each of these values comes in. -/
def coins (values : List ℤ) : List Call :=
  values.zipIdx.map fun v =>
    .addUtxo (List.replicate 32 1) v.2 { value := v.1, address := List.replicate 64 1 } 0

theorem selectUtxos_optimal_coins :
    12 ≤ ((after apply (coins [5, 9, 7]) (init {} ([] : Bytes))).selectUtxos 10 2).2 ∧
    ∀ others : Finset Utxo,
      (∀ u ∈ others, u ∈ (after apply (coins [5, 9, 7]) (init {} ([] : Bytes))).getSpendableUtxos) →
        10 + 2 ≤ ∑ u ∈ others, u.output.value → 2 ≤ others.card := by
  have hvalues : ∀ u ∈ (after apply (coins [5, 9, 7]) (init {} ([] : Bytes))).utxos.values,
      0 ≤ u.output.value := by
    intro u hu
    change u ∈ [_, _, _] at hu
    simp only [List.mem_cons, List.not_mem_nil, or_false] at hu
    rcases hu with rfl | rfl | rfl <;> decide
  exact (selectUtxos_optimal {} [] (coins [5, 9, 7]) rfl hvalues (by decide)).2.1 (by decide)

end Wallet

end Qrtb
