import Qrtb.Ledger.Apply
import Qrtb.Storage.TransactionStore

/-!
# Applying a transaction and replaying it

Both leave, at every key, an entry that is determined by what was there. Replaying
adds the outputs before it spends, and it adds what the tables kept of them. The
two entries look the same in every view that does not see what was lost.
-/

namespace Qrtb

open IndexedTable (rowAt)

/-- Marking an entry unless it is spent already. -/
def Utxo.spend (t : Bytes) (u : Utxo) : Utxo := if u.isSpent then u else u.markSpent t

namespace UtxoSet

variable (s : UtxoSet) (t : Bytes) (epoch : ℤ)

theorem get?_spendUtxo (ref k : OutRef) :
    (s.spendUtxo ref.1 ref.2 t).2.utxos.get? k =
      if k = ref then (s.utxos.get? k).map (Utxo.spend t) else s.utxos.get? k := by
  rcases s.spendUtxo_cases ref.1 ref.2 t with ⟨hnot, he⟩ | ⟨u, hu, hus, he⟩
  · rw [he]
    split_ifs with hk
    · subst hk
      cases hu : s.utxos.get? k with
      | none => rfl
      | some u =>
        have hspent : u.isSpent = true := by
          cases hs : u.isSpent with
          | true => rfl
          | false => exact absurd ⟨u, hu, hs⟩ hnot
        simp [Utxo.spend, hspent]
    · rfl
  · rw [he, OrderedDict.get?_set]
    split_ifs with hk
    · rw [hk, hu, Option.map_some, Utxo.spend, hus]
      rfl
    · rfl

/-- The entry that adding outputs puts at a key. -/
def created (outs : List TxOutput) (k : OutRef) : Option Utxo :=
  if k.1 = t then
    (rowAt outs k.2).map fun out =>
      { txHash := t, outputIndex := k.2, output := out, epochCreated := epoch }
  else none

theorem get?_addOutputs_eq (outs : List TxOutput) (k : OutRef) :
    (s.addOutputs t epoch 0 outs).utxos.get? k = (created t epoch outs k).or (s.utxos.get? k) := by
  cases hc : created t epoch outs k with
  | some u =>
    unfold created rowAt at hc
    split_ifs at hc with hk hi
    · obtain ⟨out, hout, rfl⟩ := Option.map_eq_some_iff.mp hc
      subst hk
      have hself := s.get?_addOutputs_self k.1 epoch (i := 0) hout
      rw [Nat.zero_add, Int.toNat_of_nonneg hi] at hself
      exact hself.trans (by rw [newUtxo, Int.toNat_of_nonneg hi, Option.some_or])
    · cases hc
  | none =>
    rcases s.get?_addOutputs t epoch 0 outs k with h | ⟨j, out, hj, hk, -⟩
    · exact h
    · rw [Nat.zero_add] at hk
      subst hk
      simp [created, rowAt, hj] at hc

/-- Outputs are added, then the references are spent. -/
def replay (outputs : List TxOutput) (refs : List OutRef) : UtxoSet :=
  refs.foldl (fun u ref => (u.spendUtxo ref.1 ref.2 t).2) (s.addOutputs t epoch 0 outputs)

theorem spend_spend (u : Utxo) : (u.spend t).spend t = u.spend t := by
  unfold Utxo.spend
  split_ifs with h
  · rfl
  · rfl
  · rfl

theorem get?_foldl_spend (refs : List OutRef) (k : OutRef) :
    (refs.foldl (fun u ref => (u.spendUtxo ref.1 ref.2 t).2) s).utxos.get? k =
      if k ∈ refs then (s.utxos.get? k).map (Utxo.spend t) else s.utxos.get? k := by
  induction refs generalizing s with
  | nil => simp
  | cons ref refs ih =>
    rw [List.foldl_cons, ih, get?_spendUtxo]
    by_cases hk : k = ref
    · subst hk
      by_cases hm : k ∈ refs
      · simp [hm, Option.map_map, Function.comp_def, spend_spend]
      · simp [hm]
    · simp [hk]

theorem get?_replay (outputs : List TxOutput) (refs : List OutRef) (k : OutRef) :
    (s.replay t epoch outputs refs).utxos.get? k =
      if k ∈ refs then ((created t epoch outputs k).or (s.utxos.get? k)).map (Utxo.spend t)
      else (created t epoch outputs k).or (s.utxos.get? k) := by
  rw [replay, get?_foldl_spend, get?_addOutputs_eq]

theorem get?_spendInputs_eq {inputs : List TxInput} (h : (s.spendInputs t inputs).1 = true)
    (k : OutRef) :
    (s.spendInputs t inputs).2.utxos.get? k =
      if k ∈ inputs.map TxInput.ref then (s.utxos.get? k).map (Utxo.spend t)
      else s.utxos.get? k := by
  split_ifs with hk
  · obtain ⟨inp, hi, rfl⟩ := List.mem_map.mp hk
    obtain ⟨-, hall⟩ := (s.spendInputs_eq_true_iff t inputs).mp h
    obtain ⟨u, hu, hus⟩ := hall inp hi
    rw [s.get?_spendInputs_of_mem t h hi hu, hu, Option.map_some, Utxo.spend, hus]
    rfl
  · rcases s.get?_spendInputs t inputs k with h' | ⟨hm, -⟩
    · exact h'
    · exact absurd hm hk

end UtxoSet

namespace Ledger

variable {tx : Transaction} {L : Ledger} {h : Bytes}

theorem get?_applied (ht : (applyTransaction tx L).1 = .ok true) (hh : tx.txHash = .ok h)
    (k : OutRef) :
    (applyTransaction tx L).2.utxoSet.utxos.get? k =
      (UtxoSet.created h tx.epoch tx.outputs k).or
        (if k ∈ tx.refs then (L.utxoSet.utxos.get? k).map (Utxo.spend h)
        else L.utxoSet.utxos.get? k) := by
  obtain ⟨h', hh', hs, he⟩ := applyTransaction_eq_of_true ht
  rw [he, utxoSet_applyRegistry, utxos_applyStaking, UtxoSet.get?_addOutputs_eq,
    UtxoSet.get?_spendInputs_eq _ _ hs]
  by_cases hempty : tx.inputs = [] ∧ tx.outputs = []
  · simp [Transaction.refs, hempty, UtxoSet.created, rowAt]
  · rw [hashWhenUsed, if_neg hempty, hh] at hh'
    obtain rfl := Except.ok.inj hh'
    rfl

/-- A view of entries that tells the spent ones and goes through a mark. -/
structure EntryView {γ : Type} (f : Utxo → γ) : Prop where
  isSpent : ∀ u v, f u = f v → u.isSpent = v.isSpent
  markSpent : ∀ t u v, f u = f v → f (u.markSpent t) = f (v.markSpent t)

theorem EntryView.spend {γ : Type} {f : Utxo → γ} (hf : EntryView f) {o o' : Option Utxo}
    (h : o.map f = o'.map f) (t : Bytes) :
    (o.map (Utxo.spend t)).map f = (o'.map (Utxo.spend t)).map f := by
  cases o with
  | none =>
    cases o' with
    | none => rfl
    | some v => cases h
  | some u =>
    cases o' with
    | none => cases h
    | some v =>
      have huv : f u = f v := Option.some.inj h
      simp only [Option.map_some, Utxo.spend, hf.isSpent u v huv]
      split_ifs
      · exact h
      · rw [hf.markSpent t u v huv]

/-- Application and replay agree in a view that does not see what the tables lose, unless the
transaction spends an output of its own. -/
theorem map_get?_applied {γ : Type} {f : Utxo → γ} (hf : EntryView f) {u : UtxoSet} {epoch : ℤ}
    (ht : (applyTransaction tx L).1 = .ok true) (hh : tx.txHash = .ok h)
    (hself : ∀ ref ∈ tx.refs, ref.1 ≠ h)
    (hview : ∀ out ∈ tx.outputs, ∀ i,
      f { txHash := h, outputIndex := i, output := out, epochCreated := tx.epoch } =
        f { txHash := h, outputIndex := i, output := out.stored, epochCreated := epoch })
    (hsame : ∀ k, (L.utxoSet.utxos.get? k).map f = (u.utxos.get? k).map f) (k : OutRef) :
    ((applyTransaction tx L).2.utxoSet.utxos.get? k).map f =
      ((u.replay h epoch (tx.outputs.map TxOutput.stored) tx.refs).utxos.get? k).map f := by
  rw [get?_applied ht hh, UtxoSet.get?_replay]
  by_cases hk : k.1 = h
  · have hnot : k ∉ tx.refs := fun hm => hself k hm hk
    have hcreated : (UtxoSet.created h tx.epoch tx.outputs k).map f =
        (UtxoSet.created h epoch (tx.outputs.map TxOutput.stored) k).map f := by
      rw [UtxoSet.created, UtxoSet.created, if_pos hk, if_pos hk, IndexedTable.rowAt_map]
      cases hrow : rowAt tx.outputs k.2 with
      | none => rfl
      | some out =>
        have hmem : out ∈ tx.outputs := by
          unfold rowAt at hrow
          split_ifs at hrow
          exact List.mem_of_getElem? hrow
        exact congrArg some (hview out hmem k.2)
    rw [if_neg hnot, if_neg hnot, Option.map_or, Option.map_or, hcreated, hsame]
  · have hnone : ∀ e outs, UtxoSet.created h e outs k = none := fun e outs => if_neg hk
    rw [hnone, hnone, Option.none_or, Option.none_or]
    split_ifs
    · exact hf.spend (hsame k) h
    · exact hsame k

end Ledger

end Qrtb
