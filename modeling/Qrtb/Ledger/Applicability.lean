import Qrtb.Ledger.Apply

/-!
# When an accepted transaction applies

Validation looks every input up in one unchanged state, application marks each
input before it looks at the next. The two agree on every accepted transaction
whose references are pairwise distinct. A coinbase is accepted without its hash
being computed, so there the hash must also be computable.
-/

namespace Qrtb

namespace Ledger

variable {L : Ledger} {tx : Transaction} {currentEpoch : ℤ}

/-- The registry part of an accepted transaction finds everything it indexes. -/
theorem applyRegistry_returns_true (h : L.Accepts tx currentEpoch) {M : Ledger}
    (hM : ∀ inp ∈ tx.inputs, (M.findUtxo inp).isSome = true) :
    (applyRegistry tx M).1 = .ok true := by
  obtain ⟨out, outs, hout⟩ := List.exists_cons_of_ne_nil h.wellFormed.hasOutputs
  have hdata : firstData tx = .ok out.data := by simp [firstData, hout]
  cases htype : tx.txType with
  | register => simp [applyRegistry, htype, hdata]
  | rotateAuth =>
    have hc : tx.txType ≠ .coinbase := by simp [htype]
    obtain ⟨inp, inps, hinp⟩ := List.exists_cons_of_ne_nil (h.wellFormed.hasInputs hc)
    have hfirst : firstInput tx = .ok inp := by simp [firstInput, hinp]
    obtain ⟨u, hu⟩ := Option.isSome_iff_exists.mp (hM inp (by simp [hinp]))
    simp [applyRegistry, htype, hdata, hfirst, hu]
  | _ => simp [applyRegistry, htype]

theorem isSome_get?_spend_add {s : UtxoSet} {t : Bytes} {epoch : ℤ} {inputs : List TxInput}
    {outs : List TxOutput} {k : OutRef} (hk : (s.utxos.get? k).isSome = true) :
    (((s.spendInputs t inputs).2.addOutputs t epoch 0 outs).utxos.get? k).isSome = true := by
  rcases (s.spendInputs t inputs).2.get?_addOutputs t epoch 0 outs k with h | ⟨j, out, -, -, h⟩
  · rw [h]
    rcases s.get?_spendInputs t inputs k with h' | ⟨-, u, -, -, h'⟩
    · rw [h', hk]
    · simp [h']
  · simp [h]

/-- Once its inputs are spent, an accepted transaction applies to the end. -/
theorem Accepts.applies_of_spendInputs (h : L.Accepts tx currentEpoch) {t : Bytes}
    (ht : hashWhenUsed tx = .ok t) (hs : (L.utxoSet.spendInputs t tx.inputs).1 = true) :
    (applyTransaction tx L).1 = .ok true := by
  rcases applyTransaction_cases tx L with ⟨e, he, -⟩ | ⟨t', ht', hs', -⟩ | ⟨t', -, -, ha⟩
  · rw [ht] at he
    cases he
  · obtain rfl := Except.ok.inj (ht.symm.trans ht')
    rw [hs] at hs'
    cases hs'
  · rw [ha]
    apply applyRegistry_returns_true h
    intro inp hinp
    obtain ⟨u, hu, -⟩ := h.inputUnspent inp hinp
    have hsome : (L.utxoSet.utxos.get? inp.ref).isSome = true := Option.isSome_of_eq_some hu
    change ((applyStaking tx _).utxoSet.utxos.get? inp.ref).isSome = true
    rw [utxos_applyStaking]
    exact isSome_get?_spend_add hsome

/-- An accepted transaction applies exactly when no reference occurs twice and its hash can be
computed; the second half matters only for a coinbase. -/
theorem applyTransaction_returns_true_iff (h : L.Accepts tx currentEpoch) :
    (applyTransaction tx L).1 = .ok true ↔ tx.refs.Nodup ∧ tx.Packable := by
  have hhash : hashWhenUsed tx = tx.txHash := hashWhenUsed_of_outputs h.wellFormed.hasOutputs
  constructor
  · intro ht
    obtain ⟨t, hh, hs, -⟩ := applyTransaction_eq_of_true ht
    exact ⟨((L.utxoSet.spendInputs_eq_true_iff t tx.inputs).mp hs).1,
      tx.txHash_returns.mp ⟨t, hhash ▸ hh⟩⟩
  · intro hok
    obtain ⟨t, ht⟩ := tx.txHash_returns.mpr hok.2
    apply h.applies_of_spendInputs (hhash.trans ht)
    refine (L.utxoSet.spendInputs_eq_true_iff t tx.inputs).mpr ⟨hok.1, ?_⟩
    intro inp hinp
    obtain ⟨u, hu, hs⟩ := h.inputUnspent inp hinp
    exact ⟨u, hu, hs⟩

end Ledger

end Qrtb
