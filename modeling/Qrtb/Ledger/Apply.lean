import Qrtb.Ledger.Validator

/-!
# Applying a transaction (`TransactionValidator.apply_transaction`)

Application mutates the ledger in place and checks nothing beyond what spending
needs. It can return `True`, return `False` after some inputs were already
marked, or raise; in every case the state it leaves is part of the result.
-/

namespace Qrtb

open Keccak

namespace UtxoSet

/-- The spending loop stops at the first input that cannot be spent. -/
def spendInputs (spendingTx : Bytes) : List TxInput → UtxoSet → Bool × UtxoSet
  | [], s => (true, s)
  | inp :: inputs, s =>
    match s.spendUtxo inp.prevTxHash inp.outputIndex spendingTx with
    | (none, s') => (false, s')
    | (some _, s') => spendInputs spendingTx inputs s'

/-- Outputs are added under consecutive indices. -/
def addOutputs (txHash : Bytes) (epoch : ℤ) : ℕ → List TxOutput → UtxoSet → UtxoSet
  | _, [], s => s
  | i, out :: outs, s => addOutputs txHash epoch (i + 1) outs (s.addUtxo txHash i out epoch)

/-- Locked outputs of a STAKE transaction are credited to the stake index. -/
def addStakes (epoch : ℤ) : List TxOutput → UtxoSet → UtxoSet
  | [], s => s
  | out :: outs, s =>
    addStakes epoch outs
      (if out.lockEpoch > epoch then s.addStake out.address out.value else s)

end UtxoSet

/-- The key is one of those the outputs of the transaction are stored under. -/
def Transaction.Creates (tx : Transaction) (k : OutRef) : Prop :=
  ∃ h, ∃ j : ℕ, ∃ out, tx.txHash = .ok h ∧ tx.outputs[j]? = some out ∧ k = (h, (j : ℤ))

namespace Ledger

/-- The part of `apply_transaction` after the outputs: staking. -/
def applyStaking (tx : Transaction) (L : Ledger) : Ledger :=
  if tx.txType = .stake then { L with utxoSet := L.utxoSet.addStakes tx.epoch tx.outputs } else L

/-- Registration and rotation. The results of the registry calls are not looked at. -/
def applyRegistry (tx : Transaction) (L : Ledger) : Except PyError Bool × Ledger :=
  match tx.txType with
  | .register =>
    match firstData tx with
    | .error e => (.error e, L)
    | .ok regData =>
      let address := deriveAddress (regData.take 64)
      (.ok true,
        { L with
          authRegistry := (L.authRegistry.registerViaTx address (Bytes.slice regData 64 96)).2 })
  | .rotateAuth =>
    match firstData tx, firstInput tx with
    | .error e, _ => (.error e, L)
    | .ok _, .error e => (.error e, L)
    | .ok rotData, .ok inp =>
      match L.findUtxo inp with
      -- The fallback of the source repeats this lookup in the same dictionary.
      | none => (.ok false, L)
      | some utxo =>
        (.ok true,
          { L with
            authRegistry :=
              (L.authRegistry.rotateViaTx utxo.output.address (rotData.take 32)).2 })
  | _ => (.ok true, L)

/-- `tx.tx_hash` is first evaluated at the first input or output. -/
def hashWhenUsed (tx : Transaction) : Except PyError Bytes :=
  if tx.inputs = [] ∧ tx.outputs = [] then .ok [] else tx.txHash

def applyTransaction (tx : Transaction) (L : Ledger) : Except PyError Bool × Ledger :=
  match hashWhenUsed tx with
  | .error e => (.error e, L)
  | .ok txHash =>
    match L.utxoSet.spendInputs txHash tx.inputs with
    | (false, s) => (.ok false, { L with utxoSet := s })
    | (true, s) =>
      applyRegistry tx
        (applyStaking tx { L with utxoSet := s.addOutputs txHash tx.epoch 0 tx.outputs })

end Ledger

namespace UtxoSet

variable (s : UtxoSet) (t : Bytes)

theorem spendInputs_cons_of_spendable {inp : TxInput} {u : Utxo} (inputs : List TxInput)
    (hu : s.utxos.get? inp.ref = some u) (hs : u.isSpent = false) :
    ∃ s' : UtxoSet, s'.utxos = s.utxos.set inp.ref (u.markSpent t) ∧ s'.staked = s.staked ∧
      s.spendInputs t (inp :: inputs) = s'.spendInputs t inputs := by
  rcases s.spendUtxo_cases inp.prevTxHash inp.outputIndex t with ⟨hn, -⟩ | ⟨u', hu', -, he⟩
  · exact absurd ⟨u, hu, hs⟩ hn
  · obtain rfl : u = u' := Option.some.inj (hu.symm.trans hu')
    refine ⟨(s.spendUtxo inp.prevTxHash inp.outputIndex t).2, ?_, ?_, ?_⟩
    · rw [he]
      rfl
    · rw [he]
    · simp only [spendInputs, he]

theorem spendInputs_cons_of_not_spendable {inp : TxInput} (inputs : List TxInput)
    (h : ¬ s.Spendable inp.ref) : s.spendInputs t (inp :: inputs) = (false, s) := by
  rcases s.spendUtxo_cases inp.prevTxHash inp.outputIndex t with ⟨-, he⟩ | ⟨u, hu, hs, -⟩
  · rw [spendInputs, he]
  · exact absurd ⟨u, hu, hs⟩ h

theorem spendable_set_markSpent {s' : UtxoSet} {k j : OutRef} {u : Utxo}
    (hs' : s'.utxos = s.utxos.set k (u.markSpent t)) :
    s'.Spendable j ↔ j ≠ k ∧ s.Spendable j := by
  unfold Spendable
  rw [hs']
  by_cases h : j = k
  · simp [h, Utxo.markSpent]
  · simp [h, OrderedDict.get?_set]

/-- The loop succeeds exactly on pairwise distinct references to unspent outputs. -/
theorem spendInputs_eq_true_iff (inputs : List TxInput) :
    (s.spendInputs t inputs).1 = true ↔
      (inputs.map TxInput.ref).Nodup ∧ ∀ inp ∈ inputs, s.Spendable inp.ref := by
  induction inputs generalizing s with
  | nil => simp [spendInputs]
  | cons inp inputs ih =>
    by_cases h : s.Spendable inp.ref
    · obtain ⟨u, hu, hs⟩ := h
      obtain ⟨s', hs', -, he⟩ := s.spendInputs_cons_of_spendable t inputs hu hs
      rw [he, ih s']
      simp only [s.spendable_set_markSpent t hs', List.map_cons, List.nodup_cons,
        List.forall_mem_cons, List.mem_map, not_exists, not_and]
      constructor
      · intro h
        exact ⟨⟨fun i hi => (h.2 i hi).1, h.1⟩, ⟨u, hu, hs⟩, fun i hi => (h.2 i hi).2⟩
      · intro h
        exact ⟨h.1.2, fun i hi => ⟨h.1.1 i hi, h.2.2 i hi⟩⟩
    · rw [s.spendInputs_cons_of_not_spendable t inputs h]
      simp [h]

/-- What the loop can do to one entry, whether it succeeds or stops half way. -/
theorem get?_spendInputs (inputs : List TxInput) (k : OutRef) :
    (s.spendInputs t inputs).2.utxos.get? k = s.utxos.get? k ∨
      k ∈ inputs.map TxInput.ref ∧ ∃ u, s.utxos.get? k = some u ∧ u.isSpent = false ∧
        (s.spendInputs t inputs).2.utxos.get? k = some (u.markSpent t) := by
  induction inputs generalizing s with
  | nil => exact Or.inl rfl
  | cons inp inputs ih =>
    by_cases h : s.Spendable inp.ref
    · obtain ⟨u, hu, hs⟩ := h
      obtain ⟨s', hs', -, he⟩ := s.spendInputs_cons_of_spendable t inputs hu hs
      rw [he]
      by_cases hk : k = inp.ref
      · subst hk
        have hk' : s'.utxos.get? inp.ref = some (u.markSpent t) := by rw [hs']; simp
        rcases ih s' with h' | ⟨-, u', hu', hs'', -⟩
        · exact Or.inr ⟨by simp, u, hu, hs, h'.trans hk'⟩
        · rw [hk'] at hu'
          obtain rfl := Option.some.inj hu'
          exact absurd hs'' (by simp [Utxo.markSpent])
      · have hk' : s'.utxos.get? k = s.utxos.get? k := by
          rw [hs', OrderedDict.get?_set_of_ne _ hk]
        rw [← hk']
        rcases ih s' with h' | ⟨hm, h'⟩
        · exact Or.inl h'
        · exact Or.inr ⟨List.mem_cons_of_mem _ hm, h'⟩
    · rw [s.spendInputs_cons_of_not_spendable t inputs h]
      exact Or.inl rfl

theorem get?_spendInputs_of_mem {inputs : List TxInput} (h : (s.spendInputs t inputs).1 = true)
    {inp : TxInput} (hi : inp ∈ inputs) {u : Utxo} (hu : s.utxos.get? inp.ref = some u) :
    (s.spendInputs t inputs).2.utxos.get? inp.ref = some (u.markSpent t) := by
  induction inputs generalizing s u with
  | nil => simp at hi
  | cons i inputs ih =>
    obtain ⟨hn, hsp⟩ := (s.spendInputs_eq_true_iff t _).mp h
    obtain ⟨v, hv, hs⟩ := hsp i (by simp)
    obtain ⟨s', hs', -, he⟩ := s.spendInputs_cons_of_spendable t inputs hv hs
    rw [he] at h ⊢
    rcases List.mem_cons.mp hi with rfl | hi
    · obtain rfl := Option.some.inj (hv.symm.trans hu)
      have hk : s'.utxos.get? inp.ref = some (v.markSpent t) := by rw [hs']; simp
      rcases s'.get?_spendInputs t inputs inp.ref with h' | ⟨hm, -⟩
      · exact h'.trans hk
      · exact absurd hm (List.nodup_cons.mp hn).1
    · have hne : inp.ref ≠ i.ref := fun e =>
        (List.nodup_cons.mp hn).1 (e ▸ List.mem_map_of_mem hi)
      exact ih s' h hi (by rw [hs', OrderedDict.get?_set_of_ne _ hne, hu])

theorem staked_spendInputs (inputs : List TxInput) :
    (s.spendInputs t inputs).2.staked = s.staked := by
  induction inputs generalizing s with
  | nil => rfl
  | cons inp inputs ih =>
    have hone := s.staked_spendUtxo inp.prevTxHash inp.outputIndex t
    rw [spendInputs]
    rcases hsp : s.spendUtxo inp.prevTxHash inp.outputIndex t with ⟨_ | u, s'⟩
    · rw [hsp] at hone
      exact hone
    · rw [hsp] at hone
      exact (ih s').trans hone

variable (epoch : ℤ)

/-- The entry `add_utxo` creates for an output. -/
def newUtxo (txHash : Bytes) (i : ℕ) (out : TxOutput) : Utxo :=
  { txHash, outputIndex := i, output := out, epochCreated := epoch }

theorem get?_addOutputs (i : ℕ) (outs : List TxOutput) (k : OutRef) :
    (s.addOutputs t epoch i outs).utxos.get? k = s.utxos.get? k ∨
      ∃ j out, outs[j]? = some out ∧ k = (t, ((i + j : ℕ) : ℤ)) ∧
        (s.addOutputs t epoch i outs).utxos.get? k = some (newUtxo epoch t (i + j) out) := by
  induction outs generalizing s i with
  | nil => exact Or.inl rfl
  | cons out outs ih =>
    rw [addOutputs]
    rcases ih (s.addUtxo t i out epoch) (i + 1) with h | ⟨j, out', hj, hk, h⟩
    · by_cases hk : k = (t, (i : ℤ))
      · refine Or.inr ⟨0, out, rfl, hk, ?_⟩
        rw [h, get?_addUtxo, if_pos hk]
        rfl
      · exact Or.inl (by rw [h, get?_addUtxo, if_neg hk])
    · refine Or.inr ⟨j + 1, out', hj, ?_, ?_⟩
      · rw [hk, Nat.add_assoc, Nat.add_comm 1 j]
      · rw [h, Nat.add_assoc, Nat.add_comm 1 j]

theorem get?_addOutputs_self {i j : ℕ} {outs : List TxOutput} {out : TxOutput}
    (hj : outs[j]? = some out) :
    (s.addOutputs t epoch i outs).utxos.get? (t, ((i + j : ℕ) : ℤ)) =
      some (newUtxo epoch t (i + j) out) := by
  induction outs generalizing s i j with
  | nil => simp at hj
  | cons o outs ih =>
    rw [addOutputs]
    cases j with
    | zero =>
      obtain rfl : o = out := by simpa using hj
      rcases (s.addUtxo t i o epoch).get?_addOutputs t epoch (i + 1) outs (t, ((i + 0 : ℕ) : ℤ))
        with h | ⟨j', -, -, hk, -⟩
      · rw [h, get?_addUtxo, if_pos (by simp)]
        rfl
      · have := congrArg Prod.snd hk
        simp only [Nat.cast_inj] at this
        omega
    | succ j =>
      have h := ih (s.addUtxo t i o epoch) (i := i + 1) (j := j) (by simpa using hj)
      rwa [Nat.add_assoc, Nat.add_comm 1 j] at h

theorem staked_addOutputs (i : ℕ) (outs : List TxOutput) :
    (s.addOutputs t epoch i outs).staked = s.staked := by
  induction outs generalizing s i with
  | nil => rfl
  | cons out outs ih =>
    rw [addOutputs, ih]
    rfl

theorem utxos_addStakes (outs : List TxOutput) :
    (s.addStakes epoch outs).utxos = s.utxos := by
  induction outs generalizing s with
  | nil => rfl
  | cons out outs ih =>
    rw [addStakes, ih]
    split_ifs <;> rfl

end UtxoSet

namespace Ledger

variable (tx : Transaction) (L : Ledger)

theorem applyTransaction_cases :
    (∃ e, hashWhenUsed tx = .error e ∧ applyTransaction tx L = (.error e, L)) ∨
    (∃ h, hashWhenUsed tx = .ok h ∧ (L.utxoSet.spendInputs h tx.inputs).1 = false ∧
      applyTransaction tx L =
        (.ok false, { L with utxoSet := (L.utxoSet.spendInputs h tx.inputs).2 })) ∨
    (∃ h, hashWhenUsed tx = .ok h ∧ (L.utxoSet.spendInputs h tx.inputs).1 = true ∧
      applyTransaction tx L =
        applyRegistry tx (applyStaking tx
          { L with
            utxoSet := (L.utxoSet.spendInputs h tx.inputs).2.addOutputs h tx.epoch 0
              tx.outputs })) := by
  unfold applyTransaction
  cases hh : hashWhenUsed tx with
  | error e => exact Or.inl ⟨e, rfl, rfl⟩
  | ok h =>
    rcases hs : L.utxoSet.spendInputs h tx.inputs with ⟨b, s⟩
    cases b with
    | false => exact Or.inr (Or.inl ⟨h, rfl, by simp [hs], by simp [hs]⟩)
    | true => exact Or.inr (Or.inr ⟨h, rfl, by simp [hs], by simp [hs]⟩)

theorem utxos_applyStaking : (applyStaking tx L).utxoSet.utxos = L.utxoSet.utxos := by
  unfold applyStaking
  split_ifs
  · exact L.utxoSet.utxos_addStakes _ _
  · rfl

theorem utxoSet_applyRegistry : (applyRegistry tx L).2.utxoSet = L.utxoSet := by
  unfold applyRegistry
  split
  · split <;> rfl
  · split
    · rfl
    · rfl
    · split <;> rfl
  · rfl

theorem hashWhenUsed_of_outputs {tx : Transaction} (h : tx.outputs ≠ []) :
    hashWhenUsed tx = tx.txHash := by
  simp [hashWhenUsed, h]

theorem get?_applyTransaction (k : OutRef) :
    (applyTransaction tx L).2.utxoSet.utxos.get? k = L.utxoSet.utxos.get? k ∨
    (k ∈ tx.refs ∧ ∃ u h, L.utxoSet.utxos.get? k = some u ∧ u.isSpent = false ∧
      (applyTransaction tx L).2.utxoSet.utxos.get? k = some (u.markSpent h)) ∨
    ∃ h, ∃ j : ℕ, ∃ out, tx.txHash = .ok h ∧ (L.utxoSet.spendInputs h tx.inputs).1 = true ∧
      tx.outputs[j]? = some out ∧ k = (h, (j : ℤ)) ∧
      (applyTransaction tx L).2.utxoSet.utxos.get? k =
        some (UtxoSet.newUtxo tx.epoch h j out) := by
  rcases applyTransaction_cases tx L with ⟨e, -, he⟩ | ⟨h, hh, hs, he⟩ | ⟨h, hh, hs, he⟩
  · rw [he]
    exact Or.inl rfl
  · rw [he]
    rcases L.utxoSet.get?_spendInputs h tx.inputs k with h' | ⟨hm, u, hu, hus, h'⟩
    · exact Or.inl h'
    · exact Or.inr (Or.inl ⟨hm, u, h, hu, hus, h'⟩)
  · rw [he, utxoSet_applyRegistry, utxos_applyStaking]
    rcases (L.utxoSet.spendInputs h tx.inputs).2.get?_addOutputs h tx.epoch 0 tx.outputs k
      with h' | ⟨j, out, hj, hk, h'⟩
    · rw [h']
      rcases L.utxoSet.get?_spendInputs h tx.inputs k with h'' | ⟨hm, u, hu, hus, h''⟩
      · exact Or.inl h''
      · exact Or.inr (Or.inl ⟨hm, u, h, hu, hus, h''⟩)
    · rw [Nat.zero_add] at hk h'
      have hout : tx.outputs ≠ [] := by
        intro hnil
        simp [hnil] at hj
      rw [hashWhenUsed_of_outputs hout] at hh
      exact Or.inr (Or.inr ⟨h, j, out, hh, hs, hj, hk, h'⟩)

variable {tx L}

theorem get?_applyTransaction_of_not_creates {k : OutRef} (hr : k ∉ tx.refs)
    (hc : ¬ tx.Creates k) :
    (applyTransaction tx L).2.utxoSet.utxos.get? k = L.utxoSet.utxos.get? k := by
  rcases get?_applyTransaction tx L k with h | ⟨hk, -⟩ | ⟨h, j, out, hh, -, hj, hk, -⟩
  · exact h
  · exact absurd hk hr
  · exact absurd ⟨h, j, out, hh, hj, hk⟩ hc

theorem applyTransaction_eq_of_true (ht : (applyTransaction tx L).1 = .ok true) :
    ∃ h, hashWhenUsed tx = .ok h ∧ (L.utxoSet.spendInputs h tx.inputs).1 = true ∧
      applyTransaction tx L =
        applyRegistry tx (applyStaking tx
          { L with
            utxoSet := (L.utxoSet.spendInputs h tx.inputs).2.addOutputs h tx.epoch 0
              tx.outputs }) := by
  rcases applyTransaction_cases tx L with ⟨e, -, he⟩ | ⟨h, -, -, he⟩ | h
  · simp [he] at ht
  · simp [he] at ht
  · exact h

theorem get?_applyTransaction_output (ht : (applyTransaction tx L).1 = .ok true) {h : Bytes}
    (hh : tx.txHash = .ok h) {j : ℕ} {out : TxOutput} (hj : tx.outputs[j]? = some out) :
    (applyTransaction tx L).2.utxoSet.utxos.get? (h, (j : ℤ)) =
      some (UtxoSet.newUtxo tx.epoch h j out) := by
  obtain ⟨h', hh', -, he⟩ := applyTransaction_eq_of_true ht
  have hout : tx.outputs ≠ [] := by
    intro hnil
    simp [hnil] at hj
  rw [hashWhenUsed_of_outputs hout, hh] at hh'
  obtain rfl := Except.ok.inj hh'
  rw [he, utxoSet_applyRegistry, utxos_applyStaking]
  have hself := (L.utxoSet.spendInputs h tx.inputs).2.get?_addOutputs_self h tx.epoch
    (i := 0) hj
  rwa [Nat.zero_add] at hself

theorem get?_applyTransaction_input (ht : (applyTransaction tx L).1 = .ok true) {inp : TxInput}
    (hi : inp ∈ tx.inputs) (hc : ¬ tx.Creates inp.ref) {u : Utxo}
    (hu : L.utxoSet.utxos.get? inp.ref = some u) :
    ∃ h, (applyTransaction tx L).2.utxoSet.utxos.get? inp.ref = some (u.markSpent h) := by
  obtain ⟨h, hh, hs, he⟩ := applyTransaction_eq_of_true ht
  refine ⟨h, ?_⟩
  rw [he, utxoSet_applyRegistry, utxos_applyStaking]
  rcases (L.utxoSet.spendInputs h tx.inputs).2.get?_addOutputs h tx.epoch 0 tx.outputs inp.ref
    with h' | ⟨j, out, hj, hk, -⟩
  · rw [h']
    exact L.utxoSet.get?_spendInputs_of_mem h hs hi hu
  · rw [Nat.zero_add] at hk
    have hout : tx.outputs ≠ [] := by
      intro hnil
      simp [hnil] at hj
    rw [hashWhenUsed_of_outputs hout] at hh
    exact absurd ⟨h, j, out, hh, hj, hk⟩ hc

theorem authRegistry_applyTransaction (hreg : tx.txType ≠ .register)
    (hrot : tx.txType ≠ .rotateAuth) :
    (applyTransaction tx L).2.authRegistry = L.authRegistry := by
  have hstaking : ∀ M : Ledger, (applyStaking tx M).authRegistry = M.authRegistry := by
    intro M
    unfold applyStaking
    split_ifs <;> rfl
  have hregistry : ∀ M : Ledger, (applyRegistry tx M).2 = M := by
    intro M
    cases ht : tx.txType with
    | register => exact absurd ht hreg
    | rotateAuth => exact absurd ht hrot
    | _ => simp [applyRegistry, ht]
  rcases applyTransaction_cases tx L with ⟨e, -, he⟩ | ⟨h, -, -, he⟩ | ⟨h, -, -, he⟩
  · rw [he]
  · rw [he]
  · rw [he, hregistry, hstaking]

/-- A registration that applies enters the derived address with the published root. -/
theorem authRegistry_applyTransaction_register (ht : (applyTransaction tx L).1 = .ok true)
    (htype : tx.txType = .register) {out : TxOutput} (hout : tx.outputs.head? = some out) :
    (applyTransaction tx L).2.authRegistry =
      (L.authRegistry.registerViaTx (deriveAddress (out.data.take 64))
        (Bytes.slice out.data 64 96)).2 := by
  obtain ⟨h, -, -, he⟩ := applyTransaction_eq_of_true ht
  obtain ⟨outs, houts⟩ := List.head?_eq_some_iff.mp hout
  simp [he, applyRegistry, htype, firstData, houts, applyStaking]

/-- A rotation that applies gives the published root to the owner of the entry that is found under
its first reference afterwards. -/
theorem authRegistry_applyTransaction_rotate (ht : (applyTransaction tx L).1 = .ok true)
    (htype : tx.txType = .rotateAuth) {out : TxOutput} (hout : tx.outputs.head? = some out)
    {inp : TxInput} (hinp : tx.inputs.head? = some inp) :
    ∃ u, (applyTransaction tx L).2.findUtxo inp = some u ∧
      (applyTransaction tx L).2.authRegistry =
        (L.authRegistry.rotateViaTx u.output.address (out.data.take 32)).2 := by
  obtain ⟨h, -, -, he⟩ := applyTransaction_eq_of_true ht
  obtain ⟨outs, houts⟩ := List.head?_eq_some_iff.mp hout
  obtain ⟨inps, hinps⟩ := List.head?_eq_some_iff.mp hinp
  have hfind : (applyTransaction tx L).2.findUtxo inp =
      (applyStaking tx { L with
        utxoSet := (L.utxoSet.spendInputs h tx.inputs).2.addOutputs h tx.epoch 0
          tx.outputs }).findUtxo inp := by
    rw [findUtxo, findUtxo, he, utxoSet_applyRegistry]
  rw [he] at ht
  simp only [applyRegistry, htype, firstData, houts, firstInput, hinps] at ht
  rw [hfind, he]
  simp only [applyRegistry, htype, firstData, houts, firstInput, hinps]
  split at ht
  · cases ht
  · next u hu =>
    simp only [hu]
    exact ⟨u, rfl, by simp [applyStaking, htype]⟩

end Ledger

end Qrtb
