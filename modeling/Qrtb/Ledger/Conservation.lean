import Qrtb.Ledger.Runs

/-!
# Conservation of value

The unspent total is accounted over whole runs. Spending a list of distinct
outputs takes their values off the total, and adding outputs adds at most their
values, since an entry that is overwritten held nothing negative. The bound
does not depend on whether an application succeeded.
-/

namespace Qrtb

open Transition

namespace UtxoSet

variable (s : UtxoSet) (t : Bytes)

/-- No entry, spent or not, has a negative value. -/
def NonNeg : Prop := ∀ k u, s.utxos.get? k = some u → 0 ≤ u.output.value

variable {s}

theorem NonNeg.weightAt (h : s.NonNeg) (k : OutRef) :
    0 ≤ s.utxos.weightAt Utxo.unspentValue k := by
  unfold OrderedDict.weightAt
  cases hk : s.utxos.get? k with
  | none => simp
  | some u =>
    simp only [Option.map_some, Option.getD_some, Utxo.unspentValue]
    split_ifs
    · exact le_refl 0
    · exact h k u hk

theorem NonNeg.unspentValue_le (h : s.NonNeg) {k : OutRef} {u : Utxo}
    (hk : s.utxos.get? k = some u) : u.unspentValue ≤ s.unspentTotal := by
  have hw : ∀ v ∈ s.utxos.values, 0 ≤ v.unspentValue := by
    intro v hv
    obtain ⟨j, hj⟩ := (s.utxos.mem_values_iff v).mp hv
    have hweight := h.weightAt j
    simpa [OrderedDict.weightAt, hj] using hweight
  have hle := s.utxos.weightAt_le_sumBy hw k
  simpa [OrderedDict.weightAt, hk, unspentTotal] using hle

variable (s)

theorem valueAt_set_markSpent {s' : UtxoSet} {k : OutRef} {u : Utxo}
    (hu : s.utxos.get? k = some u) (hs' : s'.utxos = s.utxos.set k (u.markSpent t)) :
    s'.valueAt = s.valueAt := by
  funext j
  simp only [valueAt, hs', OrderedDict.get?_set]
  split_ifs with h
  · simp [h, hu, Utxo.markSpent]
  · rfl

theorem unspentTotal_set_markSpent {s' : UtxoSet} {k : OutRef} {u : Utxo}
    (hu : s.utxos.get? k = some u) (hs : u.isSpent = false)
    (hs' : s'.utxos = s.utxos.set k (u.markSpent t)) :
    s'.unspentTotal = s.unspentTotal - s.valueAt k := by
  rw [unspentTotal, hs', OrderedDict.sumBy_set]
  simp [OrderedDict.weightAt, hu, Utxo.unspentValue, hs, Utxo.markSpent, valueAt, unspentTotal]

theorem unspentTotal_spendInputs {inputs : List TxInput}
    (h : (s.spendInputs t inputs).1 = true) :
    (s.spendInputs t inputs).2.unspentTotal =
      s.unspentTotal - ((inputs.map TxInput.ref).map s.valueAt).sum := by
  induction inputs generalizing s with
  | nil => simp [spendInputs]
  | cons inp inputs ih =>
    obtain ⟨u, hu, hs⟩ := ((s.spendInputs_eq_true_iff t _).mp h).2 inp (by simp)
    obtain ⟨s', hs', -, he⟩ := s.spendInputs_cons_of_spendable t inputs hu hs
    rw [he] at h ⊢
    rw [ih s' h, s.valueAt_set_markSpent t hu hs', s.unspentTotal_set_markSpent t hu hs hs']
    simp only [List.map_cons, List.sum_cons]
    omega

variable {s}

theorem NonNeg.spendInputs (h : s.NonNeg) (inputs : List TxInput) :
    (s.spendInputs t inputs).2.NonNeg := by
  intro k u hu
  rcases s.get?_spendInputs t inputs k with h' | ⟨-, v, hv, -, h'⟩
  · exact h k u (h' ▸ hu)
  · obtain rfl := Option.some.inj (h'.symm.trans hu)
    exact h k v hv

theorem unspentTotal_spendInputs_le (h : s.NonNeg) (inputs : List TxInput) :
    (s.spendInputs t inputs).2.unspentTotal ≤ s.unspentTotal := by
  induction inputs generalizing s with
  | nil => exact le_refl _
  | cons inp inputs ih =>
    by_cases hsp : s.Spendable inp.ref
    · obtain ⟨u, hu, hs⟩ := hsp
      obtain ⟨s', hs', -, he⟩ := s.spendInputs_cons_of_spendable t inputs hu hs
      have hnn : s'.NonNeg := by
        intro k v hv
        rw [hs', OrderedDict.get?_set_eq_some] at hv
        rcases hv with ⟨-, rfl⟩ | ⟨-, hv⟩
        · exact h inp.ref u hu
        · exact h k v hv
      have hvalue : 0 ≤ s.valueAt inp.ref := by
        simpa [valueAt, hu] using h inp.ref u hu
      have htotal := s.unspentTotal_set_markSpent t hu hs hs'
      rw [he]
      have hrest := ih hnn
      omega
    · rw [s.spendInputs_cons_of_not_spendable t inputs hsp]

theorem NonNeg.addUtxo (h : s.NonNeg) (i : ℤ) {out : TxOutput} (hout : 0 ≤ out.value)
    (epoch : ℤ) : (s.addUtxo t i out epoch).NonNeg := by
  intro k u hu
  rw [get?_addUtxo] at hu
  split_ifs at hu with hk
  · obtain rfl := Option.some.inj hu
    exact hout
  · exact h k u hu

theorem NonNeg.addOutputs (h : s.NonNeg) (epoch : ℤ) (i : ℕ) {outs : List TxOutput}
    (hout : ∀ o ∈ outs, 0 ≤ o.value) : (s.addOutputs t epoch i outs).NonNeg := by
  induction outs generalizing s i with
  | nil => exact h
  | cons out outs ih =>
    exact ih (h.addUtxo t i (hout out (by simp)) epoch) (i + 1) fun o ho => hout o (by simp [ho])

theorem unspentTotal_addUtxo_le (h : s.NonNeg) (i : ℤ) (out : TxOutput) (epoch : ℤ) :
    (s.addUtxo t i out epoch).unspentTotal ≤ s.unspentTotal + out.value := by
  have hw := h.weightAt (t, i)
  rw [unspentTotal, UtxoSet.addUtxo, OrderedDict.sumBy_set]
  simp only [Utxo.unspentValue, unspentTotal] at *
  simp only [Bool.false_eq_true, if_false]
  omega

theorem unspentTotal_addOutputs_le (h : s.NonNeg) (epoch : ℤ) (i : ℕ) {outs : List TxOutput}
    (hout : ∀ o ∈ outs, 0 ≤ o.value) :
    (s.addOutputs t epoch i outs).unspentTotal ≤
      s.unspentTotal + (outs.map TxOutput.value).sum := by
  induction outs generalizing s i with
  | nil => simp [UtxoSet.addOutputs]
  | cons out outs ih =>
    have hstep := unspentTotal_addUtxo_le t h i out epoch
    have hrest := ih (h.addUtxo t i (hout out (by simp)) epoch) (i + 1)
      fun o ho => hout o (by simp [ho])
    rw [UtxoSet.addOutputs, List.map_cons, List.sum_cons]
    omega

end UtxoSet

namespace Ledger

variable {L : Ledger} {tx : Transaction} {currentEpoch : ℤ}

theorem nonNeg_applyTransaction (h : L.utxoSet.NonNeg) (hout : ∀ o ∈ tx.outputs, 0 ≤ o.value) :
    (applyTransaction tx L).2.utxoSet.NonNeg := by
  intro k u hu
  rcases get?_applyTransaction tx L k with h' | ⟨-, v, t, hv, -, h'⟩ | ⟨t, j, out, -, -, hj, -, h'⟩
  · exact h k u (h' ▸ hu)
  · obtain rfl := Option.some.inj (h'.symm.trans hu)
    exact h k v hv
  · obtain rfl := Option.some.inj (h'.symm.trans hu)
    exact hout out (List.mem_of_getElem? hj)

theorem unspentTotal_applyTransaction_le (h : L.utxoSet.NonNeg)
    (hout : ∀ o ∈ tx.outputs, 0 ≤ o.value) (ht : (applyTransaction tx L).1 = .ok true) :
    (applyTransaction tx L).2.utxoSet.unspentTotal ≤
      L.utxoSet.unspentTotal - (tx.refs.map L.utxoSet.valueAt).sum + tx.totalOutput := by
  obtain ⟨t, -, hs, he⟩ := applyTransaction_eq_of_true ht
  have hspend := L.utxoSet.unspentTotal_spendInputs t hs
  have hadd := UtxoSet.unspentTotal_addOutputs_le t (h.spendInputs t tx.inputs) tx.epoch 0 hout
  rw [he, utxoSet_applyRegistry, UtxoSet.unspentTotal, utxos_applyStaking]
  rw [hspend] at hadd
  exact hadd

theorem Accepts.unspentTotal_le (ha : L.Accepts tx currentEpoch) (h : L.utxoSet.NonNeg)
    (ht : (applyTransaction tx L).1 ≠ .ok true) :
    (applyTransaction tx L).2.utxoSet.unspentTotal ≤ L.utxoSet.unspentTotal := by
  rcases applyTransaction_cases tx L with ⟨e, -, he⟩ | ⟨t, -, -, he⟩ | ⟨t, hh, hs, -⟩
  · rw [he]
  · rw [he]
    exact UtxoSet.unspentTotal_spendInputs_le t h tx.inputs
  · exact absurd (ha.applies_of_spendInputs hh hs) ht

theorem Accepts.nonNeg (ha : L.Accepts tx currentEpoch) (h : L.utxoSet.NonNeg) :
    (applyTransaction tx L).2.utxoSet.NonNeg :=
  nonNeg_applyTransaction h fun _ ho => ha.wellFormed.value_nonneg ho

theorem Accepts.conserves (h : L.Accepts tx currentEpoch) (hc : tx.txType ≠ .coinbase)
    (hs : tx.txType ≠ .slash) : L.Conserves tx := by
  cases h.cases with
  | coinbase type => exact absurd type hc
  | slash type => exact absurd type hs
  | transfer _ _ _ _ conserves => exact conserves
  | register _ _ _ _ _ rule => exact rule.conserves
  | rotate _ _ _ _ _ _ rule => exact rule.conserves

theorem Accepts.coinbase (h : L.Accepts tx currentEpoch) (hc : tx.txType = .coinbase) :
    tx.inputs = [] ∧ tx.totalOutput ≤ MAX_COINBASE_VALUE := by
  cases h.cases with
  | coinbase _ inputs bounded => exact ⟨inputs, bounded⟩
  | transfer type => simp [IsTransferLike, hc] at type
  | slash type => simp [hc] at type
  | register type => simp [hc] at type
  | rotate type => simp [hc] at type

/-- What an event may add to the unspent total. -/
def charge (e : Event) : ℤ :=
  if e.Applied then if e.tx.txType = .coinbase then e.tx.totalOutput else -e.tx.fee else 0

theorem unspentTotal_step_le {M : Ledger} {e : Event} (h : L.utxoSet.NonNeg)
    (hs : e.tx.txType ≠ .slash) (hstep : Step L e M) :
    M.utxoSet.unspentTotal ≤ L.utxoSet.unspentTotal + charge e := by
  rcases step_cases hstep with ⟨-, ho, rfl⟩ | ⟨ha, ho, rfl⟩
  · simp [charge, Event.Applied, ho]
  by_cases ht : (applyTransaction e.tx L).1 = .ok true
  · have happlied : e.Applied := by rw [Event.Applied, ho, ht]
    have htotal := unspentTotal_applyTransaction_le h
      (fun _ hout => ha.wellFormed.value_nonneg hout) ht
    simp only [charge, happlied, if_true]
    split_ifs with hc
    · simp only [Transaction.refs, (ha.coinbase hc).1, List.map_nil, List.sum_nil] at htotal
      omega
    · have hcons := ha.conserves hc hs
      simp only [Conserves] at hcons
      simp only [Transaction.refs, List.map_map] at htotal
      have hvalues : e.tx.inputs.map L.valueOf =
        e.tx.inputs.map (L.utxoSet.valueAt ∘ TxInput.ref) := rfl
      rw [hvalues] at hcons
      omega
  · have hnot : ¬ e.Applied := by simpa [Event.Applied, ho] using ht
    simp only [charge, hnot, if_false, add_zero]
    exact ha.unspentTotal_le h ht

theorem nonNeg_step {M : Ledger} {e : Event} (h : L.utxoSet.NonNeg) (hstep : Step L e M) :
    M.utxoSet.NonNeg := by
  rcases step_cases hstep with ⟨-, -, rfl⟩ | ⟨ha, -, rfl⟩
  · exact h
  · exact ha.nonNeg h

theorem Reachable.nonNeg (h : L.Reachable) : L.utxoSet.NonNeg := by
  obtain ⟨es, hrun⟩ := h
  apply hrun.invariant (I := fun L => L.utxoSet.NonNeg)
  · intro L e M hL hstep
    exact nonNeg_step hL hstep
  · intro k u hu
    simp at hu

theorem unspentTotal_funded_le (owner : Bytes) {lock : ℤ} (h0 : 0 ≤ lock) (h1 : lock < 256 ^ 8) :
    (funded owner lock).utxoSet.unspentTotal ≤ 2000000 := by
  have hempty : ({} : Ledger).Reachable := ⟨[], .nil _⟩
  have htotal := unspentTotal_applyTransaction_le hempty.nonNeg
    (fun _ ho => (accepts_funding owner lock {}).wellFormed.value_nonneg ho)
    (applies_funding owner h0 h1 {})
  have hrefs : (funding owner lock).refs = [] := rfl
  have hout : (funding owner lock).totalOutput = 2000000 := rfl
  have hzero : ({} : Ledger).utxoSet.unspentTotal = 0 := rfl
  rw [hrefs, hout, hzero, List.map_nil, List.sum_nil] at htotal
  rw [funded]
  omega

/-- The outputs of the coinbases that were applied. -/
def issued (es : List Event) : ℤ :=
  (es.map fun e =>
    if e.Applied ∧ e.tx.txType = .coinbase then e.tx.totalOutput else 0).sum

/-- The fees of the other transactions that were applied. -/
def feesPaid (es : List Event) : ℤ :=
  (es.map fun e => if e.Applied ∧ e.tx.txType ≠ .coinbase then e.tx.fee else 0).sum

theorem sum_charge (es : List Event) : (es.map charge).sum = issued es - feesPaid es := by
  induction es with
  | nil => rfl
  | cons e es ih =>
    simp only [issued, feesPaid, List.map_cons, List.sum_cons, charge] at ih ⊢
    split_ifs <;> simp_all <;> omega

/-- Without slashes, what is unspent was issued and not paid as a fee. -/
theorem unspentTotal_le_issued {es : List Event} {L : Ledger} (hrun : Run Step {} es L)
    (hs : ∀ e ∈ es, e.tx.txType ≠ .slash) :
    L.utxoSet.unspentTotal ≤ issued es - feesPaid es ∧
      ∀ e ∈ es, e.Applied → e.tx.txType = .coinbase → e.tx.totalOutput ≤ MAX_COINBASE_VALUE := by
  have hzero : ({} : Ledger).utxoSet.NonNeg := by
    intro k u hu
    simp at hu
  constructor
  · have hpot := (hrun.restrict hs).potential_le (I := fun L => L.utxoSet.NonNeg)
      (f := fun L => L.utxoSet.unspentTotal) (g := charge)
      (fun _ _ _ hL hstep => nonNeg_step hL hstep.2)
      (fun _ _ _ hL hstep => unspentTotal_step_le hL hstep.1 hstep.2) hzero
    rw [sum_charge] at hpot
    have hempty : ({} : Ledger).utxoSet.unspentTotal = 0 := rfl
    omega
  · refine hrun.forall_label (P := fun e => e.Applied → e.tx.txType = .coinbase →
      e.tx.totalOutput ≤ MAX_COINBASE_VALUE) ?_
    intro M e N hstep happlied hc
    rcases step_cases hstep with ⟨-, ho, -⟩ | ⟨ha, -, -⟩
    · rw [Event.Applied, ho] at happlied
      cases happlied
    · exact (ha.coinbase hc).2

theorem unspentTotal_le_issued_spent : ∃ (es : List Event) (L : Ledger), Run Step {} es L ∧
    issued es = 2000000 ∧ feesPaid es = 200000 ∧ L.utxoSet.unspentTotal ≤ 2000000 - 200000 := by
  obtain ⟨h, e, e', L, hrun, happlied, happlied', htype, htype', hfee, hfee', -⟩ :=
    exists_spending_run
  let c : Event := ⟨0, funding [] 0, some (applyTransaction (funding [] 0) {}).1⟩
  have hcoinbase : c.Applied :=
    congrArg some (applies_funding [] (by decide : (0 : ℤ) ≤ 0) (by decide) {})
  have htotal : c.tx.totalOutput = 2000000 := by decide
  have hctype : c.tx.txType = .coinbase := rfl
  have hall : Run Step {} [c, e, e'] L := (run_funded [] 0).append hrun
  have hissued : issued [c, e, e'] = 2000000 := by
    simp [issued, hcoinbase, htotal, hctype, htype, htype']
  have hfees : feesPaid [c, e, e'] = 200000 := by
    simp [feesPaid, happlied, happlied', hctype, htype, htype', hfee, hfee']
  have hbound := (unspentTotal_le_issued hall (by simp [hctype, htype, htype'])).1
  rw [hissued, hfees] at hbound
  exact ⟨[c, e, e'], L, hall, hissued, hfees, hbound⟩

end Ledger

end Qrtb
