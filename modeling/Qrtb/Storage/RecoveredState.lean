import Qrtb.Storage.Recovery

/-!
# Stake, data and creation epochs after recovery

The tables have no column for the data of an output, none for the stake index, and
recovery dates every output by its block. Nothing is lost in runs whose
transactions carry no data, stake nothing and have the epoch of their block.
-/

namespace Qrtb

open Transition

namespace UtxoSet

variable (s : UtxoSet)

theorem staked_replay (t : Bytes) (epoch : ℤ) (outs : List TxOutput) (refs : List OutRef) :
    (s.replay t epoch outs refs).staked = s.staked := by
  rw [replay, ← s.staked_addOutputs t epoch 0 outs]
  generalize s.addOutputs t epoch 0 outs = s
  induction refs generalizing s with
  | nil => rfl
  | cons ref refs ih =>
    rw [List.foldl_cons, ih, staked_spendUtxo]

theorem getStake_addStakes (epoch : ℤ) {outs : List TxOutput}
    (h : ∀ out ∈ outs, epoch < out.lockEpoch → out.value = 0) (a : Bytes) :
    (s.addStakes epoch outs).getStake a = s.getStake a := by
  induction outs generalizing s with
  | nil => rfl
  | cons out outs ih =>
    rw [addStakes, ih _ fun o ho => h o (List.mem_cons_of_mem _ ho)]
    split_ifs with hlock
    · rw [getStake_addStake, h out List.mem_cons_self hlock, ite_self, add_zero]
    · rfl

end UtxoSet

namespace Ledger

def StakesNothing (tx : Transaction) : Prop :=
  tx.txType = .stake → ∀ out ∈ tx.outputs, tx.epoch < out.lockEpoch → out.value = 0

theorem getStake_applyTransaction {tx : Transaction} (h : StakesNothing tx) (L : Ledger)
    (a : Bytes) : (applyTransaction tx L).2.utxoSet.getStake a = L.utxoSet.getStake a := by
  have hstaking : ∀ M : Ledger, (applyStaking tx M).utxoSet.getStake a = M.utxoSet.getStake a := by
    intro M
    unfold applyStaking
    split_ifs with hst
    · exact M.utxoSet.getStake_addStakes tx.epoch (h hst) a
    · rfl
  rcases applyTransaction_cases tx L with ⟨e, -, he⟩ | ⟨h', -, -, he⟩ | ⟨h', -, -, he⟩
  · rw [he]
  · rw [he, UtxoSet.getStake, UtxoSet.staked_spendInputs]
    rfl
  · rw [he, utxoSet_applyRegistry, hstaking, UtxoSet.getStake, UtxoSet.staked_addOutputs,
      UtxoSet.staked_spendInputs]
    rfl

theorem getStake_applyTransactions {txs : List Transaction} (h : ∀ tx ∈ txs, StakesNothing tx)
    (L : Ledger) (a : Bytes) :
    (BlockProducer.applyTransactions txs L).2.utxoSet.getStake a = L.utxoSet.getStake a := by
  induction txs generalizing L with
  | nil => rfl
  | cons tx txs ih =>
    have hone := getStake_applyTransaction (h tx List.mem_cons_self) L a
    rw [BlockProducer.applyTransactions]
    rcases hres : applyTransaction tx L with ⟨_ | _ | _, M⟩
    · rw [hres] at hone
      exact hone
    · rw [hres] at hone
      exact hone
    · rw [hres] at hone
      exact (ih (fun t ht => h t (List.mem_cons_of_mem _ ht)) M).trans hone

end Ledger

namespace StoringProducer

variable {F : Type} [PyFloat F]

open StorageManager (recovered recoverBlock recoverTransaction)

/-- The transactions of a block have its epoch, carry no data and stake nothing. -/
def NothingLost (c : ConsensusBlock F × List Transaction) : Prop :=
  ∀ tx ∈ c.2, tx.epoch = c.1.epoch ∧ (∀ out ∈ tx.outputs, out.data = []) ∧
    Ledger.StakesNothing tx

theorem getStake_run {s s' : StoringProducer} {calls : List (ConsensusBlock F × List Transaction)}
    (hrun : Run Step s calls s') (h : ∀ c ∈ calls, NothingLost c) (a : Bytes) :
    s'.producer.ledger.utxoSet.getStake a = s.producer.ledger.utxoSet.getStake a := by
  induction hrun with
  | nil => rfl
  | cons hstep _ ih =>
    rename_i s t u c calls _
    obtain ⟨happ, -⟩ := step_cases hstep
    have hone := Ledger.getStake_applyTransactions
      (fun tx htx => (h c List.mem_cons_self tx htx).2.2) s.producer.ledger a
    rw [happ] at hone
    rw [ih fun c' hc' => h c' (List.mem_cons_of_mem _ hc'), hone]

omit [PyFloat F] in
theorem staked_recovered (calls : List (ConsensusBlock F × List Transaction)) :
    (recovered calls).staked = ∅ := by
  have hblock : ∀ (epoch : ℤ) (txs : List Transaction) (u : UtxoSet),
      (txs.foldl (recoverTransaction epoch) u).staked = u.staked := by
    intro epoch txs
    induction txs with
    | nil => exact fun u => rfl
    | cons tx txs ih =>
      intro u
      rw [List.foldl_cons, ih, recoverTransaction, UtxoSet.staked_replay]
  rw [recovered]
  induction calls using List.reverseRecOn with
  | nil => rfl
  | append_singleton calls c ih =>
    rw [List.foldl_append, List.foldl_cons, List.foldl_nil, recoverBlock, hblock, ih]

omit [PyFloat F] in
theorem unseen_of_nothingLost {c : ConsensusBlock F × List Transaction} (h : NothingLost c) :
    ∀ tx ∈ c.2, Unseen id c.1.epoch tx := by
  intro tx htx out hout t i
  obtain ⟨hepoch, hdata, -⟩ := h tx htx
  have hstored : out.stored = out := by
    rw [TxOutput.stored, OutputRow.ofTxOutput, OutputRow.toTxOutput, ← hdata out hout]
  rw [hepoch, hstored]

/-- When nothing is lost in any block of a run, the recovered set has the stakes of the live one
and its unspent outputs with their data and creation epochs. -/
theorem rebuild_restores_state {p : BlockProducer} (hp : p.ledger.utxoSet = {})
    {s : StoringProducer} {calls : List (ConsensusBlock F × List Transaction)}
    (hrun : Run Step ⟨p, ∅⟩ calls s) (hseq : WellSequenced calls)
    (hst : ∀ c ∈ calls, Storable c) (hlost : ∀ c ∈ calls, NothingLost c) :
    ∃ m, s.storage.rebuildUtxoSet = .ok m ∧
      (∀ a, m.utxoSet.getStake a = s.producer.ledger.utxoSet.getStake a) ∧
      ∀ k u, s.producer.ledger.utxoSet.utxos.get? k = some u → u.isSpent = false →
        ∃ v, m.utxoSet.utxos.get? k = some v ∧ v.output.data = u.output.data ∧
          v.epochCreated = u.epochCreated := by
  have hid : Ledger.EntryView (id : Utxo → Utxo) :=
    ⟨fun _ _ h => congrArg Utxo.isSpent h, fun t _ _ h => congrArg (fun u => u.markSpent t) h⟩
  obtain ⟨hm, hsame⟩ := rebuild_run hid hp hrun hseq hst fun c hc =>
    unseen_of_nothingLost (hlost c hc)
  refine ⟨_, hm, ?_, ?_⟩
  · intro a
    rw [getStake_run hrun hlost a, hp, UtxoSet.getStake, staked_recovered]
    rfl
  · intro k u hu _
    have hk := hsame k
    rw [hu, Option.map_some, id, Option.map_id, id] at hk
    exact ⟨u, hk.symm, rfl, rfl⟩

/-- A coinbase with a data payload, dated in epoch 0. -/
def payloadTx (data : Bytes) : Transaction :=
  { version := 1, txType := .coinbase, inputs := [],
    outputs := [{ value := 1000, address := [1], data := data }], epoch := 0, timestamp := 0,
    fee := 0, nonce := [] }

theorem storable_payload (epoch : ℤ) (data : Bytes) (he : 0 ≤ epoch ∧ epoch < 2 ^ 63)
    (hms : FitsSql (PyFloat.milliseconds (sealedBlock epoch).finalizationTime))
    (hepoch : (sealedBlock epoch).epoch = epoch) (hst : (payloadTx data).Storable) :
    ∀ c ∈ [(sealedBlock epoch, [payloadTx data])], Storable c := by
  intro c hc
  obtain rfl := List.mem_singleton.mp hc
  have hone : ∀ tx ∈ [payloadTx data], tx.Storable := by
    intro tx htx
    rw [List.mem_singleton.mp htx]
    exact hst
  refine ⟨⟨?_, ?_, hms, show FitsSql 1 by decide⟩, hone⟩
  · rw [Except.returns_mapM]
    exact fun tx htx => (hone tx htx).exists_hash
  · rw [hepoch]
    constructor <;> omega

/-- Two blocks of epochs 1 and 2: outputs come back with the epoch they were created in. -/
theorem rebuild_restores_state_twoBlocks :
    ∃ s : StoringProducer, Run Step ⟨{ validatorId := [] }, ∅⟩ twoBlocks s ∧
      (∃ u, s.producer.ledger.utxoSet.utxos.get? (mintHash, 1) = some u ∧ u.isSpent = false ∧
        u.epochCreated = 1) ∧
      ∃ m, s.storage.rebuildUtxoSet = .ok m ∧
        (∀ a, m.utxoSet.getStake a = s.producer.ledger.utxoSet.getStake a) ∧
        ∀ k u, s.producer.ledger.utxoSet.utxos.get? k = some u → u.isSpent = false →
          ∃ v, m.utxoSet.utxos.get? k = some v ∧ v.output.data = u.output.data ∧
            v.epochCreated = u.epochCreated := by
  obtain ⟨s, hrun, -, hkept⟩ := exists_run_twoBlocks
  refine ⟨s, hrun, ⟨_, hkept, rfl, rfl⟩,
    rebuild_restores_state rfl hrun wellSequenced_twoBlocks storable_twoBlocks ?_⟩
  intro c hc tx htx
  have hepoch : tx.epoch = c.1.epoch := by
    simp only [twoBlocks, List.mem_cons, List.not_mem_nil, or_false] at hc
    rcases hc with rfl | rfl <;> rw [List.mem_singleton.mp htx] <;> decide +kernel
  rcases eq_of_mem_twoBlocks hc htx with rfl | rfl
  · exact ⟨hepoch, by decide, fun h => by cases h⟩
  · exact ⟨hepoch, by simp [moving], fun h => by cases h⟩

/-- The payload of an output is not recovered, nor is an epoch other than that of its block. -/
theorem rebuild_loses_state :
    ∃ s : StoringProducer,
      Run Step ⟨{ validatorId := [] }, ∅⟩ [(sealedBlock 1, [payloadTx [7]])] s ∧
      ¬ ∃ m, s.storage.rebuildUtxoSet = .ok m ∧
        (∀ a, m.utxoSet.getStake a = s.producer.ledger.utxoSet.getStake a) ∧
        ∀ k u, s.producer.ledger.utxoSet.utxos.get? k = some u → u.isSpent = false →
          ∃ v, m.utxoSet.utxos.get? k = some v ∧ v.output.data = u.output.data ∧
            v.epochCreated = u.epochCreated := by
  have hpack : (payloadTx [7]).Packable := by decide
  obtain ⟨s, hrun, hledger⟩ := exists_run_single (sealedBlock 1)
    (rfl : (payloadTx [7]).txType = .coinbase) rfl hpack
  refine ⟨s, hrun, ?_⟩
  rintro ⟨m, hm, -, hall⟩
  obtain ⟨hm', -⟩ := rebuild_run entryView_kept rfl hrun
    (wellSequenced_single (by decide +kernel) rfl)
    (storable_payload 1 [7] (by decide) (by decide +kernel) (by decide +kernel) (by decide))
    fun _ _ _ _ _ _ _ _ => rfl
  obtain rfl := Except.ok.inj (hm.symm.trans hm')
  obtain ⟨txHash, hh⟩ := (payloadTx [7]).txHash_returns.mpr hpack
  have hlive := Ledger.get?_applyTransaction_output
    (applies_of_no_inputs (rfl : (payloadTx [7]).txType = .coinbase) rfl hpack {}) hh (j := 0) rfl
  rw [← hledger] at hlive
  obtain ⟨v, hv, hdata, -⟩ := hall _ _ hlive rfl
  have hrec : recovered [(sealedBlock 1, [payloadTx [7]])] =
      ({} : UtxoSet).replay txHash (sealedBlock 1).epoch
        ((payloadTx [7]).outputs.map TxOutput.stored) [] := by
    rw [recovered, List.foldl_cons, List.foldl_nil, recoverBlock, List.foldl_cons, List.foldl_nil,
      recoverTransaction, hh]
    rfl
  rw [hrec, UtxoSet.get?_replay, if_neg List.not_mem_nil] at hv
  simp only [UtxoSet.created, if_true] at hv
  obtain rfl := Option.some.inj hv
  cases hdata

end StoringProducer

end Qrtb
