import Mathlib.Algebra.BigOperators.Group.Finset.Piecewise
import Mathlib.Algebra.Order.BigOperators.Group.Finset
import Qrtb.Ledger.Conservation

/-!
# The stake index

Applying a STAKE transaction credits its locked outputs to an index by address.
Nothing is ever taken off the index, so it matches the outputs it summarizes as
long as no staked output of positive value is spent, whatever the type of the
spending transaction, or overwritten.
-/

namespace Qrtb

open Transition

namespace Transaction

/-- The output that the transaction stores under a key. -/
def createdOutput (tx : Transaction) (k : OutRef) : Option TxOutput :=
  match tx.txHash with
  | .error _ => none
  | .ok h => if k.1 = h ∧ 0 ≤ k.2 then tx.outputs[k.2.toNat]? else none

theorem createdOutput_eq_some {tx : Transaction} {k : OutRef} {out : TxOutput} :
    tx.createdOutput k = some out ↔
      ∃ h, ∃ j : ℕ, tx.txHash = .ok h ∧ tx.outputs[j]? = some out ∧ k = (h, (j : ℤ)) := by
  unfold createdOutput
  constructor
  · intro hout
    split at hout
    next => cases hout
    next h hh =>
      split_ifs at hout with hk
      exact ⟨h, k.2.toNat, hh, hout, Prod.ext hk.1 (Int.toNat_of_nonneg hk.2).symm⟩
  · intro hout
    obtain ⟨h, j, hh, hj, rfl⟩ := hout
    simp [hh, hj]

theorem creates_iff {tx : Transaction} {k : OutRef} :
    tx.Creates k ↔ ∃ out, tx.createdOutput k = some out := by
  constructor
  · intro hk
    obtain ⟨h, j, out, hh, hj, rfl⟩ := hk
    exact ⟨out, createdOutput_eq_some.mpr ⟨h, j, hh, hj, rfl⟩⟩
  · intro hk
    obtain ⟨out, hout⟩ := hk
    obtain ⟨h, j, hh, hj, rfl⟩ := createdOutput_eq_some.mp hout
    exact ⟨h, j, out, hh, hj, rfl⟩

/-- An output that a STAKE transaction locks. -/
def Stakes (tx : Transaction) (out : TxOutput) : Prop :=
  tx.txType = .stake ∧ out.lockEpoch > tx.epoch

instance (tx : Transaction) (out : TxOutput) : Decidable (tx.Stakes out) :=
  inferInstanceAs (Decidable (_ ∧ _))

/-- What an output adds to the stake of an address. -/
def stakeFor (tx : Transaction) (address : Bytes) (out : TxOutput) : ℤ :=
  if out.address = address ∧ tx.Stakes out then out.value else 0

/-- Whether the transaction creates the entry under a key, and if so whether as a stake. -/
def stakeMark (tx : Transaction) (k : OutRef) : Option Bool :=
  (tx.createdOutput k).map fun out => tx.Stakes out

end Transaction

namespace UtxoSet

theorem getStake_addStakes_eq_sum {tx : Transaction} (htype : tx.txType = .stake) (address : Bytes)
    (outs : List TxOutput) (s : UtxoSet) :
    (s.addStakes tx.epoch outs).getStake address =
      s.getStake address + (outs.map (tx.stakeFor address)).sum := by
  induction outs generalizing s with
  | nil => simp [addStakes]
  | cons out outs ih =>
    rw [addStakes, ih, List.map_cons, List.sum_cons]
    by_cases hlock : out.lockEpoch > tx.epoch
    · have hstake : tx.stakeFor address out = if address = out.address then out.value else 0 := by
        simp [Transaction.stakeFor, Transaction.Stakes, htype, hlock, eq_comm]
      rw [if_pos hlock, getStake_addStake, hstake, add_assoc]
    · have hstake : tx.stakeFor address out = 0 := by
        simp [Transaction.stakeFor, Transaction.Stakes, hlock]
      rw [if_neg hlock, hstake, zero_add]

end UtxoSet

namespace Ledger

/-- The transaction that created the current entry under the key staked it. -/
def Staked (es : List Event) (k : OutRef) : Prop :=
  lastWrite (fun e : Event => e.tx.stakeMark k) es = some true

instance (es : List Event) (k : OutRef) : Decidable (Staked es k) :=
  inferInstanceAs (Decidable (_ = _))

/-- What the entry under a key contributes to the unspent stake of an address. -/
def stakedAt (es : List Event) (address : Bytes) (L : Ledger) (k : OutRef) : ℤ :=
  match L.utxoSet.utxos.get? k with
  | none => 0
  | some u =>
    if u.isSpent = false ∧ u.output.address = address ∧ Staked es k then u.output.value else 0

/-- The value of the unspent outputs of an address that were created as stakes. -/
def stakedTotal (es : List Event) (address : Bytes) (L : Ledger) : ℤ :=
  ∑ k ∈ L.utxoSet.utxos.keys.toFinset, L.stakedAt es address k

/-- The index agrees with the outputs, for every address. -/
def StakeMatches (es : List Event) (L : Ledger) : Prop :=
  ∀ address, L.utxoSet.getStake address = L.stakedTotal es address

/-- The transaction neither spends nor recreates an unspent staked output of positive value. -/
def KeepsStake (es : List Event) (L : Ledger) (tx : Transaction) : Prop :=
  ∀ k u, L.utxoSet.utxos.get? k = some u → u.isSpent = false → Staked es k →
    k ∈ tx.refs ∨ tx.Creates k → u.output.value = 0

/-- A step that validates a transaction and applies it with success. -/
def Applies (L : Ledger) (e : Event) (M : Ledger) : Prop := e.Applied ∧ Step L e M

theorem stakedAt_of_get?_eq {es fs : List Event} {L M : Ledger} {k : OutRef}
    (hget : M.utxoSet.utxos.get? k = L.utxoSet.utxos.get? k) (hstaked : Staked fs k ↔ Staked es k)
    (address : Bytes) : M.stakedAt fs address k = L.stakedAt es address k := by
  rw [stakedAt, stakedAt, hget]
  simp only [hstaked]

theorem staked_append_of_creates {es : List Event} {e : Event} {k : OutRef} {out : TxOutput}
    (h : e.tx.createdOutput k = some out) : Staked (es ++ [e]) k ↔ e.tx.Stakes out := by
  rw [Staked, lastWrite_append_singleton, Transaction.stakeMark, h]
  simp

theorem staked_pair {tx : Transaction} {k : OutRef} {out : TxOutput} (e : Event) (epoch : ℤ)
    (outcome : Option (Except PyError Bool)) (h : tx.createdOutput k = some out)
    (hstakes : tx.Stakes out) : Staked [e, ⟨epoch, tx, outcome⟩] k :=
  (@staked_append_of_creates [e] ⟨epoch, tx, outcome⟩ k out h).mpr hstakes

theorem staked_append_of_not_creates {es : List Event} {e : Event} {k : OutRef}
    (h : e.tx.createdOutput k = none) : Staked (es ++ [e]) k ↔ Staked es k := by
  rw [Staked, lastWrite_append_singleton, Transaction.stakeMark, h]
  rfl

section

variable {es : List Event} {L M : Ledger} {e : Event} (h : Applies L e M)

include h

theorem Applies.accepts : L.Accepts e.tx e.epoch := (step_applied h.2 h.1).1

theorem Applies.eq_apply :
    (applyTransaction e.tx L).1 = .ok true ∧ M = (applyTransaction e.tx L).2 :=
  (step_applied h.2 h.1).2

theorem Applies.exists_hash : ∃ t, e.tx.txHash = .ok t := by
  obtain ⟨t, ht, -, -⟩ := applyTransaction_eq_of_true h.eq_apply.1
  exact ⟨t, (hashWhenUsed_of_outputs h.accepts.wellFormed.hasOutputs).symm.trans ht⟩

/-- A created output holds what it stakes, a spent one nothing, every other what it held. -/
theorem Applies.stakedAt_eq (address : Bytes) (k : OutRef) :
    M.stakedAt (es ++ [e]) address k =
      match e.tx.createdOutput k with
      | some out => e.tx.stakeFor address out
      | none => if k ∈ e.tx.refs then 0 else L.stakedAt es address k := by
  obtain ⟨happly, rfl⟩ := h.eq_apply
  cases hk : e.tx.createdOutput k with
  | some out =>
    obtain ⟨t, j, ht, hj, rfl⟩ := Transaction.createdOutput_eq_some.mp hk
    have hnew := get?_applyTransaction_output happly ht hj
    simp only [stakedAt, hnew, UtxoSet.newUtxo, staked_append_of_creates hk, Transaction.stakeFor,
      true_and]
  | none =>
    have hnot : ¬ e.tx.Creates k := by
      rw [Transaction.creates_iff, hk]
      simp
    dsimp only
    split_ifs with href
    · obtain ⟨inp, hinp, rfl⟩ := List.mem_map.mp href
      obtain ⟨t, -, hspend, -⟩ := applyTransaction_eq_of_true happly
      obtain ⟨u, hu, -⟩ := ((L.utxoSet.spendInputs_eq_true_iff t _).mp hspend).2 inp hinp
      obtain ⟨t', hspent⟩ := get?_applyTransaction_input happly hinp hnot hu
      simp [stakedAt, hspent, Utxo.markSpent]
    · exact stakedAt_of_get?_eq (get?_applyTransaction_of_not_creates href hnot)
        (staked_append_of_not_creates hk) address

theorem Applies.getStake_eq (address : Bytes) :
    M.utxoSet.getStake address =
      L.utxoSet.getStake address + (e.tx.outputs.map (e.tx.stakeFor address)).sum := by
  obtain ⟨happly, rfl⟩ := h.eq_apply
  obtain ⟨t, -, -, heq⟩ := applyTransaction_eq_of_true happly
  rw [heq, utxoSet_applyRegistry, applyStaking]
  split_ifs with htype
  · rw [UtxoSet.getStake_addStakes_eq_sum htype, UtxoSet.getStake, UtxoSet.staked_addOutputs,
      UtxoSet.staked_spendInputs]
    rfl
  · have hnone : (e.tx.outputs.map (e.tx.stakeFor address)).sum = 0 := by
      apply List.sum_eq_zero
      simp [Transaction.stakeFor, Transaction.Stakes, htype]
    rw [UtxoSet.getStake, UtxoSet.staked_addOutputs, UtxoSet.staked_spendInputs, hnone, add_zero]
    rfl

/-- The keys the outputs of a transaction are stored under. -/
def createdRefs (t : Bytes) (outs : List TxOutput) : List OutRef :=
  (List.range outs.length).map fun j : ℕ => (t, (j : ℤ))

omit h in
theorem mem_createdRefs {t : Bytes} {tx : Transaction} (ht : tx.txHash = .ok t) {k : OutRef} :
    k ∈ createdRefs t tx.outputs ↔ tx.Creates k := by
  simp only [createdRefs, List.mem_map, List.mem_range]
  constructor
  · intro hk
    obtain ⟨j, hj, rfl⟩ := hk
    exact ⟨t, j, tx.outputs[j], ht, List.getElem?_eq_getElem hj, rfl⟩
  · intro hk
    obtain ⟨t', j, out, ht', hj, rfl⟩ := hk
    obtain rfl := Except.ok.inj (ht.symm.trans ht')
    exact ⟨j, (List.getElem?_eq_some_iff.mp hj).1, rfl⟩

omit h in
theorem nodup_createdRefs (t : Bytes) (outs : List TxOutput) : (createdRefs t outs).Nodup := by
  refine List.Nodup.map ?_ List.nodup_range
  intro i j hij
  exact Int.ofNat.inj (congrArg Prod.snd hij)

variable (es) in
/-- Together the created outputs hold what the outputs of the transaction stake. -/
theorem Applies.sum_created {t : Bytes} (ht : e.tx.txHash = .ok t) (address : Bytes) :
    ∑ k ∈ (createdRefs t e.tx.outputs).toFinset, M.stakedAt (es ++ [e]) address k =
      (e.tx.outputs.map (e.tx.stakeFor address)).sum := by
  rw [List.sum_toFinset _ (nodup_createdRefs t e.tx.outputs), createdRefs, List.map_map]
  congr 1
  apply List.ext_getElem
  · simp
  · intro j hj _
    have hlt : j < e.tx.outputs.length := by simpa using hj
    have hout : e.tx.createdOutput (t, (j : ℤ)) = some e.tx.outputs[j] :=
      Transaction.createdOutput_eq_some.mpr ⟨t, j, ht, List.getElem?_eq_getElem hlt, rfl⟩
    simp [h.stakedAt_eq, hout]

omit h in
theorem stakedTotal_eq_sum {S : Finset OutRef} (hS : L.utxoSet.utxos.keys.toFinset ⊆ S)
    (address : Bytes) : L.stakedTotal es address = ∑ k ∈ S, L.stakedAt es address k := by
  apply Finset.sum_subset hS
  intro k _ hk
  have hnone : L.utxoSet.utxos.get? k = none := by
    rw [List.mem_toFinset, OrderedDict.mem_keys_iff] at hk
    exact Option.eq_none_iff_forall_ne_some.mpr (not_exists.mp hk)
  rw [stakedAt, hnone]

variable (es) in
/-- What the transaction touches leaves the total, what it stakes enters it. -/
theorem Applies.stakedTotal_eq {t : Bytes} (ht : e.tx.txHash = .ok t) (address : Bytes) :
    M.stakedTotal (es ++ [e]) address +
        ∑ k ∈ (createdRefs t e.tx.outputs ++ e.tx.refs).toFinset, L.stakedAt es address k =
      L.stakedTotal es address + (e.tx.outputs.map (e.tx.stakeFor address)).sum := by
  let created := (createdRefs t e.tx.outputs).toFinset
  let touched := (createdRefs t e.tx.outputs ++ e.tx.refs).toFinset
  let S := L.utxoSet.utxos.keys.toFinset ∪ M.utxoSet.utxos.keys.toFinset ∪ touched
  have hcreated : created ⊆ S := by
    intro k hk
    have hmem : k ∈ touched := by
      rw [List.mem_toFinset, List.mem_append]
      exact Or.inl (List.mem_toFinset.mp hk)
    exact Finset.mem_union_right _ hmem
  rw [stakedTotal_eq_sum (S := S) (fun k hk => by simp [S, hk]) address,
    stakedTotal_eq_sum (S := S) (fun k hk => by simp [S, hk]) address,
    ← h.sum_created es ht address]
  have hrestrict : ∀ (T : Finset OutRef) (f : OutRef → ℤ), T ⊆ S →
      ∑ k ∈ T, f k = ∑ k ∈ S, if k ∈ T then f k else 0 := by
    intro T f hT
    rw [Finset.sum_ite_mem, Finset.inter_eq_right.mpr hT]
  rw [hrestrict touched _ Finset.subset_union_right, hrestrict created _ hcreated,
    ← Finset.sum_add_distrib, ← Finset.sum_add_distrib]
  apply Finset.sum_congr rfl
  intro k _
  by_cases hk : e.tx.Creates k
  · have hmem := (mem_createdRefs ht).mpr hk
    simp [created, touched, hmem, add_comm]
  · have hmem : k ∉ createdRefs t e.tx.outputs := fun hk' => hk ((mem_createdRefs ht).mp hk')
    have hnone : e.tx.createdOutput k = none := by
      rw [Transaction.creates_iff, not_exists] at hk
      exact Option.eq_none_iff_forall_ne_some.mpr hk
    by_cases href : k ∈ e.tx.refs
    · simp [created, touched, hmem, href, h.stakedAt_eq, hnone]
    · simp [created, touched, hmem, href, h.stakedAt_eq, hnone]

end

theorem stakedAt_nonneg {L : Ledger} (hL : L.utxoSet.NonNeg) (es : List Event) (address : Bytes)
    (k : OutRef) : 0 ≤ L.stakedAt es address k := by
  rw [stakedAt]
  split
  next => exact le_refl 0
  next u hu =>
    split_ifs
    · exact hL k u hu
    · exact le_refl 0

/-- One step keeps the index in agreement exactly when no stake is spent or recreated. -/
theorem Applies.stakeMatches_iff {es : List Event} {L M : Ledger} {e : Event} (h : Applies L e M)
    (hL : L.utxoSet.NonNeg) (hmatches : L.StakeMatches es) :
    M.StakeMatches (es ++ [e]) ↔ L.KeepsStake es e.tx := by
  obtain ⟨t, ht⟩ := h.exists_hash
  -- the index falls behind by what the transaction touches
  have hdefect : M.StakeMatches (es ++ [e]) ↔ ∀ address,
      ∑ k ∈ (createdRefs t e.tx.outputs ++ e.tx.refs).toFinset, L.stakedAt es address k = 0 := by
    apply forall_congr'
    intro address
    have htotal := h.stakedTotal_eq es ht address
    have hindex := h.getStake_eq address
    have hbefore := hmatches address
    constructor
    · intro hafter
      omega
    · intro hzero
      omega
  rw [hdefect]
  constructor
  · intro hzero k u hu hunspent hstaked htouched
    have hk : k ∈ (createdRefs t e.tx.outputs ++ e.tx.refs).toFinset := by
      rw [List.mem_toFinset, List.mem_append, mem_createdRefs ht]
      exact htouched.symm
    have hat := (Finset.sum_eq_zero_iff_of_nonneg
      fun k _ => stakedAt_nonneg hL es u.output.address k).mp (hzero u.output.address) k hk
    simpa [stakedAt, hu, hunspent, hstaked] using hat
  · intro hkeep address
    apply Finset.sum_eq_zero
    intro k hk
    rw [List.mem_toFinset, List.mem_append, mem_createdRefs ht] at hk
    rw [stakedAt]
    split
    next => rfl
    next u hu =>
      split_ifs with hstake
      · exact hkeep k u hu hstake.1 hstake.2.2 hk.symm
      · rfl

theorem Applies.reachable {es : List Event} {L : Ledger} (hrun : Run Applies {} es L) :
    L.Reachable :=
  ⟨es, hrun.mono fun _ _ _ h => h.2⟩

/-- Through a run of transactions that are validated and applied with success, the index agrees with
the outputs exactly when no transaction spends or recreates an unspent stake. -/
theorem stakeIndex_matches_iff {es : List Event} {L : Ledger} (hrun : Run Applies {} es L) :
    (∀ earlier later M, es = earlier ++ later → Run Applies {} earlier M →
        M.StakeMatches earlier) ↔
      ∀ earlier e later M, es = earlier ++ e :: later → Run Applies {} earlier M →
        M.KeepsStake earlier e.tx := by
  refine hrun.throughout_iff (I := fun es L => L.StakeMatches es)
    (K := fun es L e => L.KeepsStake es e.tx) ?_ ?_ ?_
  · intro L e M M' h h'
    exact step_unique h.2 h'.2
  · intro es L e M hbefore h hmatches
    exact h.stakeMatches_iff (Applies.reachable hbefore).nonNeg hmatches
  · intro address
    rfl

theorem applies_of_accepts {L : Ledger} {tx : Transaction} {epoch : ℤ} (h : L.Accepts tx epoch)
    (ht : (applyTransaction tx L).1 = .ok true) :
    Applies L ⟨epoch, tx, some (.ok true)⟩ (applyTransaction tx L).2 := by
  have hstep := step_of_accepts h
  rw [ht] at hstep
  exact ⟨rfl, hstep⟩

theorem exists_staked : ∃ (e f : Event) (L M : Ledger) (t : Bytes),
    Applies {} e L ∧ Applies L f M ∧ e.tx.txType = .coinbase ∧ f.tx.txType = .stake ∧
      L.KeepsStake [e] f.tx ∧ M.authRegistry = {} ∧ Staked [e, f] (t, 0) ∧
      M.utxoSet.utxos.get? (t, 0) = some (UtxoSet.newUtxo 0 t 0
        { value := 900000, address := [], lockEpoch := 1 }) := by
  obtain ⟨h, -, hfree, -⟩ := exists_funded [] (by decide : (0 : ℤ) ≤ 1) (by decide)
  let out : TxOutput := { value := 900000, address := [], lockEpoch := 1 }
  let tx := spending .stake [(h, 0)] none out 0
  have hready : tx.ReadyToSign :=
    readyToSign_spending (by simp) (by simp) (by simp) (by simp) (by simp [out]) (by simp [out])
      (by simp [out]) (by decide)
  have htransfer : (funded [] 1).validateTransfer (tx.signedBy []) 0 = .ok () := by
    refine validateTransfer_signedBy [] hready.1 ?_ ?_
    · apply forall_inputs_spending
      intro k hk
      obtain rfl := List.mem_singleton.mp hk
      exact ⟨_, ⟨hfree, rfl⟩, le_refl _, ownerProved_of_unregistered _ (by
        rw [authRegistry_funded]
        rfl)⟩
    · simp [tx, conserves_spending, UtxoSet.valueAt, hfree, UtxoSet.newUtxo, out]
  have haccepts : (funded [] 1).Accepts (tx.signedBy []) 0 := by
    rw [accepts_iff]
    refine ⟨admissible_signedBy [] hready (by simp [tx]) (by simp [tx]), ?_⟩
    simp [validateByType, tx, validateStake, htransfer, out, Check.rejectIf, bind, Except.bind]
  have happly : (applyTransaction (tx.signedBy []) (funded [] 1)).1 = .ok true :=
    applies_signedBy haccepts (by simp [tx]) hready.1
  obtain ⟨t, ht⟩ := (tx.signedBy []).txHash_returns.mpr ((tx.packable_signedBy []).mpr hready.1)
  have hout : (tx.signedBy []).outputs[0]? = some out := by simp [tx]
  refine ⟨⟨0, funding [] 1, some (.ok true)⟩, ⟨0, tx.signedBy [], some (.ok true)⟩,
    funded [] 1, _, t,
    applies_of_accepts (accepts_funding [] 1 {})
      (applies_funding [] (by decide : (0 : ℤ) ≤ 1) (by decide) {}),
    applies_of_accepts haccepts happly, rfl, by simp [tx], ?_, ?_, ?_, ?_⟩
  · intro k u _ _ hstaked
    have hmark : ((funding [] 1).stakeMark k).or none = some true := hstaked
    simp [Transaction.stakeMark, Transaction.Stakes, funding] at hmark
  · rw [authRegistry_applyTransaction (by simp [tx]) (by simp [tx]), authRegistry_funded]
  · have hcreated : (tx.signedBy []).createdOutput (t, 0) = some out :=
      Transaction.createdOutput_eq_some.mpr ⟨t, 0, ht, hout, rfl⟩
    have hstakes : (tx.signedBy []).Stakes out := ⟨by simp [tx], by simp [tx, out]⟩
    exact staked_pair _ 0 _ hcreated hstakes
  · have hget := get?_applyTransaction_output happly ht hout
    simpa [tx] using hget

theorem keepsStake_empty (tx : Transaction) : ({} : Ledger).KeepsStake [] tx := by
  intro k u hu
  cases hu

theorem stakeIndex_matches_staked : ∃ (e f : Event) (M : Ledger) (t : Bytes),
    Run Applies {} [e, f] M ∧ M.StakeMatches [e, f] ∧ Staked [e, f] (t, 0) := by
  obtain ⟨e, f, L, M, t, he, hf, -, -, hkeep, -, hstaked, -⟩ := exists_staked
  have hrun : Run Applies {} [e, f] M := .cons he (.single hf)
  have hdet : ∀ L e M M', Applies L e M → Applies L e M' → M = M' :=
    fun _ _ _ _ h h' => step_unique h.2 h'.2
  have hmatches := (stakeIndex_matches_iff hrun).mpr (by
    intro earlier g later N hes hbefore
    rcases earlier with _ | ⟨e', _ | ⟨f', earlier⟩⟩
    · obtain rfl := hbefore.unique hdet (.nil _)
      exact keepsStake_empty g.tx
    · obtain ⟨rfl, htail⟩ := List.cons.inj hes
      obtain ⟨rfl, -⟩ := List.cons.inj htail
      obtain rfl := hbefore.unique hdet (.single he)
      exact hkeep
    · simp at hes)
  exact ⟨e, f, M, t, hrun, hmatches [e, f] [] M rfl hrun, hstaked⟩

/-- Unstaking leaves the stake in the index. -/
theorem stakeIndex_keeps_unstaked : ∃ (es : List Event) (L : Ledger), Run Applies {} es L ∧
    (es.map fun e => e.tx.txType) = [.coinbase, .stake, .unstake] ∧ ¬ L.StakeMatches es := by
  obtain ⟨e, f, L, M, t, he, hf, hcoinbase, hstake, hkeep, hregistry, hstaked, hget⟩ :=
    exists_staked
  let out : TxOutput := { value := 700000, address := [] }
  let tx := spending .unstake [(t, 0)] none out 1
  have hready : tx.ReadyToSign :=
    readyToSign_spending (by simp) (by simp) (by simp) (by simp) (by simp [out]) (by simp [out])
      (by simp [out]) (by decide)
  have haccepts : M.Accepts (tx.signedBy []) 1 := by
    rw [accepts_iff]
    refine ⟨admissible_signedBy [] hready (by simp [tx]) (by simp [tx]), ?_⟩
    rw [validateByType, Transaction.txType_signedBy]
    refine validateTransfer_signedBy [] hready.1 ?_ ?_
    · apply forall_inputs_spending
      intro k hk
      obtain rfl := List.mem_singleton.mp hk
      exact ⟨_, ⟨hget, rfl⟩, le_refl _, ownerProved_of_unregistered _ (by
        rw [hregistry]
        rfl)⟩
    · simp [tx, conserves_spending, UtxoSet.valueAt, hget, UtxoSet.newUtxo, out]
  have happly : (applyTransaction (tx.signedBy []) M).1 = .ok true :=
    applies_signedBy haccepts (by simp [tx]) hready.1
  have hunstake := applies_of_accepts haccepts happly
  -- the index agrees up to the transaction that unstakes
  have hempty : ({} : Ledger).StakeMatches [] := fun _ => rfl
  have hL : L.StakeMatches [e] :=
    (he.stakeMatches_iff (Applies.reachable (.nil _)).nonNeg hempty).mpr (keepsStake_empty e.tx)
  have hM : M.StakeMatches [e, f] :=
    (hf.stakeMatches_iff (Applies.reachable (.single he)).nonNeg hL).mpr hkeep
  have hreachable : M.Reachable := Applies.reachable (.cons he (.single hf))
  refine ⟨[e, f] ++ [_], _, .cons he (.cons hf (.single hunstake)),
    by simp [hcoinbase, hstake, tx], ?_⟩
  rw [hunstake.stakeMatches_iff hreachable.nonNeg hM]
  intro hkeeps
  have hzero := hkeeps (t, 0) _ hget rfl hstaked (Or.inl (by simp [Transaction.refs_signedBy, tx]))
  simp [UtxoSet.newUtxo] at hzero

end Ledger

end Qrtb
