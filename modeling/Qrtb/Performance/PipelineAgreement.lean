import Qrtb.Ledger.Runs
import Qrtb.Performance.Pipeline

/-!
# The pipeline beside the reference validator

With an empty registry the validator accepts a coinbase within the limit and a
transaction with inputs that meets the spending rules of its type. The pipeline
drops every batch that brings one signature to its third stage, whether it
verifies or not, and its last stage checks neither values nor limits.
-/

namespace Qrtb

namespace TransactionPipeline

open Ledger

variable {utxoSet : UtxoSet} {s : ShardedUtxoSet} {tx : Transaction} {batch : List Transaction}
  {currentEpoch : ℤ}

/-- The ledger in which nobody is registered. -/
def unregistered (utxoSet : UtxoSet) : Ledger := ⟨utxoSet, {}⟩

/-- The rules for transactions with inputs, by type; a rotation has nobody to rotate. -/
inductive MeetsSpendRules (utxoSet : UtxoSet) (tx : Transaction) (currentEpoch : ℤ) : Prop
  | transfer (type : IsTransferLike tx.txType) (signingHash : Bytes)
      (hash : tx.signingHash = .ok signingHash)
      (each : ∀ inp ∈ tx.inputs,
        (unregistered utxoSet).TransferInputOk signingHash currentEpoch inp)
      (conserves : (unregistered utxoSet).Conserves tx)
      (stakes : tx.txType = .stake → ∃ o ∈ tx.outputs, currentEpoch < o.lockEpoch)
      (carries : tx.txType = .data → ∃ o ∈ tx.outputs, 0 < o.data.length)
  | slash (type : tx.txType = .slash) (out : TxOutput) (outs : List TxOutput) (signingHash : Bytes)
      (outputs : tx.outputs = out :: outs) (evidence : 32 ≤ out.data.length)
      (hash : tx.signingHash = .ok signingHash)
      (each : ∀ inp ∈ tx.inputs, (unregistered utxoSet).SlashInputOk signingHash inp)
  | register (type : tx.txType = .register) (inp : TxInput) (out : TxOutput) (u : Utxo)
      (signingHash : Bytes)
      (rule : (unregistered utxoSet).RegisterOk tx currentEpoch inp out u signingHash)

theorem not_validateRotateAuth :
    ¬ (unregistered utxoSet).validateRotateAuth tx currentEpoch = .ok () := by
  intro h
  obtain ⟨inp, out, u, sh, root, rule⟩ := (validateRotateAuth_eq_ok _ tx currentEpoch).mp h
  have hregistered := rule.registered
  simp [unregistered, AuthRegistry.isRegistered] at hregistered

/-- Among transactions with inputs the validator accepts those that meet the rules. -/
theorem accepts_iff_meetsSpendRules (hin : tx.inputs ≠ []) :
    (unregistered utxoSet).Accepts tx currentEpoch ↔
      Admissible tx currentEpoch ∧ MeetsSpendRules utxoSet tx currentEpoch := by
  rw [accepts_iff]
  refine and_congr_right fun _ => ?_
  constructor
  · intro h
    by_cases hlike : IsTransferLike tx.txType
    · obtain ⟨htransfer, hstakes, hcarries⟩ := (validateByType_of_transferLike _ hlike).mp h
      obtain ⟨sh, hh, hi, hc⟩ := (validateTransfer_eq_ok _ tx currentEpoch ()).mp htransfer
      exact .transfer hlike sh hh hi hc hstakes hcarries
    · unfold validateByType at h
      cases htype : tx.txType with
      | transfer | stake | unstake | data =>
        exact absurd (by simp [IsTransferLike, htype]) hlike
      | coinbase =>
        rw [htype] at h
        simp [validateCoinbase, Except.bind_eq_ok, hin] at h
      | slash =>
        rw [htype] at h
        obtain ⟨out, outs, sh, hout, hev, -, hh, hs⟩ := (validateSlash_eq_ok _ tx).mp h
        exact .slash htype out outs sh hout hev hh hs
      | register =>
        rw [htype] at h
        obtain ⟨inp, out, u, sh, rule⟩ := (validateRegister_eq_ok _ tx currentEpoch).mp h
        exact .register htype inp out u sh rule
      | rotateAuth =>
        rw [htype] at h
        exact absurd h not_validateRotateAuth
  · intro h
    cases h with
    | transfer type sh hh hi hc hstakes hcarries =>
      exact (validateByType_of_transferLike _ type).mpr
        ⟨(validateTransfer_eq_ok _ tx currentEpoch ()).mpr ⟨sh, hh, hi, hc⟩, hstakes, hcarries⟩
    | slash htype out outs sh hout hev hh hs =>
      rw [validateByType, htype]
      exact (validateSlash_eq_ok _ tx).mpr ⟨out, outs, sh, hout, hev, hin, hh, hs⟩
    | register htype inp out u sh rule =>
      rw [validateByType, htype]
      exact (validateRegister_eq_ok _ tx currentEpoch).mpr ⟨inp, out, u, sh, rule⟩

/-- Without inputs only a coinbase is well formed, and its limit is all that is left to check. -/
theorem accepts_iff_of_no_inputs (L : Ledger) (hin : tx.inputs = []) :
    L.Accepts tx currentEpoch ↔
      Admissible tx currentEpoch ∧ tx.totalOutput ≤ MAX_COINBASE_VALUE := by
  rw [accepts_iff]
  refine and_congr_right fun hadm => ?_
  have htype : tx.txType = .coinbase := by
    by_contra hne
    exact hadm.wellFormed.hasInputs hne hin
  simp [validateByType, htype, validateCoinbase, Except.bind_eq_ok, hin,
    hadm.wellFormed.hasOutputs]

/-- The batches on which both agree: no transaction with inputs is worth accepting, and a coinbase
keeps to the limit exactly when no transaction with inputs comes as far as the signatures. -/
structure Harmless (utxoSet : UtxoSet) (batch : List Transaction) (currentEpoch : ℤ) : Prop where
  spending : ∀ tx ∈ batch, tx.inputs ≠ [] → Admissible tx currentEpoch →
    ¬ MeetsSpendRules utxoSet tx currentEpoch
  coinbase : ∀ tx ∈ batch, tx.inputs = [] → Admissible tx currentEpoch →
    (tx.totalOutput ≤ MAX_COINBASE_VALUE ↔ NoInputsLeft utxoSet.utxos.get? currentEpoch batch)

/-- The hashes of a batch can be computed and differ from each other. -/
def DistinctHashes (batch : List Transaction) : Prop :=
  ∃ hashes, batch.mapM Transaction.txHash = .ok hashes ∧ hashes.Nodup

theorem exists_hashOf {hashes : List Bytes} (h : batch.mapM Transaction.txHash = .ok hashes) :
    ∃ hashOf : Transaction → Bytes, (∀ tx ∈ batch, tx.txHash = .ok (hashOf tx)) ∧
      hashes = batch.map hashOf := by
  have hreturns := Except.returns_mapM.mp ⟨hashes, h⟩
  let hashOf := fun tx : Transaction => (tx.txHash.toOption).getD []
  have hhash : ∀ tx ∈ batch, tx.txHash = .ok (hashOf tx) := by
    intro tx htx
    obtain ⟨h, hh⟩ := hreturns tx htx
    simp [hashOf, hh, Except.toOption]
  exact ⟨hashOf, hhash, Except.ok.inj (h.symm.trans (Except.mapM_eq_ok_map hhash))⟩

theorem DistinctHashes.exists_hashOf (h : DistinctHashes batch) :
    ∃ hashOf : Transaction → Bytes, (∀ tx ∈ batch, tx.txHash = .ok (hashOf tx)) ∧
      (batch.map hashOf).Nodup := by
  obtain ⟨hashes, hhashes, hnodup⟩ := h
  obtain ⟨hashOf, hhash, rfl⟩ := TransactionPipeline.exists_hashOf hhashes
  exact ⟨hashOf, hhash, hnodup⟩

/-- On a batch with distinct hashes the pipeline returns, and its valid list agrees with the
reference validator exactly on the harmless batches. -/
theorem processBatch_agrees_iff (hdistinct : DistinctHashes batch) (hholds : s.Holds utxoSet) :
    (∃ valid invalid, processBatch s batch currentEpoch = .ok (valid, invalid) ∧
      ∀ tx ∈ batch, (tx ∈ valid ↔ (⟨utxoSet, {}⟩ : Ledger).Accepts tx currentEpoch)) ↔
      Harmless utxoSet batch currentEpoch := by
  obtain ⟨hashOf, hhash, hnodup⟩ := hdistinct.exists_hashOf
  obtain ⟨valid, invalid, hresult, -, hmem⟩ := processBatch_passes s currentEpoch hhash hnodup
  have hget : s.getSection = utxoSet.utxos.get? := funext hholds
  simp only [hget] at hmem
  -- a transaction with inputs that is passed on would have stopped the batch
  have hinputs : ∀ tx ∈ batch, tx.inputs ≠ [] → tx ∉ valid := by
    intro tx htx hin hvalid
    obtain ⟨-, hadm, havail, hnone⟩ := (hmem tx).mp hvalid
    exact hin (hnone tx htx hadm.wellFormed havail)
  have hbare : ∀ tx ∈ batch, tx.inputs = [] →
      (tx ∈ valid ↔ Admissible tx currentEpoch ∧
        NoInputsLeft utxoSet.utxos.get? currentEpoch batch) := by
    intro tx htx hin
    rw [hmem]
    constructor
    · rintro ⟨-, hadm, -, hnone⟩
      exact ⟨hadm, hnone⟩
    · rintro ⟨hadm, hnone⟩
      exact ⟨htx, hadm, by simp [Available, hin], hnone⟩
  constructor
  · rintro ⟨valid', invalid', hresult', hagree⟩
    cases hresult.symm.trans hresult'
    constructor
    · intro tx htx hin hadm hrules
      exact hinputs tx htx hin
        ((hagree tx htx).mpr ((accepts_iff_meetsSpendRules hin).mpr ⟨hadm, hrules⟩))
    · intro tx htx hin hadm
      have hiff := (hbare tx htx hin).symm.trans
        ((hagree tx htx).trans (accepts_iff_of_no_inputs _ hin))
      simpa [hadm] using hiff.symm
  · intro h
    refine ⟨valid, invalid, hresult, fun tx htx => ?_⟩
    by_cases hin : tx.inputs = []
    · rw [hbare tx htx hin, accepts_iff_of_no_inputs _ hin]
      exact and_congr_right fun hadm => (h.coinbase tx htx hin hadm).symm
    · refine ⟨fun hvalid => absurd hvalid (hinputs tx htx hin), fun haccepts => ?_⟩
      obtain ⟨hadm, hrules⟩ := (accepts_iff_meetsSpendRules hin).mp haccepts
      exact absurd hrules (h.spending tx htx hin hadm)

instance (batch : List Transaction) : Decidable (DistinctHashes batch) :=
  decidable_of_iff
    (((batch.mapM Transaction.txHash).toOption.map fun hashes => decide hashes.Nodup) = some true) <|
    by cases h : batch.mapM Transaction.txHash <;> simp [DistinctHashes, h, Except.toOption]

/-- A transfer of an output that nobody stored. -/
def orphan : Transaction := spending .transfer [([7], 1)] none { value := 900000, address := [] } 0

/-- Beside the one stored output, both let a coinbase through and reject the orphan, whose lookup
fails before its signature is looked at. -/
theorem processBatch_agrees_on_orphan : ∃ (s : ShardedUtxoSet) (utxoSet : UtxoSet),
    utxoSet.valueAt ([7], 0) = 1000000 ∧
      ∃ valid invalid, processBatch s [funding [] 0, orphan.signedBy []] 0 = .ok (valid, invalid) ∧
        ∀ tx ∈ [funding [] 0, orphan.signedBy []],
          (tx ∈ valid ↔ (⟨utxoSet, {}⟩ : Ledger).Accepts tx 0) := by
  let out : TxOutput := { value := 1000000, address := [] }
  let s := ({} : ShardedUtxoSet).addUtxo [7] 0 out 0
  let utxoSet := ({} : UtxoSet).addUtxo [7] 0 out 0
  have hholds : s.Holds utxoSet :=
    @ShardedUtxoSet.Holds.add {} {} (fun _ => rfl) [7] 0 out 0
  have hdistinct : DistinctHashes [funding [] 0, orphan.signedBy []] := by
    have hunsigned : DistinctHashes [funding [] 0, orphan] := by decide +kernel
    simpa [DistinctHashes, List.mapM_cons, Transaction.txHash_signedBy] using hunsigned
  have hrefs : (orphan.signedBy []).refs = [([7], 1)] := by
    rw [Transaction.refs_signedBy, orphan, refs_spending]
  obtain ⟨inp, hinp, href⟩ := List.mem_map.mp
    (show ([7], 1) ∈ (orphan.signedBy []).refs by simp [hrefs])
  have hmissing : utxoSet.utxos.get? inp.ref = none := by
    rw [href]
    simp [utxoSet, UtxoSet.get?_addUtxo]
  refine ⟨s, utxoSet, by simp [utxoSet, out, UtxoSet.valueAt, UtxoSet.get?_addUtxo], ?_⟩
  apply (processBatch_agrees_iff hdistinct hholds).mpr
  constructor
  · intro tx htx hin hadm hrules
    obtain rfl | rfl := List.mem_pair.mp htx
    · exact hin rfl
    · have haccepts := (accepts_iff_meetsSpendRules hin).mpr ⟨hadm, hrules⟩
      obtain ⟨u, hu, -⟩ := haccepts.inputUnspent inp hinp
      exact Option.some_ne_none u (hu.symm.trans hmissing)
  · intro tx htx hin hadm
    obtain rfl | rfl := List.mem_pair.mp htx
    · refine iff_of_true (by decide) fun other hother hwf havail => ?_
      obtain rfl | rfl := List.mem_pair.mp hother
      · rfl
      · obtain ⟨u, hu, -⟩ := havail inp hinp
        exact absurd hu (by simp [hmissing])
    · simp [Transaction.refs, hin] at hrefs

/-- A valid transfer over a set with one output, shared by both. -/
theorem processBatch_drops_valid_transfer : ∃ (s : ShardedUtxoSet) (utxoSet : UtxoSet)
    (tx : Transaction), s.Holds utxoSet ∧ DistinctHashes [tx] ∧
      ([tx].flatMap Transaction.refs).Nodup ∧ (⟨utxoSet, {}⟩ : Ledger).Accepts tx 0 ∧
      ∃ invalid, processBatch s [tx] 0 = .ok ([], invalid) := by
  let out : TxOutput := { value := 1000000, address := [] }
  let s := ({} : ShardedUtxoSet).addUtxo [7] 0 out 0
  let utxoSet := ({} : UtxoSet).addUtxo [7] 0 out 0
  let tx := spending .transfer [([7], 0)] none { value := 900000, address := [] } 0
  have hholds : s.Holds utxoSet :=
    @ShardedUtxoSet.Holds.add {} {} (fun _ => rfl) [7] 0 out 0
  have hget : utxoSet.utxos.get? ([7], 0) = some ⟨[7], 0, out, 0, false, none⟩ := by
    simp [utxoSet, UtxoSet.get?_addUtxo]
  have haccepts : (⟨utxoSet, {}⟩ : Ledger).Accepts (tx.signedBy []) 0 := by
    apply accepts_transfer_spending <;> simp [UtxoSet.valueAt, hget, out,
      AuthRegistry.isRegistered]
  have hpack := haccepts.packable (by simp [tx])
  obtain ⟨h, hh⟩ := (Transaction.txHash_returns _).mpr hpack
  have hdistinct : DistinctHashes [tx.signedBy []] := by
    refine ⟨[h], ?_, List.nodup_singleton h⟩
    rw [List.mapM_cons, hh]
    rfl
  refine ⟨s, utxoSet, tx.signedBy [], hholds, hdistinct, ?_, haccepts, ?_⟩
  · simp [Transaction.refs_signedBy, tx]
  · obtain ⟨hashOf, hhash, hnodup⟩ := hdistinct.exists_hashOf
    obtain ⟨valid, invalid, hresult, -, hmem⟩ := processBatch_passes s 0 hhash hnodup
    have hempty : valid = [] := by
      apply List.eq_nil_iff_forall_not_mem.mpr
      intro other hother
      obtain ⟨htx, hadm, havail, hnone⟩ := (hmem other).mp hother
      have hin := hnone other htx hadm.wellFormed havail
      rw [List.mem_singleton.mp htx] at hin
      have hrefs : ([] : List OutRef) = tx.refs := by
        rw [← tx.refs_signedBy [], Transaction.refs, hin]
        rfl
      simp [tx] at hrefs
    rw [hempty] at hresult
    exact ⟨invalid, hresult⟩

end TransactionPipeline

end Qrtb
