import Qrtb.Blocks.Producer
import Qrtb.Ledger.Authentication

/-!
# The transaction layer of a node (`src/node.py`)

A node validates transactions with a validator of its own and applies blocks
through its producer. Both work on one UTXO set. The producer is built without
the registry of the node, so registrations and rotations reach its own registry
only, and the one of the node stays empty. The two verdicts differ as soon as a
registered address owns an unspent output.
-/

namespace Qrtb

open Transition

namespace Ledger

/-- No unspent output is owned by a registered address. -/
def OwnersUnregistered (L : Ledger) : Prop :=
  ∀ k u, L.utxoSet.utxos.get? k = some u → u.isSpent = false →
    L.authRegistry.isRegistered u.output.address = false

section

variable {L M : Ledger} (hutxo : M.utxoSet = L.utxoSet) (hL : L.OwnersUnregistered)
  (hM : M.OwnersUnregistered)

include hutxo in
theorem findUtxo_congr (inp : TxInput) : M.findUtxo inp = L.findUtxo inp := by
  rw [findUtxo, findUtxo, hutxo]

theorem OwnersUnregistered.of_find {inp : TxInput} {u : Utxo} (h : L.OwnersUnregistered)
    (hu : L.findUtxo inp = some u) (hs : u.isSpent = false) :
    L.authRegistry.isRegistered u.output.address = false :=
  h inp.ref u hu hs

include hutxo in
theorem checkSlashInputs_congr (signingHash : Bytes) (inputs : List TxInput) :
    M.checkSlashInputs signingHash inputs = L.checkSlashInputs signingHash inputs := by
  induction inputs with
  | nil => rfl
  | cons inp inputs ih =>
    simp only [checkSlashInputs, checkSlashInput, ih, findUtxo_congr hutxo]

include hutxo in
theorem validateSlash_congr (tx : Transaction) : M.validateSlash tx = L.validateSlash tx := by
  simp only [validateSlash, checkSlashInputs_congr hutxo]

include hutxo hL hM

theorem checkTransferInput_congr (signingHash : Bytes) (currentEpoch : ℤ) (inp : TxInput) :
    M.checkTransferInput signingHash currentEpoch inp =
      L.checkTransferInput signingHash currentEpoch inp := by
  have hfind := findUtxo_congr hutxo inp
  unfold checkTransferInput
  cases hu : L.findUtxo inp with
  | none => simp only [hfind, hu]
  | some u =>
    rw [hu] at hfind
    simp only [hfind]
    cases hs : u.isSpent with
    | true => rfl
    | false =>
      have howner : M.checkOwner u.output.address inp = L.checkOwner u.output.address inp := by
        simp [checkOwner, hL.of_find hu hs, hM.of_find hfind hs]
      rw [howner]

theorem sumTransferInputs_congr (signingHash : Bytes) (currentEpoch : ℤ) (inputs : List TxInput) :
    M.sumTransferInputs signingHash currentEpoch inputs =
      L.sumTransferInputs signingHash currentEpoch inputs := by
  induction inputs with
  | nil => rfl
  | cons inp inputs ih =>
    rw [sumTransferInputs, sumTransferInputs, ih,
      checkTransferInput_congr hutxo hL hM signingHash currentEpoch inp]

theorem validateTransfer_congr (tx : Transaction) (currentEpoch : ℤ) :
    M.validateTransfer tx currentEpoch = L.validateTransfer tx currentEpoch := by
  simp only [validateTransfer, sumTransferInputs_congr hutxo hL hM]

/-- A registration looks the derived address up after it was found to own the output. -/
theorem validateRegister_congr (tx : Transaction) (currentEpoch : ℤ) :
    M.validateRegister tx currentEpoch = L.validateRegister tx currentEpoch := by
  simp only [validateRegister, findUtxo_congr hutxo]
  refine bind_congr fun _ => bind_congr fun _ => bind_congr fun regData => bind_congr fun _ =>
    bind_congr fun inp => ?_
  cases hu : L.findUtxo inp with
  | none => rfl
  | some u =>
    have hu' : M.findUtxo inp = some u := (findUtxo_congr hutxo inp).trans hu
    cases hs : u.isSpent with
    | true => simp [hs, Check.rejectIf, bind, Except.bind]
    | false =>
      by_cases howner : u.output.address = deriveAddress (regData.take 64)
      · have hregistry : M.authRegistry.isRegistered (deriveAddress (regData.take 64)) =
            L.authRegistry.isRegistered (deriveAddress (regData.take 64)) := by
          rw [← howner, hL.of_find hu hs, hM.of_find hu' hs]
        simp only [hregistry]
      · simp [howner, Check.rejectIf, bind, Except.bind]

theorem validateRotateAuth_congr (tx : Transaction) (currentEpoch : ℤ) :
    M.validateRotateAuth tx currentEpoch = L.validateRotateAuth tx currentEpoch := by
  simp only [validateRotateAuth, findUtxo_congr hutxo]
  refine bind_congr fun _ => bind_congr fun _ => bind_congr fun rotData => bind_congr fun _ =>
    bind_congr fun inp => ?_
  cases hu : L.findUtxo inp with
  | none => rfl
  | some u =>
    have hu' : M.findUtxo inp = some u := (findUtxo_congr hutxo inp).trans hu
    cases hs : u.isSpent with
    | true => simp [hs, Check.rejectIf, bind, Except.bind]
    | false => simp [hL.of_find hu hs, hM.of_find hu' hs, Check.rejectIf, bind, Except.bind]

theorem validateTransaction_congr (tx : Transaction) (currentEpoch : ℤ) :
    M.validateTransaction tx currentEpoch = L.validateTransaction tx currentEpoch := by
  have hbody : M.validateByType tx currentEpoch = L.validateByType tx currentEpoch := by
    have htransfer := validateTransfer_congr hutxo hL hM tx currentEpoch
    unfold validateByType
    cases tx.txType with
    | coinbase => rfl
    | transfer => exact htransfer
    | stake => simp only [validateStake, htransfer]
    | unstake => exact htransfer
    | slash => exact validateSlash_congr hutxo tx
    | data => simp only [validateData, htransfer]
    | register => exact validateRegister_congr hutxo hL hM tx currentEpoch
    | rotateAuth => exact validateRotateAuth_congr hutxo hL hM tx currentEpoch
  simp only [validateTransaction, hbody]

end

theorem validateTransaction_of_admissible {tx : Transaction} {currentEpoch : ℤ}
    (h : Admissible tx currentEpoch) (L : Ledger) :
    L.validateTransaction tx currentEpoch = L.validateByType tx currentEpoch := by
  have hstructure : tx.isValidStructure = .ok () :=
    (tx.isValidStructure_eq_ok ()).mpr h.wellFormed
  have hnotFuture : ¬ tx.epoch > currentEpoch := not_lt.mpr h.notFuture
  have hnotExpired : ¬ tx.epoch < currentEpoch - 1 := not_lt.mpr h.notExpired
  simp [validateTransaction, hstructure, hnotFuture, hnotExpired, Check.rejectIf, bind,
    Except.bind]

/-- A rotation of the owner of an output, without a key. -/
def keylessRotation (k : OutRef) (epoch : ℤ) : Transaction :=
  spending .rotateAuth [k] none { value := 0, address := [], data := List.replicate 32 0 } epoch

theorem admissible_keylessRotation (k : OutRef) (epoch : ℤ) :
    Admissible (keylessRotation k epoch) epoch := by
  have hsize : (keylessRotation k epoch).size = 190 := by
    rw [keylessRotation, size_spending]
    simp
  refine ⟨⟨rfl, by simp [keylessRotation, spending], by simp [keylessRotation, spending,
    MAX_INPUTS], by simp [keylessRotation], by simp [keylessRotation, MAX_OUTPUTS], ?_,
    by simp [keylessRotation], ?_⟩, le_refl _, ?_⟩
  · rw [hsize, MAX_TX_SIZE]
    omega
  · intro _
    rw [hsize, MIN_FEE_PER_BYTE, keylessRotation, fee_spending]
    omega
  · rw [keylessRotation, epoch_spending]
    omega

theorem validateTransaction_keylessRotation {L : Ledger} {k : OutRef} {u : Utxo}
    (hu : L.utxoSet.utxos.get? k = some u) (hs : u.isSpent = false) :
    L.validateTransaction (keylessRotation k u.output.lockEpoch) u.output.lockEpoch =
      if L.authRegistry.isRegistered u.output.address then
        .error (.reject "rotate_auth input public_key field too short")
      else .error (.reject "address not registered, cannot rotate") := by
  have hfind : L.findUtxo
      { prevTxHash := k.1, outputIndex := k.2, signature := [], publicKey := [] } = some u := hu
  rw [validateTransaction_of_admissible (admissible_keylessRotation k _)]
  cases hreg : L.authRegistry.isRegistered u.output.address with
  | false | true =>
    simp [validateByType, keylessRotation, spending, validateRotateAuth, firstData, firstInput,
      hfind, hs, hreg, unsignedInput, wotsPubSize, Check.rejectIf, Check.lift, Except.mapError,
      bind, Except.bind]

/-- Over one UTXO set, a ledger with an empty registry gives all the verdicts of another exactly
when that one has no unspent output of a registered owner. -/
theorem verdicts_agree_iff (L : Ledger) :
    (∀ tx currentEpoch, ({ L with authRegistry := {} } : Ledger).validateTransaction tx currentEpoch =
      L.validateTransaction tx currentEpoch) ↔ L.OwnersUnregistered := by
  constructor
  · intro h k u hu hs
    have hverdict := h (keylessRotation k u.output.lockEpoch) u.output.lockEpoch
    rw [validateTransaction_keylessRotation hu hs,
      validateTransaction_keylessRotation (L := { L with authRegistry := {} }) hu hs] at hverdict
    have hnone : ({} : AuthRegistry).isRegistered u.output.address = false := rfl
    cases hreg : L.authRegistry.isRegistered u.output.address with
    | false => rfl
    | true => simp [hreg, hnone] at hverdict
  · intro h tx currentEpoch
    have hempty : ({ L with authRegistry := {} } : Ledger).OwnersUnregistered :=
      fun _ _ _ _ => rfl
    have hutxo : ({ L with authRegistry := {} } : Ledger).utxoSet = L.utxoSet := rfl
    exact validateTransaction_congr hutxo h hempty tx currentEpoch

end Ledger

/-- What `Node.__init__` builds: a registry for the validator of the node, and a producer that is
not given it. Its UTXO set and pool are those of the node. -/
structure TransactionLayer where
  authRegistry : AuthRegistry := {}
  blockProducer : BlockProducer

namespace TransactionLayer

def new (validatorId : Bytes) : TransactionLayer :=
  { blockProducer := { validatorId := validatorId } }

/-- The ledger that `node.tx_validator` reads. -/
def ledger (n : TransactionLayer) : Ledger :=
  { n.blockProducer.ledger with authRegistry := n.authRegistry }

/-- `block_producer.apply_block`. -/
def applyBlock (txs : List Transaction) (n : TransactionLayer) : TransactionLayer :=
  { n with blockProducer := (n.blockProducer.applyBlock txs).2 }

theorem authRegistry_runs (validatorId : Bytes) (blocks : List (List Transaction)) :
    (runs applyBlock blocks (new validatorId)).authRegistry = {} := by
  induction blocks using List.reverseRecOn with
  | nil => rfl
  | append_singleton blocks txs ih =>
    rw [runs_append_singleton]
    exact ih

/-- After any blocks, the validator of the node and the one of its producer give the same verdicts
exactly when no address the producer has registered owns an unspent output. -/
theorem verdicts_agree_runs_iff (validatorId : Bytes) (blocks : List (List Transaction)) :
    (∀ tx currentEpoch,
        (runs applyBlock blocks (new validatorId)).ledger.validateTransaction tx currentEpoch =
          (runs applyBlock blocks (new validatorId)).blockProducer.ledger.validateTransaction tx
            currentEpoch) ↔
      (runs applyBlock blocks (new validatorId)).blockProducer.ledger.OwnersUnregistered := by
  rw [ledger, authRegistry_runs]
  exact Ledger.verdicts_agree_iff _

theorem ledger_applyBlock_singleton (tx : Transaction) (p : BlockProducer) :
    (p.applyBlock [tx]).2.ledger = (Ledger.applyTransaction tx p.ledger).2 := by
  simp only [BlockProducer.applyBlock, BlockProducer.applyTransactions]
  rcases Ledger.applyTransaction tx p.ledger with ⟨e | (- | -), L⟩
  · rfl
  · rfl
  · dsimp only
    split
    · rfl
    · rfl

/-- Every reachable ledger is the one of a producer after blocks of one transaction each. -/
theorem exists_blocks_of_reachable {L : Ledger} (hL : L.Reachable) (validatorId : Bytes) :
    ∃ blocks, (runs applyBlock blocks (new validatorId)).blockProducer.ledger = L := by
  obtain ⟨es, hrun⟩ := hL
  refine hrun.invariant (I := fun L => ∃ blocks,
    (runs applyBlock blocks (new validatorId)).blockProducer.ledger = L) ?_ ⟨[], rfl⟩
  intro L e M hblocks hstep
  obtain ⟨blocks, rfl⟩ := hblocks
  rcases Ledger.step_cases hstep with ⟨-, -, rfl⟩ | ⟨-, -, rfl⟩
  · exact ⟨blocks, rfl⟩
  · refine ⟨blocks ++ [[e.tx]], ?_⟩
    rw [runs_append_singleton, applyBlock, ledger_applyBlock_singleton]

/-- After a registration, the node accepts a transfer of the owner signed with any key; its
producer does not. -/
theorem verdicts_differ_after_registration : ∃ (blocks : List (List Transaction)) (tx : Transaction),
    let n := runs applyBlock blocks (new [])
    n.ledger.validateTransaction tx 1 = .ok () ∧
      n.blockProducer.ledger.validateTransaction tx 1 ≠ .ok () := by
  obtain ⟨L, h, hL, hreg, -, hget⟩ := Ledger.exists_registered
    (by decide : (List.replicate 64 (0 : UInt8)).length = 64)
    (by decide : (List.replicate 32 (0 : UInt8)).length = 32)
  obtain ⟨blocks, hblocks⟩ := exists_blocks_of_reachable hL []
  let out : TxOutput := { value := 900000, address := [] }
  let tx := Ledger.spending .transfer [(h, 1)] none out 1
  have hready : tx.ReadyToSign :=
    Ledger.readyToSign_spending (by simp) (by simp) (by simp) (by simp) (by simp [out])
      (by simp [out]) (by simp [out]) (by decide)
  refine ⟨blocks, tx.signedBy [], ?_, ?_⟩
  · rw [ledger, authRegistry_runs, hblocks]
    refine Ledger.accepts_transfer_signedBy [] rfl hready (by simp [tx]) (by simp [tx]) ?_ ?_
    · apply Ledger.forall_inputs_spending
      intro k hk
      obtain rfl := List.mem_singleton.mp hk
      exact ⟨_, ⟨hget, rfl⟩, by simp [UtxoSet.newUtxo], Ledger.ownerProved_of_unregistered _ rfl⟩
    · simp [tx, Ledger.conserves_spending, UtxoSet.valueAt, hget, UtxoSet.newUtxo, out]
  · rw [hblocks]
    intro haccepts
    obtain ⟨sh, hh⟩ := tx.txHash_returns.mpr hready.1
    have htransfer := ((L.accepts_iff (tx.signedBy []) 1).mp haccepts).2
    rw [Ledger.validateByType, Transaction.txType_signedBy] at htransfer
    obtain ⟨sh', -, heach, -⟩ := (L.validateTransfer_eq_ok (tx.signedBy []) 1 ()).mp htransfer
    rw [tx.signedBy_eq [] hh] at heach
    obtain ⟨u, hu, -, -, howner⟩ := heach _ (List.mem_map_of_mem (List.mem_singleton_self _))
    obtain rfl := Option.some.inj (hget.symm.trans hu.1)
    obtain ⟨proof, hproof, -⟩ := howner hreg
    cases hproof

end TransactionLayer

end Qrtb
