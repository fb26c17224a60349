import Qrtb.Wallet.KeyManager
import Mathlib.Data.List.Sort

/-!
# The wallet (`Wallet` in `src/wallet.py`)

A builder selects outputs of the wallet, makes a transaction and signs it. Making
it changes nothing, so every builder comes as the transaction before it is signed
and the call that signs it. Only the rotation touches the keys first. Time and the
random nonce of a transaction come from outside.
-/

namespace Qrtb

open Keccak Stateful

def DEFAULT_FEE_RATE : ℤ := 10
def STAKING_LOCK_EPOCHS : ℤ := 100

structure WalletConfig where
  feeRate : ℤ := DEFAULT_FEE_RATE

structure Wallet (S : Type) where
  config : WalletConfig
  keyManager : KeyManager S
  utxos : OrderedDict OutRef Utxo := ∅
  pendingTxs : OrderedDict Bytes Transaction := ∅
  txHistory : List Bytes := []
  currentEpoch : ℤ := 0

/-- What a new transaction takes from outside: the time in milliseconds and its nonce. -/
structure Fresh where
  timestamp : ℤ
  nonce : Bytes

namespace Wallet

variable {S : Type}

def address (w : Wallet S) : Bytes := w.keyManager.address

def addUtxo (txHash : Bytes) (outputIndex : ℤ) (output : TxOutput) (epoch : ℤ) :
    Stateful (Wallet S) Unit :=
  modify fun w =>
    { w with
      utxos := w.utxos.set (txHash, outputIndex)
        { txHash, outputIndex, output, epochCreated := epoch } }

def spendUtxo (txHash : Bytes) (outputIndex : ℤ) (spendingTx : Bytes) : Stateful (Wallet S) Bool :=
  fun w =>
    match w.utxos.get? (txHash, outputIndex) with
    | none => (.ok false, w)
    | some utxo =>
      if utxo.isSpent then (.ok false, w)
      else
        (.ok true, { w with
          utxos := w.utxos.set (txHash, outputIndex) (utxo.markSpent spendingTx) })

def getSpendableUtxos (w : Wallet S) : List Utxo :=
  w.utxos.values.filter fun u => !u.isSpent && decide (u.output.lockEpoch ≤ w.currentEpoch)

/-- Outputs are taken from the front until they cover what is needed. -/
def selectLoop (needed : ℤ) : ℤ → List Utxo → List Utxo × ℤ
  | total, [] => ([], total)
  | total, u :: rest =>
    let total := total + u.output.value
    if needed ≤ total then ([u], total)
    else
      let selected := selectLoop needed total rest
      (u :: selected.1, selected.2)

/-- The largest first; equal values stay in their order. -/
def selectUtxos (targetAmount feeEstimate : ℤ) (w : Wallet S) : List Utxo × ℤ :=
  selectLoop (targetAmount + feeEstimate) 0
    (w.getSpendableUtxos.insertionSort fun a b => b.output.value ≤ a.output.value)

def unsignedInput (u : Utxo) : TxInput where
  prevTxHash := u.txHash
  outputIndex := u.outputIndex
  signature := []
  publicKey := []

def changeOutputs (change : ℤ) (w : Wallet S) : List TxOutput :=
  if DUST_THRESHOLD ≤ change then [{ value := change, address := w.address }] else []

def newTx (txType : TxType) (utxos : List Utxo) (outputs : List TxOutput) (fee : ℤ)
    (fresh : Fresh) (w : Wallet S) : Transaction where
  version := 1
  txType := txType
  inputs := utxos.map unsignedInput
  outputs := outputs
  epoch := w.currentEpoch
  timestamp := fresh.timestamp
  fee := fee
  nonce := fresh.nonce

/-- Signature, public key, proof and the rest of an input. -/
def inputSize : ℤ := 2144 + 2144 + 320 + 40

def estimateFee (numInputs numOutputs : ℕ) (w : Wallet S) : ℤ :=
  (50 + numInputs * inputSize + numOutputs * 80) * w.config.feeRate

def transferTx (fresh : Fresh) (recipient : Bytes) (amount : ℤ) (fee : Option ℤ) (w : Wallet S) :
    Option Transaction :=
  if amount < DUST_THRESHOLD then none
  else
    let fee := fee.getD ((50 + inputSize + 2 * 80) * w.config.feeRate)
    let (utxos, totalInput) := w.selectUtxos amount fee
    if totalInput < amount + fee then none
    else
      let outputs := { value := amount, address := recipient } ::
        w.changeOutputs (totalInput - amount - fee)
      some (w.newTx .transfer utxos outputs fee fresh)

def stakeTx (fresh : Fresh) (amount lockEpochs : ℤ) (w : Wallet S) : Option Transaction :=
  if amount < DUST_THRESHOLD then none
  else
    let fee := w.estimateFee 1 2
    let (utxos, totalInput) := w.selectUtxos amount fee
    if totalInput < amount + fee then none
    else
      let lockEpoch := w.currentEpoch + lockEpochs
      let outputs := { value := amount, address := w.address, lockEpoch := lockEpoch } ::
        w.changeOutputs (totalInput - amount - fee)
      some (w.newTx .stake utxos outputs fee fresh)

/-- All outputs with a lock that is over. -/
def matureStakes (w : Wallet S) : List Utxo :=
  w.utxos.values.filter fun u => !u.isSpent && decide (0 < u.output.lockEpoch) &&
    decide (u.output.lockEpoch ≤ w.currentEpoch)

def unstakeTx (fresh : Fresh) (w : Wallet S) : Option Transaction :=
  let utxos := w.matureStakes
  if utxos.isEmpty then none
  else
    let totalStaked := (utxos.map fun u => u.output.value).sum
    let fee := w.estimateFee utxos.length 1
    some (w.newTx .unstake utxos [{ value := totalStaked - fee, address := w.address }] fee fresh)

def dataTx (fresh : Fresh) (data : Bytes) (fee : Option ℤ) (w : Wallet S) : Option Transaction :=
  if data.length > 1000 then none
  else
    let fee := fee.getD (w.estimateFee 1 2)
    let (utxos, totalInput) := w.selectUtxos 0 fee
    if totalInput < fee then none
    else
      let outputs := { value := 0, address := w.address, data := data } ::
        w.changeOutputs (totalInput - fee)
      some (w.newTx .data utxos outputs fee fresh)

/-- Only the first selected output is spent, but the change counts them all. With no output and a
fee that is not positive, taking the first one raises. -/
def announceTx (txType : TxType) (fresh : Fresh) (data : Bytes) (fee : ℤ) (w : Wallet S) :
    Except PyError (Option Transaction) :=
  let (utxos, totalInput) := w.selectUtxos 0 fee
  if totalInput < fee then .ok none
  else
    match utxos with
    | [] => .error .indexError
    | utxo :: _ =>
      let outputs := { value := 0, address := w.address, data := data } ::
        w.changeOutputs (totalInput - fee)
      .ok (some (w.newTx txType [utxo] outputs fee fresh))

def registrationFee (fee : Option ℤ) (w : Wallet S) : ℤ :=
  fee.getD ((50 + 4400 + 80 + 128) * w.config.feeRate)

def rotationFee (fee : Option ℤ) (w : Wallet S) : ℤ :=
  fee.getD ((50 + 4400 + 80 + 64) * w.config.feeRate)

variable [SeedSpace S]

open SeedSpace

def init (config : WalletConfig) (masterSeed : S) : Wallet S where
  config := config
  keyManager := .init masterSeed

/-- The input carries the registration key already. -/
def registrationTx (fresh : Fresh) (fee : Option ℤ) (w : Wallet S) :
    Except PyError (Option Transaction) :=
  if w.keyManager.isRegistered then .ok none
  else if (w.selectUtxos 0 (w.registrationFee fee)).2 < w.registrationFee fee then .ok none
  else do
    let root ← w.keyManager.authRoot
    let tx ← w.announceTx .register fresh (w.keyManager.innerHash ++ root) (w.registrationFee fee)
    let publicKey := w.keyManager.getWotsKeypairForRegistration.2
    return tx.map fun tx =>
      { tx with inputs := tx.inputs.map fun inp => { inp with publicKey := publicKey } }

def onKeys {α : Type} (x : Stateful (KeyManager S) α) : Stateful (Wallet S) α :=
  on keyManager (fun k w => { w with keyManager := k }) x

def signInputTemporal (payload : Payload) (inp : TxInput) : Stateful (KeyManager S) TxInput := do
  let s ← KeyManager.temporalSign payload
  return { inp with
    signature := s.signature
    publicKey := s.publicKey
    authProof := some s.proof
    authKeyIndex := s.keyIndex }

def signInputLegacy (payload : Payload) (epoch : ℤ) (inp : TxInput) :
    Stateful (KeyManager S) TxInput := do
  let ref ← KeyManager.getUnusedKeypair epoch
  let publicKey ← reads fun k => ((k.pairAt ref).map KeyPair.publicKey).getD []
  let signature ← KeyManager.sign payload ref
  return { inp with signature := signature, publicKey := publicKey }

def signInputs (tx : Transaction) : Stateful (Wallet S) Transaction := do
  let hashData ← ofExcept tx.hashData
  let registered ← reads fun w => w.keyManager.isRegistered
  let epoch ← reads currentEpoch
  let inputs ← onKeys (forEach (if registered then signInputTemporal (.transaction hashData)
    else signInputLegacy (.transaction hashData) epoch) tx.inputs)
  return { tx with inputs := inputs }

/-- Sign the transaction if there is one. -/
def signBuilt (tx : Option Transaction) : Stateful (Wallet S) (Option Transaction) :=
  match tx with
  | none => pure none
  | some tx => do
    let signed ← signInputs tx
    return some signed

def createTransfer (fresh : Fresh) (recipient : Bytes) (amount : ℤ) (fee : Option ℤ) :
    Stateful (Wallet S) (Option Transaction) := do
  signBuilt (← reads (transferTx fresh recipient amount fee))

def createStake (fresh : Fresh) (amount : ℤ) (lockEpochs : ℤ := STAKING_LOCK_EPOCHS) :
    Stateful (Wallet S) (Option Transaction) := do
  signBuilt (← reads (stakeTx fresh amount lockEpochs))

def createUnstake (fresh : Fresh) : Stateful (Wallet S) (Option Transaction) := do
  signBuilt (← reads (unstakeTx fresh))

def createDataTx (fresh : Fresh) (data : Bytes) (fee : Option ℤ) :
    Stateful (Wallet S) (Option Transaction) := do
  signBuilt (← reads (dataTx fresh data fee))

/-- Sign every input with the registration key, which no counter limits. -/
def signRegistration (tx : Transaction) : Stateful (Wallet S) Transaction := do
  let hashData ← ofExcept tx.hashData
  let privateKey ← reads fun w => w.keyManager.getWotsKeypairForRegistration.1
  onKeys (KeyManager.record (fun k => registration k.masterSeed) (.transaction hashData))
  return { tx with
    inputs := tx.inputs.map fun inp =>
      { inp with signature := Wots.sign (sha3_256 hashData) privateKey } }

def createRegistrationTx (fresh : Fresh) (fee : Option ℤ) :
    Stateful (Wallet S) (Option Transaction) := do
  let built ← reads (registrationTx fresh fee)
  match ← ofExcept built with
  | none => return none
  | some tx => do
    let signed ← signRegistration tx
    return some signed

/-- The rotation is prepared before the funds are looked at. -/
def createRotationTx (fresh : Fresh) (fee : Option ℤ) :
    Stateful (Wallet S) (Option Transaction) := do
  let registered ← reads fun w => w.keyManager.isRegistered
  if registered = false then return none
  else
    let newAuthRoot ← onKeys KeyManager.prepareRotation
    let built ← reads fun w => w.announceTx .rotateAuth fresh newAuthRoot (w.rotationFee fee)
    match ← ofExcept built with
    | none => return none
    | some tx => do
      let hashData ← ofExcept tx.hashData
      let s ← onKeys (KeyManager.temporalSignRotation (.transaction hashData))
      let field ← ofExcept (rotationField s.publicKey s.proof s.keyIndex)
      return some { tx with
        inputs := tx.inputs.map fun inp =>
          { inp with signature := s.signature, publicKey := field } }

def confirmRotation : Stateful (Wallet S) Unit := onKeys KeyManager.executeRotation

def submitTransaction (tx : Transaction) : Stateful (Wallet S) Unit := do
  let txHash ← ofExcept tx.txHash
  modify fun w => { w with pendingTxs := w.pendingTxs.set txHash tx }
  let _ ← forEach (fun inp => spendUtxo inp.prevTxHash inp.outputIndex txHash) tx.inputs

def isOurAddress (address : Bytes) (w : Wallet S) : Bool :=
  w.keyManager.keyCache.values.flatten.any fun pair => pair.address = address

def confirmOutput (tx : Transaction) (output : TxOutput × ℕ) : Stateful (Wallet S) Unit := do
  let ours ← reads fun w => decide (output.1.address = w.address) || w.isOurAddress output.1.address
  if ours then do
    let txHash ← ofExcept tx.txHash
    addUtxo txHash output.2 output.1 tx.epoch
  else return ()

def confirmTransaction (txHash : Bytes) : Stateful (Wallet S) Unit := do
  let pending ← reads fun w => w.pendingTxs.get? txHash
  modify fun w => { w with pendingTxs := w.pendingTxs.erase txHash }
  match pending with
  | none => return ()
  | some tx => do
    modify fun w => { w with txHistory := w.txHistory ++ [txHash] }
    let _ ← forEach (confirmOutput tx) tx.outputs.zipIdx

def syncEpoch (epoch : ℤ) : Stateful (Wallet S) Unit := do
  let current ← reads currentEpoch
  if current < epoch then do
    onKeys (KeyManager.evolveToEpoch epoch)
    modify fun w => { w with currentEpoch := epoch }
  else return ()

inductive Call where
  | keys (call : KeyManager.Call)
  | addUtxo (txHash : Bytes) (outputIndex : ℤ) (output : TxOutput) (epoch : ℤ)
  | spendUtxo (txHash : Bytes) (outputIndex : ℤ) (spendingTx : Bytes)
  | createTransfer (fresh : Fresh) (recipient : Bytes) (amount : ℤ) (fee : Option ℤ)
  | createStake (fresh : Fresh) (amount lockEpochs : ℤ)
  | createUnstake (fresh : Fresh)
  | createDataTx (fresh : Fresh) (data : Bytes) (fee : Option ℤ)
  | createRegistrationTx (fresh : Fresh) (fee : Option ℤ)
  | createRotationTx (fresh : Fresh) (fee : Option ℤ)
  | confirmRotation
  | submitTransaction (tx : Transaction)
  | confirmTransaction (txHash : Bytes)
  | syncEpoch (epoch : ℤ)

/-- A call on the wallet or on its key manager, with its return value dropped. -/
def apply : Call → Stateful (Wallet S) Unit
  | .keys call => onKeys (KeyManager.apply call)
  | .addUtxo txHash outputIndex output epoch => addUtxo txHash outputIndex output epoch
  | .spendUtxo txHash outputIndex spendingTx => do let _ ← spendUtxo txHash outputIndex spendingTx
  | .createTransfer fresh recipient amount fee => do
    let _ ← createTransfer fresh recipient amount fee
  | .createStake fresh amount lockEpochs => do let _ ← createStake fresh amount lockEpochs
  | .createUnstake fresh => do let _ ← createUnstake fresh
  | .createDataTx fresh data fee => do let _ ← createDataTx fresh data fee
  | .createRegistrationTx fresh fee => do let _ ← createRegistrationTx fresh fee
  | .createRotationTx fresh fee => do let _ ← createRotationTx fresh fee
  | .confirmRotation => confirmRotation
  | .submitTransaction tx => submitTransaction tx
  | .confirmTransaction txHash => confirmTransaction txHash
  | .syncEpoch epoch => syncEpoch epoch

def forget (w : Wallet S) : Wallet Bytes where
  config := w.config
  keyManager := w.keyManager.forget
  utxos := w.utxos
  pendingTxs := w.pendingTxs
  txHistory := w.txHistory
  currentEpoch := w.currentEpoch

theorem forget_init (config : WalletConfig) (masterSeed : S) :
    (init config masterSeed).forget = init config (value masterSeed) := by
  simp only [init, forget, KeyManager.forget_init]

theorem registrationKeypair_forget (k : KeyManager S) :
    k.forget.getWotsKeypairForRegistration = k.getWotsKeypairForRegistration := by
  have hseed : value (registration k.forget.masterSeed) = value (registration k.masterSeed) :=
    (value_registration k.masterSeed).symm
  rw [KeyManager.getWotsKeypairForRegistration, KeyManager.getWotsKeypairForRegistration, hseed]

theorem registrationTx_forget (fresh : Fresh) (fee : Option ℤ) (w : Wallet S) :
    w.forget.registrationTx fresh fee = w.registrationTx fresh fee := by
  have hkeys : w.forget.keyManager.getWotsKeypairForRegistration =
      w.keyManager.getWotsKeypairForRegistration := registrationKeypair_forget w.keyManager
  rw [registrationTx, registrationTx, hkeys]
  rfl

theorem isOurAddress_forget (address : Bytes) (w : Wallet S) :
    w.forget.isOurAddress address = w.isOurAddress address := by
  have hvalues : w.forget.keyManager.keyCache.values =
      w.keyManager.keyCache.values.map (List.map KeyPair.forget) :=
    OrderedDict.values_map _ _
  rw [isOurAddress, isOurAddress, hvalues, ← List.map_flatten, List.any_map]
  rfl

theorem simulates_onKeys {α : Type} {x : Stateful (KeyManager S) α}
    {y : Stateful (KeyManager Bytes) α} (h : Simulates KeyManager.forget x y) :
    Simulates forget (onKeys x) (onKeys y) :=
  h.on (fun _ => rfl) fun _ _ => rfl

theorem simulates_signInputTemporal (payload : Payload) (inp : TxInput) :
    Simulates (KeyManager.forget (S := S)) (signInputTemporal payload inp)
      (signInputTemporal payload inp) :=
  (KeyManager.simulates_temporalSign payload).bind fun _ => simulates_pure _

theorem simulates_signInputLegacy (payload : Payload) (epoch : ℤ) (inp : TxInput) :
    Simulates (KeyManager.forget (S := S)) (signInputLegacy payload epoch inp)
      (signInputLegacy payload epoch inp) := by
  refine (KeyManager.simulates_getUnusedKeypair epoch).bind fun ref => ?_
  refine Simulates.bind (simulates_reads ?_) fun publicKey => ?_
  · intro k
    rw [KeyManager.pairAt_forget]
    cases k.pairAt ref <;> rfl
  · exact (KeyManager.simulates_keySign payload ref).bind fun _ => simulates_pure _

theorem simulates_signInputs (tx : Transaction) :
    Simulates (forget (S := S)) (signInputs tx) (signInputs tx) := by
  refine (simulates_ofExcept _).bind fun hashData => ?_
  refine Simulates.bind (simulates_reads fun _ => rfl) fun registered => ?_
  refine Simulates.bind (simulates_reads fun _ => rfl) fun epoch => ?_
  refine (simulates_onKeys (Simulates.forEach ?_ tx.inputs)).bind fun inputs => simulates_pure _
  intro inp
  cases registered with
  | true => exact simulates_signInputTemporal _ inp
  | false => exact simulates_signInputLegacy _ epoch inp

theorem simulates_signBuilt (tx : Option Transaction) :
    Simulates (forget (S := S)) (signBuilt tx) (signBuilt tx) := by
  cases tx with
  | none => exact simulates_pure _
  | some tx => exact (simulates_signInputs tx).bind fun _ => simulates_pure _

theorem simulates_createRegistrationTx (fresh : Fresh) (fee : Option ℤ) :
    Simulates (forget (S := S)) (createRegistrationTx fresh fee)
      (createRegistrationTx fresh fee) := by
  refine (simulates_reads (registrationTx_forget fresh fee)).bind fun built => ?_
  refine (simulates_ofExcept built).bind fun tx => ?_
  cases tx with
  | none => exact simulates_pure _
  | some tx =>
    refine Simulates.bind ((simulates_ofExcept _).bind fun hashData => ?_) fun _ => simulates_pure _
    refine Simulates.bind (simulates_reads ?_) fun privateKey => ?_
    · intro w
      exact congrArg Prod.fst (registrationKeypair_forget w.keyManager)
    · refine Simulates.bind (simulates_onKeys (KeyManager.simulates_record ?_ _)) fun _ =>
        simulates_pure _
      intro k
      exact (value_registration k.masterSeed).symm

theorem simulates_createRotationTx (fresh : Fresh) (fee : Option ℤ) :
    Simulates (forget (S := S)) (createRotationTx fresh fee) (createRotationTx fresh fee) := by
  refine Simulates.bind (simulates_reads fun _ => rfl) fun registered => ?_
  refine Simulates.ite (simulates_pure _) ?_
  refine (simulates_onKeys KeyManager.simulates_prepareRotation).bind fun newAuthRoot => ?_
  refine Simulates.bind (simulates_reads fun _ => rfl) fun built => ?_
  refine (simulates_ofExcept built).bind fun tx => ?_
  cases tx with
  | none => exact simulates_pure _
  | some tx =>
    refine (simulates_ofExcept _).bind fun hashData => ?_
    refine (simulates_onKeys (KeyManager.simulates_temporalSignRotation _)).bind fun s => ?_
    exact (simulates_ofExcept _).bind fun field => simulates_pure _

theorem simulates_spendUtxo (txHash : Bytes) (outputIndex : ℤ) (spendingTx : Bytes) :
    Simulates (forget (S := S)) (spendUtxo txHash outputIndex spendingTx)
      (spendUtxo txHash outputIndex spendingTx) := by
  intro w
  have hutxos : w.forget.utxos = w.utxos := rfl
  rw [spendUtxo, spendUtxo, hutxos]
  cases w.utxos.get? (txHash, outputIndex) with
  | none => rfl
  | some utxo =>
    simp only
    split_ifs <;> rfl

theorem simulates_confirmOutput (tx : Transaction) (output : TxOutput × ℕ) :
    Simulates (forget (S := S)) (confirmOutput tx output) (confirmOutput tx output) := by
  refine Simulates.bind (simulates_reads ?_) fun ours => ?_
  · intro w
    rw [isOurAddress_forget]
    rfl
  · refine Simulates.ite ?_ (simulates_pure _)
    exact (simulates_ofExcept _).bind fun txHash => simulates_modify fun _ => rfl

theorem simulates_confirmTransaction (txHash : Bytes) :
    Simulates (forget (S := S)) (confirmTransaction txHash) (confirmTransaction txHash) := by
  refine Simulates.bind (simulates_reads fun _ => rfl) fun pending => ?_
  refine Simulates.bind (simulates_modify fun _ => rfl) fun _ => ?_
  cases pending with
  | none => exact simulates_pure _
  | some tx =>
    refine Simulates.bind (simulates_modify fun _ => rfl) fun _ => ?_
    exact (Simulates.forEach (simulates_confirmOutput tx) _).bind fun _ => simulates_pure _

theorem simulates_apply (call : Call) : Simulates (forget (S := S)) (apply call) (apply call) := by
  cases call with
  | keys call => exact simulates_onKeys (KeyManager.simulates_apply call)
  | addUtxo txHash outputIndex output epoch => exact simulates_modify fun _ => rfl
  | spendUtxo txHash outputIndex spendingTx =>
    exact (simulates_spendUtxo _ _ _).bind fun _ => simulates_pure ()
  | createTransfer fresh recipient amount fee =>
    exact Simulates.bind ((simulates_reads fun _ => rfl).bind simulates_signBuilt) fun _ =>
      simulates_pure ()
  | createStake fresh amount lockEpochs =>
    exact Simulates.bind ((simulates_reads fun _ => rfl).bind simulates_signBuilt) fun _ =>
      simulates_pure ()
  | createUnstake fresh =>
    exact Simulates.bind ((simulates_reads fun _ => rfl).bind simulates_signBuilt) fun _ =>
      simulates_pure ()
  | createDataTx fresh data fee =>
    exact Simulates.bind ((simulates_reads fun _ => rfl).bind simulates_signBuilt) fun _ =>
      simulates_pure ()
  | createRegistrationTx fresh fee =>
    exact (simulates_createRegistrationTx fresh fee).bind fun _ => simulates_pure ()
  | createRotationTx fresh fee =>
    exact (simulates_createRotationTx fresh fee).bind fun _ => simulates_pure ()
  | confirmRotation => exact simulates_onKeys KeyManager.simulates_executeRotation
  | submitTransaction tx =>
    refine (simulates_ofExcept _).bind fun txHash => ?_
    refine Simulates.bind (simulates_modify fun _ => rfl) fun _ => ?_
    exact (Simulates.forEach (fun inp => simulates_spendUtxo _ _ _) _).bind fun _ => simulates_pure ()
  | confirmTransaction txHash => exact simulates_confirmTransaction txHash
  | syncEpoch epoch =>
    refine Simulates.bind (simulates_reads fun _ => rfl) fun current => ?_
    refine Simulates.ite ?_ (simulates_pure _)
    refine Simulates.bind (simulates_onKeys ?_) fun _ => ?_
    · exact simulates_modify fun _ => rfl
    · exact simulates_modify fun _ => rfl

end Wallet

end Qrtb
