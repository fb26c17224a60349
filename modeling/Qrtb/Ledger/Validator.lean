import Qrtb.Ledger.UtxoSet

/-!
# Transaction validation (`TransactionValidator` in `src/transaction.py`)

Validation reads the ledger and changes nothing. `ok` stands for the source's
`(True, "valid")`, a rejection for `(False, reason)`.
-/

namespace Qrtb

open Keccak

def MAX_COINBASE_VALUE : ℤ := 10000000000

/-- `SHA3-512("address_outer" || inner_hash)`. -/
def deriveAddress (innerHash : Bytes) : Bytes :=
  sha3_512 (ascii ['a', 'd', 'd', 'r', 'e', 's', 's', '_', 'o', 'u', 't', 'e', 'r'] ++ innerHash)

/-- The size of a WOTS+ public key, `67 * 32`. -/
def wotsPubSize : ℕ := 67 * 32

/-- The proof entries of a rotation: 32 bytes of sibling and one byte of position each;
a trailing part of an entry is ignored. -/
def parseProof (data : Bytes) : List ProofEntry :=
  if h : 33 ≤ data.length then
    (data.take 32, (data.get ⟨32, by omega⟩).toNat) :: parseProof (data.drop 33)
  else []
termination_by data.length
decreasing_by
  rw [List.length_drop]
  omega

/-- `proof_len` of a rotation's public-key field. -/
def rotationProofLength (field : Bytes) : ℕ :=
  Bytes.toNat (Bytes.slice field wotsPubSize (wotsPubSize + 2))

def rotationProof (field : Bytes) : List ProofEntry :=
  parseProof (Bytes.slice field (wotsPubSize + 2) (wotsPubSize + 2 + rotationProofLength field))

def rotationKeyIndex (field : Bytes) : ℕ :=
  let stop := wotsPubSize + 2 + rotationProofLength field
  Bytes.toNat (Bytes.slice field stop (stop + 4))

namespace Ledger

variable (L : Ledger)

def findUtxo (inp : TxInput) : Option Utxo :=
  L.utxoSet.getUtxo inp.prevTxHash inp.outputIndex

/-- `auth_root` may be missing, in which case no proof compares equal to it. -/
def provedUnder (address publicKey : Bytes) (proof : List ProofEntry) : Bool :=
  (L.authRegistry.getAuthRoot address).any fun root =>
    MerkleTree.verifyProof (sha3_256 publicKey) proof root

/-- Ownership by temporal auth: a registered owner must show a proof, others are signature-only. -/
def checkOwner (ownerAddr : Bytes) (inp : TxInput) : Check Unit :=
  if L.authRegistry.isRegistered ownerAddr then
    match inp.authProof with
    | some (entry :: entries) =>
      Check.rejectIf (L.provedUnder ownerAddr inp.publicKey (entry :: entries) = false)
        s!"public key not in auth tree for {Bytes.hexPrefix ownerAddr 16}"
    | _ =>
      .error (.reject
        s!"registered address requires temporal auth proof for {Bytes.hexPrefix ownerAddr 16}")
  else .ok ()

/-- The body of the transfer loop; returns the value of the referenced output. -/
def checkTransferInput (signingHash : Bytes) (currentEpoch : ℤ) (inp : TxInput) : Check ℤ :=
  match L.findUtxo inp with
  | none =>
    .error (.reject s!"UTXO not found: {Bytes.hexPrefix inp.prevTxHash 8}:{inp.outputIndex}")
  | some utxo => do
    Check.rejectIf (utxo.isSpent = true)
      s!"UTXO already spent: {Bytes.hexPrefix inp.prevTxHash 8}:{inp.outputIndex}"
    Check.rejectIf (utxo.output.lockEpoch > currentEpoch)
      s!"UTXO locked until epoch {utxo.output.lockEpoch}"
    Check.rejectIf (Wots.verify signingHash inp.signature inp.publicKey = false)
      s!"invalid signature for input {Bytes.hexPrefix inp.prevTxHash 8}:{inp.outputIndex}"
    L.checkOwner utxo.output.address inp
    return utxo.output.value

def sumTransferInputs (signingHash : Bytes) (currentEpoch : ℤ) : List TxInput → Check ℤ
  | [] => .ok 0
  | inp :: inputs => do
    let value ← L.checkTransferInput signingHash currentEpoch inp
    let rest ← sumTransferInputs signingHash currentEpoch inputs
    return value + rest

/-- The conservation check shared by the spending types. -/
def checkConservation (totalInput : ℤ) (tx : Transaction) : Check Unit :=
  Check.rejectIf (totalInput < tx.totalOutput + tx.fee)
    s!"insufficient input: {totalInput} < {tx.totalOutput + tx.fee}"

def validateTransfer (tx : Transaction) (currentEpoch : ℤ) : Check Unit := do
  let signingHash ← Check.lift tx.signingHash
  let totalInput ← L.sumTransferInputs signingHash currentEpoch tx.inputs
  checkConservation totalInput tx

def validateStake (tx : Transaction) (currentEpoch : ℤ) : Check Unit := do
  L.validateTransfer tx currentEpoch
  Check.rejectIf (¬ tx.outputs.any fun o => o.lockEpoch > currentEpoch) "no staking output"

def validateUnstake (tx : Transaction) (currentEpoch : ℤ) : Check Unit :=
  L.validateTransfer tx currentEpoch

def validateCoinbase (tx : Transaction) : Check Unit := do
  Check.rejectIf (tx.inputs.length ≠ 0) "coinbase must have no inputs"
  Check.rejectIf (tx.outputs.length = 0) "coinbase must have outputs"
  Check.rejectIf (tx.totalOutput > MAX_COINBASE_VALUE)
    s!"coinbase value {tx.totalOutput} exceeds max {MAX_COINBASE_VALUE}"

/-- The body of the slash loop: the signature is checked before the output is looked up. -/
def checkSlashInput (signingHash : Bytes) (inp : TxInput) : Check Unit := do
  Check.rejectIf (Wots.verify signingHash inp.signature inp.publicKey = false)
    "invalid signature on slash tx"
  match L.findUtxo inp with
  | none => .error (.reject "slashed UTXO not found")
  | some utxo => do
    Check.rejectIf (utxo.isSpent = true) "slashed UTXO already spent"
    Check.rejectIf (utxo.output.lockEpoch = 0) "slashed UTXO is not a staked output"

def checkSlashInputs (signingHash : Bytes) : List TxInput → Check Unit
  | [] => .ok ()
  | inp :: inputs => do
    L.checkSlashInput signingHash inp
    checkSlashInputs signingHash inputs

/-- `tx.outputs[0].data`. -/
def firstData (tx : Transaction) : Except PyError Bytes :=
  match tx.outputs with
  | [] => .error .indexError
  | out :: _ => .ok out.data

/-- `tx.inputs[0]`. -/
def firstInput (tx : Transaction) : Except PyError TxInput :=
  match tx.inputs with
  | [] => .error .indexError
  | inp :: _ => .ok inp

def validateSlash (tx : Transaction) : Check Unit := do
  Check.rejectIf (tx.outputs.length = 0) "slash tx must have at least 1 output"
  let evidenceData ← Check.lift (firstData tx)
  Check.rejectIf (evidenceData.length < 32)
    "slash tx must include 32-byte evidence hash in output[0].data"
  Check.rejectIf (tx.inputs.length = 0) "slash tx must reference slashed validator's staked UTXO"
  let signingHash ← Check.lift tx.signingHash
  L.checkSlashInputs signingHash tx.inputs

def validateData (tx : Transaction) (currentEpoch : ℤ) : Check Unit := do
  L.validateTransfer tx currentEpoch
  Check.rejectIf (¬ tx.outputs.any fun o => o.data.length > 0) "no data payload"

def validateRegister (tx : Transaction) (currentEpoch : ℤ) : Check Unit := do
  Check.rejectIf (tx.inputs.length ≠ 1) "register tx must have exactly 1 input"
  Check.rejectIf (tx.outputs.length < 1) "register tx must have at least 1 output"
  let regData ← Check.lift (firstData tx)
  Check.rejectIf (regData.length ≠ 96)
    s!"register output data must be 96 bytes (inner_hash||auth_root), got {regData.length}"
  let derivedAddress := deriveAddress (regData.take 64)
  let inp ← Check.lift (firstInput tx)
  match L.findUtxo inp with
  | none => .error (.reject "UTXO not found for register input")
  | some utxo => do
    Check.rejectIf (utxo.isSpent = true) "UTXO already spent"
    Check.rejectIf (utxo.output.address ≠ derivedAddress)
      "inner_hash does not derive to UTXO address"
    Check.rejectIf (utxo.output.lockEpoch > currentEpoch)
      s!"UTXO locked until epoch {utxo.output.lockEpoch}"
    let signingHash ← Check.lift tx.signingHash
    Check.rejectIf (Wots.verify signingHash inp.signature inp.publicKey = false)
      "invalid WOTS+ signature for register tx"
    Check.rejectIf (L.authRegistry.isRegistered derivedAddress = true) "address already registered"
    checkConservation utxo.output.value tx

def validateRotateAuth (tx : Transaction) (currentEpoch : ℤ) : Check Unit := do
  Check.rejectIf (tx.inputs.length ≠ 1) "rotate_auth tx must have exactly 1 input"
  Check.rejectIf (tx.outputs.length < 1) "rotate_auth tx must have at least 1 output"
  let rotData ← Check.lift (firstData tx)
  Check.rejectIf (rotData.length ≠ 32)
    s!"rotate_auth output data must be 32 bytes (new_auth_root), got {rotData.length}"
  let inp ← Check.lift (firstInput tx)
  match L.findUtxo inp with
  | none => .error (.reject "UTXO not found for rotate_auth input")
  | some utxo => do
    Check.rejectIf (utxo.isSpent = true) "UTXO already spent"
    let address := utxo.output.address
    Check.rejectIf (utxo.output.lockEpoch > currentEpoch)
      s!"UTXO locked until epoch {utxo.output.lockEpoch}"
    Check.rejectIf (L.authRegistry.isRegistered address = false)
      "address not registered, cannot rotate"
    let field := inp.publicKey
    Check.rejectIf (field.length < wotsPubSize + 6) "rotate_auth input public_key field too short"
    let wotsPub := field.take wotsPubSize
    Check.rejectIf (field.length < wotsPubSize + 2 + rotationProofLength field + 4)
      "rotate_auth input: insufficient proof data"
    let signingHash ← Check.lift tx.signingHash
    Check.rejectIf
      ((L.authRegistry.getAuthRoot address).any (fun root =>
        TemporalAuthTree.verifyAgainstRoot signingHash inp.signature wotsPub
          (rotationProof field) root) = false)
      "temporal auth verification failed for rotate_auth"
    Check.rejectIf (rotationKeyIndex field < 1022)
      s!"rotate_auth must use reserved key (1022-1023), got {rotationKeyIndex field}"
    checkConservation utxo.output.value tx

def validateByType (tx : Transaction) (currentEpoch : ℤ) : Check Unit :=
  match tx.txType with
  | .coinbase => validateCoinbase tx
  | .transfer => L.validateTransfer tx currentEpoch
  | .stake => L.validateStake tx currentEpoch
  | .unstake => L.validateUnstake tx currentEpoch
  | .slash => L.validateSlash tx
  | .data => L.validateData tx currentEpoch
  | .register => L.validateRegister tx currentEpoch
  | .rotateAuth => L.validateRotateAuth tx currentEpoch

def validateTransaction (tx : Transaction) (currentEpoch : ℤ) : Check Unit := do
  tx.isValidStructure
  Check.rejectIf (tx.epoch > currentEpoch) s!"future epoch: {tx.epoch} > {currentEpoch}"
  Check.rejectIf (tx.epoch < currentEpoch - 1) s!"expired epoch: {tx.epoch}"
  L.validateByType tx currentEpoch

/-- `validate_transaction` returned `(True, "valid")`. -/
def Accepts (tx : Transaction) (currentEpoch : ℤ) : Prop :=
  L.validateTransaction tx currentEpoch = .ok ()

/-- An input names an output that is there and unspent. -/
def InputUnspent (inp : TxInput) (u : Utxo) : Prop :=
  L.findUtxo inp = some u ∧ u.isSpent = false

/-- The ownership rule: a registered owner's key is proved under its current root. -/
def OwnerProved (ownerAddr : Bytes) (inp : TxInput) : Prop :=
  L.authRegistry.isRegistered ownerAddr = true →
    ∃ proof, inp.authProof = some proof ∧ proof ≠ [] ∧
      L.provedUnder ownerAddr inp.publicKey proof = true

/-- What the transfer loop demands of one input. -/
def TransferInputOk (signingHash : Bytes) (currentEpoch : ℤ) (inp : TxInput) : Prop :=
  ∃ u, L.InputUnspent inp u ∧ u.output.lockEpoch ≤ currentEpoch ∧
    Wots.verify signingHash inp.signature inp.publicKey = true ∧
    L.OwnerProved u.output.address inp

def valueOf (inp : TxInput) : ℤ := L.utxoSet.valueAt inp.ref

theorem valueOf_eq {inp : TxInput} {u : Utxo} (h : L.findUtxo inp = some u) :
    L.valueOf inp = u.output.value := by
  have hg : L.utxoSet.utxos.get? inp.ref = some u := h
  simp [valueOf, UtxoSet.valueAt, hg]

theorem checkOwner_eq_ok (ownerAddr : Bytes) (inp : TxInput) (v : Unit) :
    L.checkOwner ownerAddr inp = .ok v ↔ L.OwnerProved ownerAddr inp := by
  unfold checkOwner OwnerProved
  cases hr : L.authRegistry.isRegistered ownerAddr with
  | false => simp
  | true =>
    rcases hp : inp.authProof with - | ⟨- | ⟨entry, entries⟩⟩
    · simp
    · simp
    · simp

theorem checkTransferInput_eq_ok (signingHash : Bytes) (currentEpoch : ℤ) (inp : TxInput)
    (value : ℤ) :
    L.checkTransferInput signingHash currentEpoch inp = .ok value ↔
      L.TransferInputOk signingHash currentEpoch inp ∧ value = L.valueOf inp := by
  unfold checkTransferInput TransferInputOk InputUnspent
  cases hu : L.findUtxo inp with
  | none => simp
  | some u =>
    simp only [Except.bind_eq_ok, Check.rejectIf_eq_ok, exists_const, checkOwner_eq_ok,
      Bool.not_eq_true, Bool.not_eq_false, gt_iff_lt, not_lt, L.valueOf_eq hu]
    constructor
    · rintro ⟨hs, hl, hw, ho, he⟩
      exact ⟨⟨u, ⟨rfl, hs⟩, hl, hw, ho⟩, (Except.ok.inj he).symm⟩
    · rintro ⟨⟨u', ⟨hu', hs⟩, hl, hw, ho⟩, he⟩
      obtain rfl := Option.some.inj hu'
      exact ⟨hs, hl, hw, ho, congrArg Except.ok he.symm⟩

theorem sumTransferInputs_eq_ok (signingHash : Bytes) (currentEpoch : ℤ) (inputs : List TxInput)
    (total : ℤ) :
    L.sumTransferInputs signingHash currentEpoch inputs = .ok total ↔
      (∀ inp ∈ inputs, L.TransferInputOk signingHash currentEpoch inp) ∧
        total = (inputs.map L.valueOf).sum := by
  induction inputs generalizing total with
  | nil => simp [sumTransferInputs, eq_comm]
  | cons inp inputs ih =>
    simp only [sumTransferInputs, Except.bind_eq_ok, checkTransferInput_eq_ok, ih,
      List.forall_mem_cons, List.map_cons, List.sum_cons]
    constructor
    · rintro ⟨v, ⟨hi, rfl⟩, r, ⟨hr, rfl⟩, he⟩
      exact ⟨⟨hi, hr⟩, (Except.ok.inj he).symm⟩
    · rintro ⟨⟨hi, hr⟩, rfl⟩
      exact ⟨_, ⟨hi, rfl⟩, _, ⟨hr, rfl⟩, rfl⟩

/-- The inputs, each occurrence counted, cover outputs and fee. -/
def Conserves (tx : Transaction) : Prop :=
  tx.totalOutput + tx.fee ≤ (tx.inputs.map L.valueOf).sum

theorem validateTransfer_eq_ok (tx : Transaction) (currentEpoch : ℤ) (v : Unit) :
    L.validateTransfer tx currentEpoch = .ok v ↔
      ∃ h, tx.signingHash = .ok h ∧
        (∀ inp ∈ tx.inputs, L.TransferInputOk h currentEpoch inp) ∧ L.Conserves tx := by
  simp only [validateTransfer, Except.bind_eq_ok, Check.lift_eq_ok, sumTransferInputs_eq_ok,
    checkConservation, Check.rejectIf_eq_ok, not_lt, Conserves]
  constructor
  · rintro ⟨h, hh, t, ⟨hi, rfl⟩, hc⟩
    exact ⟨h, hh, hi, hc⟩
  · rintro ⟨h, hh, hi, hc⟩
    exact ⟨h, hh, _, ⟨hi, rfl⟩, hc⟩

/-- What the slash loop demands of one input. -/
def SlashInputOk (signingHash : Bytes) (inp : TxInput) : Prop :=
  Wots.verify signingHash inp.signature inp.publicKey = true ∧
    ∃ u, L.InputUnspent inp u ∧ u.output.lockEpoch ≠ 0

theorem checkSlashInput_eq_ok (signingHash : Bytes) (inp : TxInput) (v : Unit) :
    L.checkSlashInput signingHash inp = .ok v ↔ L.SlashInputOk signingHash inp := by
  unfold checkSlashInput SlashInputOk InputUnspent
  cases hu : L.findUtxo inp with
  | none => simp [Except.bind_eq_ok]
  | some u => simp [Except.bind_eq_ok]

theorem checkSlashInputs_eq_ok (signingHash : Bytes) (inputs : List TxInput) :
    L.checkSlashInputs signingHash inputs = .ok () ↔
      ∀ inp ∈ inputs, L.SlashInputOk signingHash inp := by
  induction inputs with
  | nil => simp [checkSlashInputs]
  | cons inp inputs ih =>
    simp [checkSlashInputs, Except.bind_eq_ok, checkSlashInput_eq_ok, ih]

theorem validateSlash_eq_ok (tx : Transaction) :
    L.validateSlash tx = .ok () ↔
      ∃ out outs h, tx.outputs = out :: outs ∧ 32 ≤ out.data.length ∧ tx.inputs ≠ [] ∧
        tx.signingHash = .ok h ∧ ∀ inp ∈ tx.inputs, L.SlashInputOk h inp := by
  cases ho : tx.outputs with
  | nil => simp [validateSlash, Except.bind_eq_ok, ho]
  | cons out outs =>
    simp only [validateSlash, Except.bind_eq_ok, Check.rejectIf_eq_ok, exists_const,
      Check.lift_eq_ok, checkSlashInputs_eq_ok, firstData, ho, List.length_cons,
      List.length_eq_zero_iff, not_lt]
    constructor
    · rintro ⟨-, d, hd, hl, hi, h, hh, hs⟩
      obtain rfl := Except.ok.inj hd
      exact ⟨out, outs, h, rfl, hl, hi, hh, hs⟩
    · rintro ⟨out', outs', h, he, hl, hi, hh, hs⟩
      obtain ⟨rfl, rfl⟩ := List.cons.inj he
      exact ⟨by omega, _, rfl, hl, hi, h, hh, hs⟩

/-- The accepted registrations: one unspent input whose owner is the derived, unregistered address. -/
structure RegisterOk (tx : Transaction) (currentEpoch : ℤ) (inp : TxInput) (out : TxOutput)
    (u : Utxo) (signingHash : Bytes) : Prop where
  inputs : tx.inputs = [inp]
  outputs : tx.outputs.head? = some out
  dataLength : out.data.length = 96
  unspent : L.InputUnspent inp u
  owner : u.output.address = deriveAddress (out.data.take 64)
  unlocked : u.output.lockEpoch ≤ currentEpoch
  hash : tx.signingHash = .ok signingHash
  signed : Wots.verify signingHash inp.signature inp.publicKey = true
  fresh : L.authRegistry.isRegistered (deriveAddress (out.data.take 64)) = false
  conserves : L.Conserves tx

theorem conserves_singleton {tx : Transaction} {inp : TxInput} {u : Utxo}
    (hi : tx.inputs = [inp]) (hu : L.findUtxo inp = some u) :
    L.Conserves tx ↔ tx.totalOutput + tx.fee ≤ u.output.value := by
  simp [Conserves, hi, L.valueOf_eq hu]

theorem inputs_of_firstInput {tx : Transaction} {inp : TxInput} (hlen : tx.inputs.length = 1)
    (h : firstInput tx = .ok inp) : tx.inputs = [inp] := by
  obtain ⟨first, hinputs⟩ := List.length_eq_one_iff.mp hlen
  rw [firstInput, hinputs] at h
  rw [hinputs, Except.ok.inj h]

theorem head_of_firstData {tx : Transaction} {data : Bytes} (h : firstData tx = .ok data) :
    ∃ out, tx.outputs.head? = some out ∧ out.data = data := by
  unfold firstData at h
  cases houtputs : tx.outputs with
  | nil =>
    rw [houtputs] at h
    cases h
  | cons out outs =>
    rw [houtputs] at h
    exact ⟨out, rfl, Except.ok.inj h⟩

theorem validateRegister_eq_ok (tx : Transaction) (currentEpoch : ℤ) :
    L.validateRegister tx currentEpoch = .ok () ↔
      ∃ inp out u h, L.RegisterOk tx currentEpoch inp out u h := by
  constructor
  · intro h
    simp only [validateRegister, Except.bind_eq_ok, Check.rejectIf_eq_ok, exists_const,
      Check.lift_eq_ok, not_not] at h
    obtain ⟨hi, -, d, hd, hlen, inp, hinp, hrest⟩ := h
    have hinputs := inputs_of_firstInput hi hinp
    obtain ⟨out, houtputs, rfl⟩ := head_of_firstData hd
    cases hu : L.findUtxo inp with
    | none => simp [hu] at hrest
    | some u =>
      simp only [hu, Except.bind_eq_ok, Check.rejectIf_eq_ok, exists_const, Check.lift_eq_ok,
        Bool.not_eq_true, Bool.not_eq_false, gt_iff_lt, not_lt, not_not, checkConservation]
        at hrest
      obtain ⟨hs, ha, hl, sh, hh, hw, hr, hc⟩ := hrest
      exact ⟨inp, out, u, sh, hinputs, houtputs, hlen, ⟨hu, hs⟩, ha, hl, hh, hw, hr,
        (L.conserves_singleton hinputs hu).mpr hc⟩
  · intro h
    obtain ⟨inp, out, u, sh, h⟩ := h
    obtain ⟨outs, houtputs⟩ := List.head?_eq_some_iff.mp h.outputs
    have hc := (L.conserves_singleton h.inputs h.unspent.1).mp h.conserves
    simp [validateRegister, Except.bind_eq_ok, firstInput, firstData, h.inputs, houtputs,
      h.dataLength, h.unspent.1, h.unspent.2, h.owner, h.unlocked, h.hash, h.signed, h.fresh,
      checkConservation, hc]

/-- The accepted rotations: one unspent input of a registered owner, signed by a key that the
proof in the public-key field places under the owner's current root. -/
structure RotateOk (tx : Transaction) (currentEpoch : ℤ) (inp : TxInput) (out : TxOutput)
    (u : Utxo) (signingHash root : Bytes) : Prop where
  inputs : tx.inputs = [inp]
  outputs : tx.outputs.head? = some out
  dataLength : out.data.length = 32
  unspent : L.InputUnspent inp u
  unlocked : u.output.lockEpoch ≤ currentEpoch
  registered : L.authRegistry.isRegistered u.output.address = true
  fieldLength : wotsPubSize + 6 ≤ inp.publicKey.length
  proofLength : wotsPubSize + 2 + rotationProofLength inp.publicKey + 4 ≤ inp.publicKey.length
  hash : tx.signingHash = .ok signingHash
  currentRoot : L.authRegistry.getAuthRoot u.output.address = some root
  proved : TemporalAuthTree.verifyAgainstRoot signingHash inp.signature
    (inp.publicKey.take wotsPubSize) (rotationProof inp.publicKey) root = true
  reserved : 1022 ≤ rotationKeyIndex inp.publicKey
  conserves : L.Conserves tx

theorem validateRotateAuth_eq_ok (tx : Transaction) (currentEpoch : ℤ) :
    L.validateRotateAuth tx currentEpoch = .ok () ↔
      ∃ inp out u h root, L.RotateOk tx currentEpoch inp out u h root := by
  constructor
  · intro h
    simp only [validateRotateAuth, Except.bind_eq_ok, Check.rejectIf_eq_ok, exists_const,
      Check.lift_eq_ok, not_not] at h
    obtain ⟨hi, -, d, hd, hlen, inp, hinp, hrest⟩ := h
    have hinputs := inputs_of_firstInput hi hinp
    obtain ⟨out, houtputs, rfl⟩ := head_of_firstData hd
    cases hu : L.findUtxo inp with
    | none => simp [hu] at hrest
    | some u =>
      simp only [hu, Except.bind_eq_ok, Check.rejectIf_eq_ok, exists_const, Check.lift_eq_ok,
        Bool.not_eq_true, Bool.not_eq_false, gt_iff_lt, not_lt, checkConservation] at hrest
      obtain ⟨hs, hl, hr, hf, hp, sh, hh, hv, hk, hc⟩ := hrest
      obtain ⟨root, hroot, hproved⟩ := (Option.any_eq_true _ _).mp hv
      exact ⟨inp, out, u, sh, root, hinputs, houtputs, hlen, ⟨hu, hs⟩, hl, hr, hf, hp,
        hh, hroot, hproved, hk, (L.conserves_singleton hinputs hu).mpr hc⟩
  · intro h
    obtain ⟨inp, out, u, sh, root, h⟩ := h
    obtain ⟨outs, houtputs⟩ := List.head?_eq_some_iff.mp h.outputs
    have hc := (L.conserves_singleton h.inputs h.unspent.1).mp h.conserves
    simp [validateRotateAuth, Except.bind_eq_ok, firstInput, firstData, h.inputs, houtputs,
      h.dataLength, h.unspent.1, h.unspent.2, h.unlocked, h.registered, h.fieldLength,
      h.proofLength, h.hash, h.currentRoot, h.proved, h.reserved, checkConservation, hc]

/-- The part of validation every type goes through. -/
structure Admissible (tx : Transaction) (currentEpoch : ℤ) : Prop where
  wellFormed : tx.WellFormed
  notFuture : tx.epoch ≤ currentEpoch
  notExpired : currentEpoch - 1 ≤ tx.epoch

theorem accepts_iff (tx : Transaction) (currentEpoch : ℤ) :
    L.Accepts tx currentEpoch ↔
      Admissible tx currentEpoch ∧ L.validateByType tx currentEpoch = .ok () := by
  simp only [Accepts, validateTransaction, Except.bind_eq_ok, Check.rejectIf_eq_ok, exists_const,
    Transaction.isValidStructure_eq_ok, gt_iff_lt, not_lt]
  constructor
  · intro h
    exact ⟨⟨h.1, h.2.1, h.2.2.1⟩, h.2.2.2⟩
  · intro h
    exact ⟨h.1.wellFormed, h.1.notFuture, h.1.notExpired, h.2⟩

/-- The types that go through the transfer loop. -/
def IsTransferLike (type : TxType) : Prop :=
  type = .transfer ∨ type = .stake ∨ type = .unstake ∨ type = .data

theorem validateStake_eq_ok {tx : Transaction} {currentEpoch : ℤ} :
    L.validateStake tx currentEpoch = .ok () ↔ L.validateTransfer tx currentEpoch = .ok () ∧
      ∃ o ∈ tx.outputs, currentEpoch < o.lockEpoch := by
  have hany : ¬ ¬ (tx.outputs.any fun o => o.lockEpoch > currentEpoch) ↔
      ∃ o ∈ tx.outputs, currentEpoch < o.lockEpoch := by simp
  simp only [validateStake, Except.bind_eq_ok, Check.rejectIf_eq_ok, hany, exists_and_right]
  exact and_congr_left fun _ => ⟨fun ⟨_, h⟩ => h, fun h => ⟨(), h⟩⟩

theorem validateData_eq_ok {tx : Transaction} {currentEpoch : ℤ} :
    L.validateData tx currentEpoch = .ok () ↔ L.validateTransfer tx currentEpoch = .ok () ∧
      ∃ o ∈ tx.outputs, 0 < o.data.length := by
  have hany : ¬ ¬ (tx.outputs.any fun o => o.data.length > 0) ↔
      ∃ o ∈ tx.outputs, 0 < o.data.length := by simp [List.length_pos_iff]
  simp only [validateData, Except.bind_eq_ok, Check.rejectIf_eq_ok, hany, exists_and_right]
  exact and_congr_left fun _ => ⟨fun ⟨_, h⟩ => h, fun h => ⟨(), h⟩⟩

/-- The types of the transfer loop, with what two of them ask for besides. -/
theorem validateByType_of_transferLike {tx : Transaction} {currentEpoch : ℤ}
    (type : IsTransferLike tx.txType) :
    L.validateByType tx currentEpoch = .ok () ↔ L.validateTransfer tx currentEpoch = .ok () ∧
      (tx.txType = .stake → ∃ o ∈ tx.outputs, currentEpoch < o.lockEpoch) ∧
      (tx.txType = .data → ∃ o ∈ tx.outputs, 0 < o.data.length) := by
  unfold validateByType
  rcases type with htype | htype | htype | htype <;> rw [htype]
  · simp
  · simpa using L.validateStake_eq_ok
  · simp [validateUnstake]
  · simpa using L.validateData_eq_ok

/-- What an accepted transaction satisfies, by the validator that accepted it. -/
inductive AcceptedAs (tx : Transaction) (currentEpoch : ℤ) : Prop
  | coinbase (type : tx.txType = .coinbase) (inputs : tx.inputs = [])
      (bounded : tx.totalOutput ≤ MAX_COINBASE_VALUE)
  | transfer (type : IsTransferLike tx.txType) (signingHash : Bytes)
      (hash : tx.signingHash = .ok signingHash)
      (each : ∀ inp ∈ tx.inputs, L.TransferInputOk signingHash currentEpoch inp)
      (conserves : L.Conserves tx)
  | slash (type : tx.txType = .slash) (signingHash : Bytes)
      (hash : tx.signingHash = .ok signingHash)
      (each : ∀ inp ∈ tx.inputs, L.SlashInputOk signingHash inp)
  | register (type : tx.txType = .register) (inp : TxInput) (out : TxOutput) (u : Utxo)
      (signingHash : Bytes) (rule : L.RegisterOk tx currentEpoch inp out u signingHash)
  | rotate (type : tx.txType = .rotateAuth) (inp : TxInput) (out : TxOutput) (u : Utxo)
      (signingHash root : Bytes) (rule : L.RotateOk tx currentEpoch inp out u signingHash root)

/-- Inversion of `validate_transaction`, one case for each kind of validator. -/
theorem Accepts.cases {L : Ledger} {tx : Transaction} {currentEpoch : ℤ}
    (h : L.Accepts tx currentEpoch) : L.AcceptedAs tx currentEpoch := by
  have ht := ((L.accepts_iff tx currentEpoch).mp h).2
  by_cases hlike : IsTransferLike tx.txType
  · obtain ⟨htransfer, -⟩ := (L.validateByType_of_transferLike hlike).mp ht
    obtain ⟨sh, hh, hi, hc⟩ := (L.validateTransfer_eq_ok tx currentEpoch ()).mp htransfer
    exact .transfer hlike sh hh hi hc
  · unfold validateByType at ht
    cases htype : tx.txType with
    | transfer | stake | unstake | data => exact absurd (by simp [IsTransferLike, htype]) hlike
    | coinbase =>
      simp only [htype, validateCoinbase, Except.bind_eq_ok, Check.rejectIf_eq_ok, exists_const,
        not_not, List.length_eq_zero_iff, gt_iff_lt, not_lt] at ht
      exact .coinbase htype ht.1 ht.2.2
    | slash =>
      rw [htype] at ht
      obtain ⟨-, -, sh, -, -, -, hh, hs⟩ := (L.validateSlash_eq_ok tx).mp ht
      exact .slash htype sh hh hs
    | register =>
      rw [htype] at ht
      obtain ⟨inp, out, u, sh, rule⟩ := (L.validateRegister_eq_ok tx currentEpoch).mp ht
      exact .register htype inp out u sh rule
    | rotateAuth =>
      rw [htype] at ht
      obtain ⟨inp, out, u, sh, root, rule⟩ := (L.validateRotateAuth_eq_ok tx currentEpoch).mp ht
      exact .rotate htype inp out u sh root rule

theorem Accepts.wellFormed {L : Ledger} {tx : Transaction} {currentEpoch : ℤ}
    (h : L.Accepts tx currentEpoch) : tx.WellFormed :=
  ((L.accepts_iff tx currentEpoch).mp h).1.wellFormed

theorem Accepts.inputUnspent {L : Ledger} {tx : Transaction} {currentEpoch : ℤ}
    (h : L.Accepts tx currentEpoch) : ∀ inp ∈ tx.inputs, ∃ u, L.InputUnspent inp u := by
  intro inp hinp
  rcases h.cases with ⟨-, hi, -⟩ | ⟨-, sh, -, each, -⟩ | ⟨-, sh, -, each⟩ |
    ⟨-, inp', out, u, sh, rule⟩ | ⟨-, inp', out, u, sh, root, rule⟩
  · simp [hi] at hinp
  · obtain ⟨u, hu, -⟩ := each inp hinp
    exact ⟨u, hu⟩
  · obtain ⟨-, u, hu, -⟩ := each inp hinp
    exact ⟨u, hu⟩
  · obtain rfl : inp = inp' := by simpa [rule.inputs] using hinp
    exact ⟨u, rule.unspent⟩
  · obtain rfl : inp = inp' := by simpa [rule.inputs] using hinp
    exact ⟨u, rule.unspent⟩

theorem Accepts.packable {L : Ledger} {tx : Transaction} {currentEpoch : ℤ}
    (h : L.Accepts tx currentEpoch) (hc : tx.txType ≠ .coinbase) : tx.Packable := by
  have of_hash : ∀ {sh}, tx.signingHash = .ok sh → tx.Packable := by
    intro sh hh
    exact tx.txHash_returns.mp ⟨sh, hh⟩
  rcases h.cases with ⟨ht, -, -⟩ | ⟨-, sh, hh, -, -⟩ | ⟨-, sh, hh, -⟩ |
    ⟨-, inp', out, u, sh, rule⟩ | ⟨-, inp', out, u, sh, root, rule⟩
  · exact absurd ht hc
  · exact of_hash hh
  · exact of_hash hh
  · exact of_hash rule.hash
  · exact of_hash rule.hash

end Ledger

end Qrtb
