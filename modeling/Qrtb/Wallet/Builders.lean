import Qrtb.Wallet.CoinSelection

/-!
# The builders of a wallet

Four builders spend outputs and sign every input with a key of its own. They
differ in the outputs they pick, in what they pay and in when they refuse; what
each returns is the same kind of draft with signed inputs. A registration and a
rotation spend one output and sign it with a key kept for that purpose.
-/

namespace Qrtb

open Stateful SeedSpace

namespace Wallet

variable {S : Type}

/-- The builders whose inputs are signed one by one. -/
inductive Spending where
  | transfer (recipient : Bytes) (amount : ℤ) (fee : Option ℤ)
  | stake (amount lockEpochs : ℤ)
  | unstake
  | data (data : Bytes) (fee : Option ℤ)

namespace Spending

def txType : Spending → TxType
  | transfer _ _ _ => .transfer
  | stake _ _ => .stake
  | unstake => .unstake
  | data _ _ => .data

/-- The given fee, or the estimate: two outputs and one input, for unstaking one output and as
many inputs as there are. -/
def feeOf (w : Wallet S) : Spending → ℤ
  | transfer _ _ fee => fee.getD ((50 + inputSize + 2 * 80) * w.config.feeRate)
  | stake _ _ => w.estimateFee 1 2
  | unstake => w.estimateFee w.matureStakes.length 1
  | data _ fee => fee.getD (w.estimateFee 1 2)

/-- The outputs of the wallet that are spent. -/
def picked (w : Wallet S) (p : Spending) : List Utxo :=
  match p with
  | transfer _ amount _ => (w.selectUtxos amount (p.feeOf w)).1
  | stake amount _ => (w.selectUtxos amount (p.feeOf w)).1
  | unstake => w.matureStakes
  | data _ _ => (w.selectUtxos 0 (p.feeOf w)).1

/-- What the picked outputs are worth, as the builder adds it up. -/
def total (w : Wallet S) (p : Spending) : ℤ :=
  match p with
  | transfer _ amount _ => (w.selectUtxos amount (p.feeOf w)).2
  | stake amount _ => (w.selectUtxos amount (p.feeOf w)).2
  | unstake => (w.matureStakes.map fun u => u.output.value).sum
  | data _ _ => (w.selectUtxos 0 (p.feeOf w)).2

theorem total_eq_sum (w : Wallet S) (p : Spending) :
    p.total w = ((p.picked w).map fun u => u.output.value).sum := by
  cases p with
  | transfer recipient amount fee => exact selectUtxos_total _ _ _
  | stake amount lockEpochs => exact selectUtxos_total _ _ _
  | unstake => rfl
  | data bytes fee => exact selectUtxos_total _ _ _

def outputs (w : Wallet S) (p : Spending) : List TxOutput :=
  match p with
  | transfer recipient amount _ =>
    { value := amount, address := recipient } ::
      w.changeOutputs (p.total w - amount - p.feeOf w)
  | stake amount lockEpochs =>
    { value := amount, address := w.address, lockEpoch := w.currentEpoch + lockEpochs } ::
      w.changeOutputs (p.total w - amount - p.feeOf w)
  | unstake => [{ value := p.total w - p.feeOf w, address := w.address }]
  | data bytes _ =>
    { value := 0, address := w.address, data := bytes } ::
      w.changeOutputs (p.total w - p.feeOf w)

def Funded (w : Wallet S) (p : Spending) : Prop :=
  match p with
  | transfer _ amount _ => DUST_THRESHOLD ≤ amount ∧ amount + p.feeOf w ≤ p.total w
  | stake amount _ => DUST_THRESHOLD ≤ amount ∧ amount + p.feeOf w ≤ p.total w
  | unstake => w.matureStakes ≠ []
  | data bytes _ => bytes.length ≤ 1000 ∧ p.feeOf w ≤ p.total w

instance (w : Wallet S) (p : Spending) : Decidable (p.Funded w) :=
  match p with
  | transfer _ _ _ => inferInstanceAs (Decidable (_ ∧ _))
  | stake _ _ => inferInstanceAs (Decidable (_ ∧ _))
  | unstake => inferInstanceAs (Decidable (¬ w.matureStakes = []))
  | data _ _ => inferInstanceAs (Decidable (_ ∧ _))

/-- The transaction before it is signed. -/
def draft (fresh : Fresh) (w : Wallet S) (p : Spending) : Transaction :=
  w.newTx p.txType (p.picked w) (p.outputs w) (p.feeOf w) fresh

def unsigned (fresh : Fresh) (w : Wallet S) : Spending → Option Transaction
  | transfer recipient amount fee => w.transferTx fresh recipient amount fee
  | stake amount lockEpochs => w.stakeTx fresh amount lockEpochs
  | unstake => w.unstakeTx fresh
  | data bytes fee => w.dataTx fresh bytes fee

theorem unsigned_eq_some {fresh : Fresh} {w : Wallet S} {p : Spending} {tx : Transaction} :
    p.unsigned fresh w = some tx ↔ p.Funded w ∧ tx = p.draft fresh w := by
  cases p with
  | transfer recipient amount fee =>
    change (if amount < DUST_THRESHOLD then none
      else if (transfer recipient amount fee).total w < amount + (transfer recipient amount fee).feeOf w
        then none else some ((transfer recipient amount fee).draft fresh w)) = some tx ↔ _
    rw [Option.ite_none_left_eq_some, Option.ite_none_left_eq_some, Option.some_inj, not_lt, not_lt,
      ← and_assoc, Funded, eq_comm]
  | stake amount lockEpochs =>
    change (if amount < DUST_THRESHOLD then none
      else if (stake amount lockEpochs).total w < amount + (stake amount lockEpochs).feeOf w
        then none else some ((stake amount lockEpochs).draft fresh w)) = some tx ↔ _
    rw [Option.ite_none_left_eq_some, Option.ite_none_left_eq_some, Option.some_inj, not_lt, not_lt,
      ← and_assoc, Funded, eq_comm]
  | unstake =>
    change (if w.matureStakes.isEmpty then none else some (unstake.draft fresh w)) = some tx ↔ _
    rw [Option.ite_none_left_eq_some, Option.some_inj, List.isEmpty_iff, Funded,
      eq_comm (b := tx)]
  | data bytes fee =>
    change (if bytes.length > 1000 then none
      else if (data bytes fee).total w < (data bytes fee).feeOf w
        then none else some ((data bytes fee).draft fresh w)) = some tx ↔ _
    rw [Option.ite_none_left_eq_some, Option.ite_none_left_eq_some, Option.some_inj, not_lt, not_lt,
      ← and_assoc, Funded, eq_comm]

variable [SeedSpace S]

def create (fresh : Fresh) : Spending → Stateful (Wallet S) (Option Transaction)
  | transfer recipient amount fee => createTransfer fresh recipient amount fee
  | stake amount lockEpochs => createStake fresh amount lockEpochs
  | unstake => createUnstake fresh
  | data bytes fee => createDataTx fresh bytes fee

theorem create_apply (fresh : Fresh) (w : Wallet S) (p : Spending) :
    p.create fresh w = signBuilt (p.unsigned fresh w) w := by
  cases p <;> rfl

end Spending

theorem snd_onKeys {α : Type} (x : Stateful (KeyManager S) α) (w : Wallet S) :
    (onKeys x w).2 = { w with keyManager := (x w.keyManager).2 } := rfl

section

variable [SeedSpace S]

def signInput (hashData : Bytes) (w : Wallet S) : TxInput → Stateful (KeyManager S) TxInput :=
  if w.keyManager.isRegistered then signInputTemporal (.transaction hashData)
  else signInputLegacy (.transaction hashData) w.currentEpoch

theorem ref_of_signInput {hashData : Bytes} {w : Wallet S} {inp inp' : TxInput}
    {k : KeyManager S} (h : (signInput hashData w inp k).1 = .ok inp') : inp'.ref = inp.ref := by
  unfold signInput at h
  split_ifs at h with hregistered
  · obtain ⟨s, -, hs⟩ := bind_eq_ok.mp h
    obtain rfl := Except.ok.inj hs
    rfl
  · obtain ⟨ref, -, href⟩ := bind_eq_ok.mp h
    obtain ⟨publicKey, -, hkey⟩ := bind_eq_ok.mp href
    obtain ⟨signature, -, hs⟩ := bind_eq_ok.mp hkey
    obtain rfl := Except.ok.inj hs
    rfl

theorem refs_of_signInputs {hashData : Bytes} {w : Wallet S} {inputs inputs' : List TxInput}
    {k : KeyManager S} (h : (forEach (signInput hashData w) inputs k).1 = .ok inputs') :
    inputs'.map TxInput.ref = inputs.map TxInput.ref := by
  have hsigned : List.Forall₂ (fun inp inp' => inp'.ref = inp.ref) inputs inputs' :=
    Preserves.forall₂_forEach (I := fun _ => True) (f := signInput hashData w)
      (fun _ _ _ => trivial) (fun _ _ _ _ hinp => ref_of_signInput hinp) trivial h
  clear h
  induction hsigned with
  | nil => rfl
  | cons hinp _ ih => rw [List.map_cons, List.map_cons, hinp, ih]

/-- A draft is returned when its hash can be taken, with its inputs signed one after the other. -/
theorem signBuilt_eq_ok {built : Transaction} {w : Wallet S} {signed : Transaction} :
    (signBuilt (some built) w).1 = .ok (some signed) ↔
    ∃ hashData inputs, built.hashData = .ok hashData ∧
      (forEach (signInput hashData w) built.inputs w.keyManager).1 = .ok inputs ∧
      signed = { built with inputs := inputs } := by
  constructor
  · intro h
    obtain ⟨signed', hsigned, hsame⟩ := bind_eq_ok.mp h
    obtain rfl := Option.some.inj (Except.ok.inj hsame)
    obtain ⟨hashData, hdata, hrest⟩ := bind_eq_ok.mp hsigned
    obtain ⟨registered, hregistered, hrest⟩ := bind_eq_ok.mp hrest
    obtain ⟨epoch, hepoch, hrest⟩ := bind_eq_ok.mp hrest
    obtain rfl := Except.ok.inj hregistered
    obtain rfl := Except.ok.inj hepoch
    obtain ⟨inputs, hinputs, hlast⟩ := bind_eq_ok.mp hrest
    obtain rfl := Except.ok.inj hlast
    exact ⟨hashData, inputs, hdata, hinputs, rfl⟩
  · rintro ⟨hashData, inputs, hdata, hinputs, rfl⟩
    refine bind_eq_ok.mpr ⟨_, bind_eq_ok.mpr ⟨hashData, hdata, ?_⟩, rfl⟩
    exact bind_eq_ok.mpr ⟨_, rfl, bind_eq_ok.mpr ⟨_, rfl, bind_eq_ok.mpr ⟨inputs, hinputs, rfl⟩⟩⟩

theorem Spending.create_eq_ok {p : Spending} {fresh : Fresh} {w : Wallet S} {tx : Transaction} :
    (p.create fresh w).1 = .ok (some tx) ↔
    p.Funded w ∧ ∃ hashData inputs, (p.draft fresh w).hashData = .ok hashData ∧
      (forEach (signInput hashData w) (p.draft fresh w).inputs w.keyManager).1 = .ok inputs ∧
      tx = { p.draft fresh w with inputs := inputs } := by
  rw [Spending.create_apply]
  cases hbuilt : p.unsigned fresh w with
  | none =>
    refine iff_of_false (fun h => by cases h) ?_
    rintro ⟨hfunded, -⟩
    cases hbuilt.symm.trans (Spending.unsigned_eq_some.mpr ⟨hfunded, rfl⟩)
  | some built =>
    obtain ⟨hfunded, rfl⟩ := Spending.unsigned_eq_some.mp hbuilt
    rw [signBuilt_eq_ok]
    exact ⟨fun h => ⟨hfunded, h⟩, fun h => h.2⟩

/-- All builders of a wallet. -/
inductive Builder where
  | spending (p : Spending)
  | registration (fee : Option ℤ)
  | rotation (fee : Option ℤ)

namespace Builder

def create (fresh : Fresh) : Builder → Stateful (Wallet S) (Option Transaction)
  | spending p => p.create fresh
  | registration fee => createRegistrationTx fresh fee
  | rotation fee => createRotationTx fresh fee

end Builder

end

def Builder.feeOf (w : Wallet S) : Builder → ℤ
  | spending p => p.feeOf w
  | registration fee => w.registrationFee fee
  | rotation fee => w.rotationFee fee

end Wallet

end Qrtb
