import Qrtb.Wallet.InputSigning

/-!
# What the fee estimate covers

The builders estimate the fee for one input and two outputs, the unstaking one for
the inputs it has. A returned transaction has as many inputs as outputs were
picked, each of a fixed size, so whether it passes the structure check is decided
by that number, the length of the data and what is left for the last output.
-/

namespace Qrtb

open Stateful SeedSpace

namespace Wallet

namespace Spending

variable {S : Type}

/-- The caller leaves the fee to the builder. -/
def Estimated : Spending → Prop
  | transfer _ _ fee => fee = none
  | stake _ _ => True
  | unstake => True
  | data _ fee => fee = none

/-- What remains of the picked outputs; unstaking pays all of it out. -/
def change (w : Wallet S) (p : Spending) : ℤ :=
  match p with
  | transfer _ amount _ => p.total w - amount - p.feeOf w
  | stake amount _ => p.total w - amount - p.feeOf w
  | unstake => 0
  | data _ _ => p.total w - p.feeOf w

def dataLength : Spending → ℕ
  | data bytes _ => bytes.length
  | _ => 0

/-- The size of the signed transaction: a header, the inputs, one output or two, and the data. -/
def size (w : Wallet S) (p : Spending) : ℕ :=
  36 + (p.picked w).length * w.signedSize + (if DUST_THRESHOLD ≤ p.change w then 164 else 82) +
    p.dataLength

/-- The estimate covers the transaction, and for unstaking nothing small is left over. -/
def Fits (w : Wallet S) (p : Spending) : Prop :=
  match p with
  | unstake => (p.picked w).length ≤ 15 ∧
      (p.total w = p.feeOf w ∨ DUST_THRESHOLD ≤ p.total w - p.feeOf w)
  | _ => p.size w ≤ MAX_TX_SIZE ∧ p.size w ≤ 4858 * w.config.feeRate

instance (w : Wallet S) (p : Spending) : Decidable (p.Fits w) :=
  match p with
  | transfer _ _ _ => inferInstanceAs (Decidable (_ ∧ _))
  | stake _ _ => inferInstanceAs (Decidable (_ ∧ _))
  | unstake => inferInstanceAs (Decidable (_ ∧ _))
  | data _ _ => inferInstanceAs (Decidable (_ ∧ _))

theorem size_cons_changeOutputs (out : TxOutput) (change : ℤ) (w : Wallet S) :
    ((out :: w.changeOutputs change).map TxOutput.size).sum =
      (if DUST_THRESHOLD ≤ change then 164 else 82) + out.data.length := by
  unfold changeOutputs
  split_ifs
  · simp only [List.map_cons, List.map_nil, List.sum_cons, List.sum_nil, TxOutput.size,
      List.length_nil]
    omega
  · simp only [List.map_cons, List.map_nil, List.sum_cons, List.sum_nil, TxOutput.size]
    omega

theorem size_outputs (w : Wallet S) (p : Spending) :
    ((p.outputs w).map TxOutput.size).sum =
      (if DUST_THRESHOLD ≤ p.change w then 164 else 82) + p.dataLength := by
  cases p with
  | transfer recipient amount fee => exact size_cons_changeOutputs _ _ w
  | stake amount lockEpochs => exact size_cons_changeOutputs _ _ w
  | unstake => rfl
  | data bytes fee => exact size_cons_changeOutputs _ _ w

end Spending

variable {w : Wallet Bytes}

theorem sum_size_signed {hashData : Bytes} {us : List Utxo} {inputs : List TxInput}
    {k : KeyManager Bytes} (hk : w.Signs k)
    (h : (forEach (signInput hashData w) (us.map unsignedInput) k).1 = .ok inputs) :
    inputs.length = us.length ∧ (inputs.map TxInput.size).sum = us.length * w.signedSize := by
  have hsigned : List.Forall₂ (fun inp inp' => inp.authProof = none → inp'.size = w.signedSize)
      (us.map unsignedInput) inputs :=
    Preserves.forall₂_forEach (f := signInput hashData w) (preserves_signs hashData)
      (fun _ _ _ hs hinp hnone => size_of_signInput hs hnone hinp) hk h
  clear h
  induction us generalizing inputs with
  | nil =>
    cases hsigned
    exact ⟨rfl, by simp⟩
  | cons u us ih =>
    cases hsigned with
    | cons hu hrest =>
      obtain ⟨hlength, hsum⟩ := ih hrest
      refine ⟨by rw [List.length_cons, List.length_cons, hlength], ?_⟩
      rw [List.map_cons, List.sum_cons, hsum, hu rfl, List.length_cons, Nat.succ_mul, Nat.add_comm]

/-- What is known of a returned transaction without looking at its signatures. -/
structure Spending.Shape (w : Wallet Bytes) (p : Spending) (tx : Transaction) : Prop where
  funded : p.Funded w
  version : tx.version = TX_VERSION
  txType : tx.txType = p.txType
  inputs : tx.inputs.length = (p.picked w).length
  outputs : tx.outputs = p.outputs w
  size : tx.size = p.size w
  fee : tx.fee = p.feeOf w

theorem Spending.shape_of_create {p : Spending} {fresh : Fresh} {tx : Transaction}
    (hk : w.Signs w.keyManager) (h : (p.create fresh w).1 = .ok (some tx)) : p.Shape w tx := by
  obtain ⟨hfunded, hashData, inputs, -, hinputs, rfl⟩ := Spending.create_eq_ok.mp h
  obtain ⟨hlength, hsum⟩ := sum_size_signed hk hinputs
  refine ⟨hfunded, rfl, rfl, hlength, rfl, ?_, rfl⟩
  have houtputs := p.size_outputs w
  simp only [Transaction.size, draft, newTx, hsum, houtputs, Spending.size]
  omega

namespace Spending

variable {p : Spending} {tx : Transaction}

theorem feeOf_estimated (hp : p.Estimated) (hunstake : p ≠ unstake) :
    p.feeOf w = 4858 * w.config.feeRate := by
  cases p with
  | transfer recipient amount fee =>
    obtain rfl := hp
    rfl
  | stake amount lockEpochs => rfl
  | unstake => exact absurd rfl hunstake
  | data bytes fee =>
    obtain rfl := hp
    rfl

theorem length_outputs (w : Wallet Bytes) (p : Spending) :
    (p.outputs w).length = 1 ∨ (p.outputs w).length = 2 := by
  cases p with
  | unstake => exact Or.inl rfl
  | transfer _ _ _ | stake _ _ | data _ _ =>
    simp only [outputs, changeOutputs]
    split_ifs
    · exact Or.inr rfl
    · exact Or.inl rfl

theorem noDust_outputs (h : p.Funded w) :
    (∀ out ∈ p.outputs w, DUST_THRESHOLD ≤ out.value ∨ out.value = 0) ↔
      (p = unstake → p.total w = p.feeOf w ∨ DUST_THRESHOLD ≤ p.total w - p.feeOf w) := by
  have hchange : ∀ change, ∀ out ∈ w.changeOutputs change,
      DUST_THRESHOLD ≤ out.value ∨ out.value = 0 := by
    intro change out hout
    unfold changeOutputs at hout
    split_ifs at hout with hkeep
    · obtain rfl := List.mem_singleton.mp hout
      exact Or.inl hkeep
    · cases hout
  cases p with
  | transfer recipient amount fee =>
    exact iff_of_true (List.forall_mem_cons.mpr ⟨Or.inl h.1, hchange _⟩) (fun hp => by cases hp)
  | stake amount lockEpochs =>
    exact iff_of_true (List.forall_mem_cons.mpr ⟨Or.inl h.1, hchange _⟩) (fun hp => by cases hp)
  | unstake =>
    simp only [outputs, List.mem_singleton, forall_eq, true_imp_iff]
    omega
  | data bytes fee =>
    exact iff_of_true (List.forall_mem_cons.mpr ⟨Or.inr rfl, hchange _⟩) (fun hp => by cases hp)

theorem picked_ne_nil (hrate : MIN_FEE_PER_BYTE ≤ w.config.feeRate) (hp : p.Estimated)
    (h : p.Funded w) : p.picked w ≠ [] := by
  have hmin : MIN_FEE_PER_BYTE = 1 := rfl
  have hdust : DUST_THRESHOLD = 546 := rfl
  by_cases hunstake : p = unstake
  · subst hunstake
    exact h
  · intro hnil
    have htotal := p.total_eq_sum w
    have hfee := feeOf_estimated (w := w) hp hunstake
    rw [hnil, List.map_nil, List.sum_nil] at htotal
    cases p with
    | unstake => exact hunstake rfl
    | transfer _ _ _ | stake _ _ | data _ _ =>
      have hfunds := h.2
      have henough := h.1
      omega

theorem mul_signedSize (w : Wallet Bytes) (n : ℕ) :
    4328 * n ≤ n * w.signedSize ∧ n * w.signedSize ≤ 4348 * n := by
  unfold signedSize
  split_ifs <;> omega

theorem size_le_feeOf_unstake (hrate : MIN_FEE_PER_BYTE ≤ w.config.feeRate) :
    (unstake.size w : ℤ) ≤ unstake.feeOf w := by
  have hbytes := (mul_signedSize w w.matureStakes.length).2
  have hsize : unstake.size w = 36 + w.matureStakes.length * w.signedSize + 82 + 0 := rfl
  have hfee : unstake.feeOf w =
      (50 + w.matureStakes.length * inputSize + ((1 : ℕ) : ℤ) * 80) * w.config.feeRate := rfl
  have hinput : inputSize = 4648 := rfl
  have hmin : MIN_FEE_PER_BYTE = 1 := rfl
  rw [hfee, hinput]
  have hestimate : (50 + (w.matureStakes.length : ℤ) * 4648 + ((1 : ℕ) : ℤ) * 80) ≤
      (50 + (w.matureStakes.length : ℤ) * 4648 + ((1 : ℕ) : ℤ) * 80) * w.config.feeRate :=
    le_mul_of_one_le_right (by positivity) (by omega)
  omega

/-- What fits is not too large, its fee covers its bytes and nothing in it is dust; this is all that
the estimate can miss. -/
theorem fits_iff (hrate : MIN_FEE_PER_BYTE ≤ w.config.feeRate) (hp : p.Estimated) :
    p.Fits w ↔ p.size w ≤ MAX_TX_SIZE ∧ (p.size w : ℤ) ≤ p.feeOf w ∧
      (p = unstake → p.total w = p.feeOf w ∨ DUST_THRESHOLD ≤ p.total w - p.feeOf w) := by
  by_cases hunstake : p = unstake
  · subst hunstake
    have hmax : MAX_TX_SIZE = 65536 := rfl
    have hbytes := mul_signedSize w (unstake.picked w).length
    have hsize : unstake.size w = 36 + (unstake.picked w).length * w.signedSize + 82 + 0 := rfl
    have hcount : (unstake.picked w).length ≤ 15 ↔ unstake.size w ≤ MAX_TX_SIZE := by omega
    simp only [Fits, hcount, size_le_feeOf_unstake hrate, true_imp_iff, true_and]
  · have hfee := feeOf_estimated (w := w) hp hunstake
    cases p with
    | unstake => exact absurd rfl hunstake
    | transfer _ _ _ | stake _ _ | data _ _ =>
      rw [hfee]
      exact and_congr_right fun _ => (and_iff_left fun h => absurd h hunstake).symm

/-- A returned transaction with an estimated fee passes exactly when it fits. -/
theorem wellFormed_iff (hrate : MIN_FEE_PER_BYTE ≤ w.config.feeRate) (hp : p.Estimated)
    (h : p.Shape w tx) : tx.WellFormed ↔ p.Fits w := by
  have hmin : MIN_FEE_PER_BYTE = 1 := rfl
  have hdust := noDust_outputs h.funded
  have hcoinbase : tx.txType ≠ .coinbase := by
    rw [h.txType]
    cases p <;> simp [Spending.txType]
  rw [fits_iff hrate hp, ← hdust, ← h.outputs, ← h.size, ← h.fee]
  constructor
  · intro hvalid
    have hpaid := hvalid.minFee hcoinbase
    rw [hmin, mul_one] at hpaid
    exact ⟨hvalid.maxSize, hpaid, hvalid.noDust⟩
  · rintro ⟨hsmall, hpaid, hclean⟩
    have houtputs := length_outputs w p
    rw [← h.outputs] at houtputs
    have hpicked := List.length_pos_of_ne_nil (picked_ne_nil hrate hp h.funded)
    rw [← h.inputs] at hpicked
    refine ⟨h.version, fun _ => List.ne_nil_of_length_pos hpicked, ?_,
      List.ne_nil_of_length_pos (by omega), ?_, hsmall, hclean, fun _ => ?_⟩
    · -- sixteen signed inputs would be too large already
      have hinputs : MAX_INPUTS = 16 := rfl
      have hmax : MAX_TX_SIZE = 65536 := rfl
      have hbytes := mul_signedSize w (p.picked w).length
      have hsize : 36 + (p.picked w).length * w.signedSize ≤ p.size w := by
        unfold Spending.size
        split_ifs <;> omega
      rw [← h.size] at hsize
      rw [h.inputs]
      omega
    · have hoc : MAX_OUTPUTS = 16 := rfl
      omega
    · rw [hmin, mul_one]
      exact hpaid

end Spending

/-- A transaction with an estimated fee is well formed exactly when the estimate covers it and,
for unstaking, the payout is no dust. -/
theorem estimated_valid_iff (config : WalletConfig) (seed : Bytes) (calls : List Call)
    (hw : w = after apply calls (init config seed)) (hrate : MIN_FEE_PER_BYTE ≤ w.config.feeRate)
    {p : Spending} (hp : p.Estimated) {fresh : Fresh} {tx : Transaction}
    (h : (p.create fresh w).1 = .ok (some tx)) :
    tx.isValidStructure = .ok () ↔ p.Fits w := by
  rw [Transaction.isValidStructure_eq_ok]
  exact Spending.wellFormed_iff hrate hp (Spending.shape_of_create (signs_after config seed calls hw) h)

/-- A registered wallet at the lowest fee rate, with an output of each of these values. -/
def thriftyCalls (values : List ℤ) : List Call := .keys .markRegistered :: coins values

def thriftyWallet (values : List ℤ) : Wallet Bytes :=
  after apply (thriftyCalls values) (init { feeRate := 1 } KeyManager.exampleSeed)

def smallTransfer : Spending := .transfer (List.replicate 64 2) 1000 none

theorem signs_thriftyWallet (values : List ℤ) :
    (thriftyWallet values).Signs (thriftyWallet values).keyManager :=
  signs_after { feeRate := 1 } _ (thriftyCalls values) rfl

theorem smallTransfer_valid : ∃ tx,
    (smallTransfer.create ⟨1000, List.replicate 8 0⟩ (thriftyWallet [10000])).1 = .ok (some tx) ∧
      tx.isValidStructure = .ok () := by
  have hfunded : smallTransfer.Funded (thriftyWallet [10000]) := by decide +kernel
  have hpackable : (smallTransfer.draft ⟨1000, List.replicate 8 0⟩ (thriftyWallet [10000])).Packable :=
    by decide +kernel
  obtain ⟨tx, htx⟩ := Spending.create_returns (signs_thriftyWallet [10000]) rfl hfunded hpackable
    (by decide +kernel)
  have hestimated : smallTransfer.Estimated := rfl
  refine ⟨tx, htx, (estimated_valid_iff { feeRate := 1 } _ (thriftyCalls [10000]) rfl (by decide)
    hestimated htx).mpr ?_⟩
  decide +kernel

/-- With two outputs of 3000 the fee is 4858 and the size 8814. -/
theorem smallTransfer_feeTooLow : ∃ tx,
    (smallTransfer.create ⟨1000, List.replicate 8 0⟩ (thriftyWallet [3000, 3000])).1 =
      .ok (some tx) ∧
    tx.fee = 4858 ∧ tx.size = 8814 ∧ tx.isValidStructure ≠ .ok () := by
  have hfunded : smallTransfer.Funded (thriftyWallet [3000, 3000]) := by decide +kernel
  have hpackable :
      (smallTransfer.draft ⟨1000, List.replicate 8 0⟩ (thriftyWallet [3000, 3000])).Packable := by
    decide +kernel
  obtain ⟨tx, htx⟩ := Spending.create_returns (signs_thriftyWallet [3000, 3000]) rfl hfunded
    hpackable (by decide +kernel)
  have hshape := Spending.shape_of_create (signs_thriftyWallet [3000, 3000]) htx
  have hfee : tx.fee = 4858 := hshape.fee.trans (by decide +kernel)
  have hsize : tx.size = 8814 := hshape.size.trans (by decide +kernel)
  refine ⟨tx, htx, hfee, hsize, ?_⟩
  rw [ne_eq, Transaction.isValidStructure_eq_ok]
  intro hvalid
  have hpaid := hvalid.minFee (by rw [hshape.txType]; decide)
  rw [hsize, hfee] at hpaid
  exact absurd hpaid (by decide)

end Wallet

end Qrtb
