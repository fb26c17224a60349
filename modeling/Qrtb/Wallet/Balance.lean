import Qrtb.Wallet.Builders

/-!
# What the builders spend and pay

A builder balances when the outputs it references pay for its outputs and its fee
and nothing of the size of an output is left over. The four builders that spend
what they pick do. Registrations and rotations count all picked outputs in the
change and spend the first, so they balance exactly when one output was enough.
-/

namespace Qrtb

open Stateful SeedSpace

namespace Wallet

variable {S : Type}

/-- The value of an output of the wallet, zero where it has none. -/
def valueAt (w : Wallet S) (ref : OutRef) : ℤ :=
  ((w.utxos.get? ref).map fun u => u.output.value).getD 0

/-- What the inputs of a transaction are worth to the wallet. -/
def spentValue (w : Wallet S) (tx : Transaction) : ℤ := (tx.refs.map w.valueAt).sum

/-- Outputs and fee are paid for, and less than an output is left over. -/
def Balanced (w : Wallet S) (tx : Transaction) : Prop :=
  0 ≤ w.spentValue tx - tx.totalOutput - tx.fee ∧
    w.spentValue tx - tx.totalOutput - tx.fee < DUST_THRESHOLD

theorem Keyed.valueAt_ref {w : Wallet S} (h : w.Keyed) {u : Utxo} (hu : u ∈ w.utxos.values) :
    w.valueAt u.ref = u.output.value := by
  obtain ⟨key, hget⟩ := (OrderedDict.mem_values_iff _ _).mp hu
  rw [valueAt, h key u hget, hget]
  rfl

theorem Keyed.sum_valueAt {w : Wallet S} (h : w.Keyed) {us : List Utxo}
    (hus : ∀ u ∈ us, u ∈ w.utxos.values) :
    ((us.map Utxo.ref).map w.valueAt).sum = (us.map fun u => u.output.value).sum := by
  rw [List.map_map]
  congr 1
  apply List.map_congr_left
  intro u hu
  exact h.valueAt_ref (hus u hu)

theorem leftover_changeOutputs {total paid fee change : ℤ} (w : Wallet S)
    (hchange : change = total - paid - fee) (h : 0 ≤ change) :
    0 ≤ total - (paid + ((w.changeOutputs change).map TxOutput.value).sum) - fee ∧
      total - (paid + ((w.changeOutputs change).map TxOutput.value).sum) - fee <
        DUST_THRESHOLD := by
  have hdust : DUST_THRESHOLD = 546 := rfl
  unfold changeOutputs
  split_ifs with hkeep
  · simp only [List.map_cons, List.map_nil, List.sum_cons, List.sum_nil]
    omega
  · simp only [List.map_nil, List.sum_nil]
    omega

theorem sum_changeOutputs_nonneg (change : ℤ) (w : Wallet S) :
    0 ≤ ((w.changeOutputs change).map TxOutput.value).sum := by
  have hdust : DUST_THRESHOLD = 546 := rfl
  unfold changeOutputs
  split_ifs with hkeep
  · simp only [List.map_cons, List.map_nil, List.sum_cons, List.sum_nil]
    omega
  · exact le_rfl

theorem Spending.picked_subset (w : Wallet S) (p : Spending) :
    ∀ u ∈ p.picked w, u ∈ w.utxos.values := by
  intro u hu
  cases p with
  | transfer recipient amount fee => exact mem_utxos_of_spendable (spendable_of_selected hu)
  | stake amount lockEpochs => exact mem_utxos_of_spendable (spendable_of_selected hu)
  | unstake => exact List.mem_of_mem_filter hu
  | data bytes fee => exact mem_utxos_of_spendable (spendable_of_selected hu)

theorem Spending.leftover {w : Wallet S} {p : Spending} (h : p.Funded w) :
    0 ≤ p.total w - ((p.outputs w).map TxOutput.value).sum - p.feeOf w ∧
      p.total w - ((p.outputs w).map TxOutput.value).sum - p.feeOf w < DUST_THRESHOLD := by
  cases p with
  | transfer recipient amount fee =>
    have hfunds := h.2
    exact leftover_changeOutputs w rfl (by omega)
  | stake amount lockEpochs =>
    have hfunds := h.2
    exact leftover_changeOutputs w rfl (by omega)
  | unstake =>
    have hdust : DUST_THRESHOLD = 546 := rfl
    simp only [outputs, List.map_cons, List.map_nil, List.sum_cons, List.sum_nil]
    omega
  | data bytes fee =>
    have hfunds := h.2
    exact leftover_changeOutputs w (by rw [sub_zero]) (by omega)

theorem Spending.balanced [SeedSpace S] {w : Wallet S} (hw : w.Keyed) {p : Spending} {fresh : Fresh}
    {tx : Transaction} (h : (p.create fresh w).1 = .ok (some tx)) :
    tx.fee = p.feeOf w ∧ w.Balanced tx := by
  obtain ⟨hfunded, hashData, inputs, -, hinputs, rfl⟩ := Spending.create_eq_ok.mp h
  have hrefs : inputs.map TxInput.ref = (p.picked w).map Utxo.ref := by
    rw [refs_of_signInputs hinputs, draft, newTx, List.map_map]
    rfl
  have hspent : w.spentValue { p.draft fresh w with inputs := inputs } = p.total w := by
    rw [spentValue, Transaction.refs, hrefs, hw.sum_valueAt (p.picked_subset w), p.total_eq_sum]
  refine ⟨rfl, ?_⟩
  rw [Balanced, hspent]
  exact p.leftover hfunded

/-- A transaction that spends the first of the picked outputs and pays back the change of all. -/
structure Announces (w : Wallet S) (fee : ℤ) (tx : Transaction) : Prop where
  enough : fee ≤ (w.selectUtxos 0 fee).2
  first : ∃ u, (w.selectUtxos 0 fee).1.head? = some u ∧ tx.refs = [u.ref]
  outputs : tx.totalOutput =
    ((w.changeOutputs ((w.selectUtxos 0 fee).2 - fee)).map TxOutput.value).sum
  fee_eq : tx.fee = fee

theorem announceTx_eq_ok {txType : TxType} {fresh : Fresh} {data : Bytes} {fee : ℤ} {w : Wallet S}
    {tx : Transaction} (h : w.announceTx txType fresh data fee = .ok (some tx)) :
    w.Announces fee tx := by
  unfold announceTx at h
  simp only at h
  split_ifs at h with henough
  · cases h
  split at h
  next hnone => cases h
  next u rest hpicked =>
    obtain rfl := Option.some.inj (Except.ok.inj h)
    refine ⟨not_lt.mp henough, ⟨u, by rw [hpicked]; rfl, rfl⟩, ?_, rfl⟩
    simp only [Transaction.totalOutput, newTx, List.map_cons, List.sum_cons, zero_add]

/-- Such a transaction balances exactly when the largest output covers the fee by itself. -/
theorem Announces.balanced_iff {w : Wallet S} (hw : w.Keyed) {fee : ℤ} {tx : Transaction}
    (h : w.Announces fee tx) :
    w.Balanced tx ↔ ∃ u ∈ w.getSpendableUtxos, fee ≤ u.output.value := by
  obtain ⟨u, hfirst, hrefs⟩ := h.first
  obtain ⟨picked, hpicked⟩ := List.head?_eq_some_iff.mp hfirst
  have hmem : u ∈ (w.selectUtxos 0 fee).1 := by rw [hpicked]; exact List.mem_cons_self
  have hu : u ∈ w.getSpendableUtxos := spendable_of_selected hmem
  have hspent : w.spentValue tx = u.output.value := by
    rw [spentValue, hrefs, List.map_singleton, List.sum_singleton,
      hw.valueAt_ref (mem_utxos_of_spendable hu)]
  rw [Balanced, hspent, h.outputs, h.fee_eq]
  have hnonneg := sum_changeOutputs_nonneg ((w.selectUtxos 0 fee).2 - fee) w
  constructor
  · intro hbalanced
    exact ⟨u, hu, by omega⟩
  · rintro ⟨v, hv, hcovers⟩
    obtain ⟨rest, hrest⟩ := selectUtxos_isPrefix 0 fee w
    have hdescending : w.descending = u :: (picked ++ rest) := by rw [← hrest, hpicked]; rfl
    have hlargest : v.output.value ≤ u.output.value := by
      have hv' := w.perm_descending.mem_iff.mpr hv
      have hsorted := w.pairwise_descending
      rw [hdescending] at hv' hsorted
      rcases List.mem_cons.mp hv' with rfl | hv'
      · exact le_rfl
      · exact (List.pairwise_cons.mp hsorted).1 v hv'
    have htotal : (w.selectUtxos 0 fee).2 = u.output.value := by
      rw [selectUtxos_eq_takeUntil, hdescending, Greedy.takeUntil_cons_of_le (by omega), zero_add]
    have henough := h.enough
    rw [htotal] at henough ⊢
    have hchange : u.output.value - fee = u.output.value - 0 - fee := by rw [sub_zero]
    have hleft := leftover_changeOutputs w hchange (sub_nonneg.mpr henough)
    rwa [zero_add] at hleft

theorem Announces.mapInputs {w : Wallet S} {fee : ℤ} {tx : Transaction} (h : w.Announces fee tx)
    {f : TxInput → TxInput} (hf : ∀ inp, (f inp).ref = inp.ref) :
    w.Announces fee { tx with inputs := tx.inputs.map f } := by
  have hrefs : { tx with inputs := tx.inputs.map f }.refs = tx.refs := by
    simp only [Transaction.refs, List.map_map]
    exact List.map_congr_left fun inp _ => hf inp
  refine ⟨h.enough, ?_, h.outputs, h.fee_eq⟩
  rw [hrefs]
  exact h.first

theorem Announces.of_keyManager {w : Wallet S} {k : KeyManager S} {fee : ℤ} {tx : Transaction}
    (h : Announces { w with keyManager := k } fee tx) : w.Announces fee tx := by
  refine ⟨h.enough, h.first, ?_, h.fee_eq⟩
  have hselected : selectUtxos 0 fee { w with keyManager := k } = w.selectUtxos 0 fee := rfl
  rw [h.outputs, hselected]
  unfold changeOutputs
  split_ifs <;> rfl

variable [SeedSpace S]

theorem registrationTx_eq_ok {fresh : Fresh} {fee : Option ℤ} {w : Wallet S} {tx : Transaction}
    (h : w.registrationTx fresh fee = .ok (some tx)) : w.Announces (w.registrationFee fee) tx := by
  unfold registrationTx at h
  split_ifs at h
  · cases h
  · cases h
  · obtain ⟨root, -, h⟩ := Except.bind_eq_ok.mp h
    obtain ⟨announced, hannounced, h⟩ := Except.bind_eq_ok.mp h
    obtain ⟨first, rfl, rfl⟩ := Option.map_eq_some_iff.mp (Except.ok.inj h)
    exact (announceTx_eq_ok hannounced).mapInputs fun _ => rfl

theorem registration_announces {fresh : Fresh} {fee : Option ℤ} {w : Wallet S} {tx : Transaction}
    (h : (createRegistrationTx fresh fee w).1 = .ok (some tx)) :
    w.Announces (w.registrationFee fee) tx := by
  obtain ⟨built, hbuilt, hrest⟩ := bind_eq_ok.mp h
  obtain ⟨drafted, hdrafted, hrest⟩ := bind_eq_ok.mp hrest
  obtain rfl := Except.ok.inj hbuilt
  cases drafted with
  | none => cases hrest
  | some draft =>
    obtain ⟨signed, hsigned, hlast⟩ := bind_eq_ok.mp hrest
    obtain rfl := Option.some.inj (Except.ok.inj hlast)
    obtain ⟨hashData, -, hsigned⟩ := bind_eq_ok.mp hsigned
    obtain ⟨privateKey, -, hsigned⟩ := bind_eq_ok.mp hsigned
    obtain ⟨_, -, hsigned⟩ := bind_eq_ok.mp hsigned
    obtain rfl := Except.ok.inj hsigned
    exact (registrationTx_eq_ok hdrafted).mapInputs fun _ => rfl

theorem rotation_announces {fresh : Fresh} {fee : Option ℤ} {w : Wallet S} {tx : Transaction}
    (h : (createRotationTx fresh fee w).1 = .ok (some tx)) :
    w.Announces (w.rotationFee fee) tx := by
  rw [createRotationTx, reads_bind] at h
  split_ifs at h
  · cases h
  · obtain ⟨root, -, h⟩ := bind_eq_ok.mp h
    rw [snd_onKeys] at h
    generalize (KeyManager.prepareRotation w.keyManager).2 = k at h
    obtain ⟨built, hbuilt, h⟩ := bind_eq_ok.mp h
    obtain ⟨announced, hannounced, h⟩ := bind_eq_ok.mp h
    obtain rfl := Except.ok.inj hbuilt
    cases announced with
    | none => cases h
    | some draft =>
      have hdraft : w.Announces (w.rotationFee fee) draft :=
        (announceTx_eq_ok hannounced).of_keyManager
      refine Ensures.bind (R := fun r => ∀ t, r = some t → w.Announces (w.rotationFee fee) t)
        (fun hashData => Ensures.bind fun s => Ensures.bind fun field => ?_) _ _ h tx rfl
      apply ensures_pure
      rintro _ ⟨⟩
      exact hdraft.mapInputs fun _ => rfl

/-- One output alone covers the fee, where only one is spent. -/
def Builder.OneCovers (w : Wallet S) : Builder → Prop
  | .spending _ => True
  | .registration fee => ∃ u ∈ w.getSpendableUtxos, w.registrationFee fee ≤ u.output.value
  | .rotation fee => ∃ u ∈ w.getSpendableUtxos, w.rotationFee fee ≤ u.output.value

/-- What a builder returns carries its fee, and balances exactly when one output covers the fee of a
registration or rotation. -/
theorem builder_balanced_iff (config : WalletConfig) (masterSeed : S) (calls : List Call) {w : Wallet S}
    (hw : w = after apply calls (init config masterSeed)) {b : Builder} {fresh : Fresh}
    {tx : Transaction} (h : (b.create fresh w).1 = .ok (some tx)) :
    tx.fee = b.feeOf w ∧ (w.Balanced tx ↔ b.OneCovers w) := by
  have hkeyed : w.Keyed := by
    rw [hw]
    exact keyed_after config masterSeed calls
  cases b with
  | spending p =>
    obtain ⟨hfee, hbalanced⟩ := p.balanced hkeyed h
    exact ⟨hfee, iff_of_true hbalanced trivial⟩
  | registration fee =>
    have hannounces := registration_announces h
    exact ⟨hannounces.fee_eq, hannounces.balanced_iff hkeyed⟩
  | rotation fee =>
    have hannounces := rotation_announces h
    exact ⟨hannounces.fee_eq, hannounces.balanced_iff hkeyed⟩

theorem createRegistrationTx_returns {fresh : Fresh} {fee : Option ℤ} {w : Wallet S}
    {tx : Transaction} (h : w.registrationTx fresh fee = .ok (some tx)) (hpackable : tx.Packable) :
    ∃ signed, (createRegistrationTx fresh fee w).1 = .ok (some signed) := by
  obtain ⟨hashData, hdata⟩ := tx.hashData_returns.mpr hpackable
  have hsigned : ∃ signed, (signRegistration tx w).1 = .ok signed := by
    rw [signRegistration, hdata]
    exact ⟨_, rfl⟩
  obtain ⟨signed, hsigned⟩ := hsigned
  rw [createRegistrationTx, reads_bind, h, ofExcept_ok_bind]
  exact ⟨signed, bind_eq_ok.mpr ⟨signed, hsigned, rfl⟩⟩

/-- A new wallet with an output of each of these values. -/
def walletOf (values : List ℤ) : Wallet Bytes :=
  after apply (coins values) (init {} KeyManager.exampleSeed)

/-- The registration of such a wallet, with this change. -/
def registrationOf (values : List ℤ) (change : ℤ) : Transaction where
  version := 1
  txType := .register
  inputs := [{
    prevTxHash := List.replicate 32 1
    outputIndex := 0
    signature := []
    publicKey := (walletOf values).keyManager.getWotsKeypairForRegistration.2 }]
  outputs := [
    { value := 0
      address := (walletOf values).address
      data := (walletOf values).keyManager.innerHash ++ batchRoot (initialBatch KeyManager.exampleSeed) },
    { value := change, address := (walletOf values).address }]
  epoch := 0
  timestamp := 1000
  fee := 46580
  nonce := List.replicate 8 0

theorem packable_registrationOf {values : List ℤ} {change : ℤ}
    (hinner : (walletOf values).keyManager.innerHash.length = 64)
    (hchange : 0 ≤ change ∧ change < 256 ^ 8) : (registrationOf values change).Packable := by
  have hroot : (batchRoot (initialBatch KeyManager.exampleSeed)).length = 32 :=
    MerkleTree.length_root (TemporalAuthTree.publicKeys_ne_nil _)
  obtain ⟨hnonneg, hlt⟩ := hchange
  norm_num at hlt
  constructor <;> simp [registrationOf, hinner, hroot, hnonneg, hlt]

theorem registrationTx_single : (walletOf [100000]).registrationTx
    ⟨1000, List.replicate 8 0⟩ none = .ok (some (registrationOf [100000] 53420)) := rfl

theorem balanced_registration_single : ∃ tx,
    (createRegistrationTx ⟨1000, List.replicate 8 0⟩ none (walletOf [100000])).1 = .ok (some tx) ∧
      (walletOf [100000]).Balanced tx := by
  obtain ⟨tx, htx⟩ := createRegistrationTx_returns registrationTx_single
    (packable_registrationOf (Keccak.length_sha3_512 _) (by decide))
  have hw : walletOf [100000] = after apply (coins [100000]) (init {} KeyManager.exampleSeed) := rfl
  have hcreate : ((Builder.registration none).create ⟨1000, List.replicate 8 0⟩
      (walletOf [100000])).1 = .ok (some tx) := htx
  refine ⟨tx, htx, (builder_balanced_iff {} _ (coins [100000]) hw hcreate).2.mpr ?_⟩
  let u : Utxo := ⟨List.replicate 32 1, 0, { value := 100000, address := List.replicate 64 1 }, 0,
    false, none⟩
  have hspendable : (walletOf [100000]).getSpendableUtxos = [u] := rfl
  refine ⟨u, by rw [hspendable]; exact List.mem_singleton_self u, ?_⟩
  decide

theorem registrationTx_split : (walletOf [30000, 30000]).registrationTx
    ⟨1000, List.replicate 8 0⟩ none = .ok (some (registrationOf [30000, 30000] 13420)) := rfl

/-- Two outputs of 30000 are counted and one is spent: the fee of 46580 is not paid for. -/
theorem registration_unbalanced : ∃ tx,
    (createRegistrationTx ⟨1000, List.replicate 8 0⟩ none (walletOf [30000, 30000])).1 =
      .ok (some tx) ∧
    ¬ (walletOf [30000, 30000]).Balanced tx := by
  obtain ⟨tx, htx⟩ := createRegistrationTx_returns registrationTx_split
    (packable_registrationOf (Keccak.length_sha3_512 _) (by decide))
  refine ⟨tx, htx, ?_⟩
  have hkeyed : (walletOf [30000, 30000]).Keyed := keyed_after _ _ _
  rw [(registration_announces htx).balanced_iff hkeyed]
  rintro ⟨u, hu, hcovers⟩
  change u ∈ [_, _] at hu
  simp only [List.mem_cons, List.not_mem_nil, or_false] at hu
  change 46580 ≤ u.output.value at hcovers
  rcases hu with rfl | rfl
  · exact absurd hcovers (by decide)
  · exact absurd hcovers (by decide)

end Wallet

end Qrtb
