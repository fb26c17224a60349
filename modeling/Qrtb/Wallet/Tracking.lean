import Qrtb.Wallet.Balance
import Qrtb.Wallet.KeyFrame
import Mathlib.Tactic.Ring

/-!
# What submitting and confirming do to the outputs (`src/wallet.py`)

A submitted transaction is pending and its inputs are marked as spent; when it is
confirmed, its outputs that belong to the wallet become outputs of the wallet. The
balances count the unspent outputs that are not locked, and what the pending
transactions pay to the address of the wallet.
-/

namespace Qrtb

open Stateful

namespace Wallet

variable {S : Type}

def balance (w : Wallet S) : ℤ :=
  w.utxos.sumBy fun u =>
    if u.isSpent then 0 else if u.output.lockEpoch ≤ w.currentEpoch then u.output.value else 0

/-- What a transaction pays to an address. -/
def paidTo (address : Bytes) (tx : Transaction) : ℤ :=
  (tx.outputs.map fun out => if out.address = address then out.value else 0).sum

def pendingBalance (w : Wallet S) : ℤ := w.pendingTxs.sumBy (paidTo w.address)

def totalBalance (w : Wallet S) : ℤ := w.balance + w.pendingBalance

/-- The unspent outputs that are still locked. -/
def locked (w : Wallet S) : ℤ :=
  w.utxos.sumBy fun u =>
    if u.isSpent then 0 else if u.output.lockEpoch ≤ w.currentEpoch then 0 else u.output.value

def holdings (w : Wallet S) : ℤ := w.utxos.sumBy Utxo.unspentValue

theorem balance_add_locked (w : Wallet S) : w.balance + w.locked = w.holdings := by
  rw [balance, locked, holdings, OrderedDict.sumBy, OrderedDict.sumBy, OrderedDict.sumBy,
    ← List.sum_map_add]
  congr 1
  refine List.map_congr_left fun u _ => ?_
  rw [Utxo.unspentValue]
  split_ifs <;> simp

/-- The property does not look at the keys beyond the address. -/
def AsideKeys (I : Wallet S → Prop) : Prop :=
  ∀ w k, k.address = w.address → I w → I { w with keyManager := k }

section

variable [SeedSpace S]

theorem address_signOnTree (sign : Bytes → Stateful (TemporalAuthTree S) TemporalSignature)
    (payload : Payload) (k : KeyManager S) :
    (KeyManager.signOnTree sign payload k).2.address = k.address := by
  rcases KeyManager.signOnTree_cases sign payload k with hk | hk | ⟨s, -, hk⟩ <;> rw [hk]

theorem kept_address (a : Bytes) :
    KeyManager.Kept (fun k : KeyManager S => k.address = a) where
  temporalSign payload k h := (address_signOnTree _ payload k).trans h
  temporalSignRotation payload k h := (address_signOnTree _ payload k).trans h
  prepareRotation k h := by
    rw [KeyManager.prepareRotation_eq]
    exact h
  generateKeypair epoch := KeyManager.preserves_generateKeypair fun _ h => h
  getUnusedKeypair epoch := KeyManager.preserves_getUnusedKeypair fun _ h => h
  sign payload ref k h := by
    rcases KeyManager.sign_cases payload ref k with hk | ⟨pair, -, -, hk⟩ <;> rw [hk] <;> exact h
  setFlags _ _ _ h := h

theorem address_executeRotation (a : Bytes) :
    Preserves (fun k : KeyManager S => k.address = a) KeyManager.executeRotation := by
  intro k h
  rcases KeyManager.executeRotation_cases k with ⟨-, hk⟩ | ⟨p, -, hk⟩ <;> rw [hk] <;> exact h

variable {I : Wallet S → Prop}

omit [SeedSpace S] in
theorem AsideKeys.onKeys (h : AsideKeys I) {α : Type} {x : Stateful (KeyManager S) α}
    (hx : ∀ a, Preserves (fun k => k.address = a) x) : Preserves I (onKeys x) :=
  fun w hw => h w _ (hx _ w.keyManager rfl) hw

theorem AsideKeys.signBuilt (h : AsideKeys I) (tx : Option Transaction) :
    Preserves I (signBuilt tx) := by
  cases tx with
  | none => exact preserves_pure _
  | some tx =>
    refine Preserves.bind ?_ fun _ => preserves_pure _
    refine (preserves_ofExcept _).bind fun hashData => (preserves_reads _).bind fun registered => ?_
    refine (preserves_reads _).bind fun epoch => ?_
    refine (h.onKeys fun a => Preserves.forEach (fun inp => ?_) tx.inputs).bind fun _ =>
      preserves_pure _
    have hinput :=
      preserves_signInput (kept_address (S := S) a) registered (.transaction hashData) epoch inp
    cases registered with
    | true => exact hinput
    | false => exact hinput

theorem AsideKeys.create (h : AsideKeys I) (fresh : Fresh) (b : Builder) :
    Preserves I (b.create fresh) := by
  cases b with
  | spending p =>
    intro w hw
    change I (p.create fresh w).2
    rw [Spending.create_apply]
    exact h.signBuilt _ w hw
  | registration fee =>
    refine (preserves_reads _).bind fun built => (preserves_ofExcept _).bind fun tx => ?_
    cases tx with
    | none => exact preserves_pure _
    | some tx =>
      refine Preserves.bind ((preserves_ofExcept _).bind fun hashData => ?_) fun _ =>
        preserves_pure _
      refine (preserves_reads _).bind fun privateKey => ?_
      refine Preserves.bind (fun w hw => ?_) fun _ => preserves_pure _
      exact h w _ rfl hw
  | rotation fee =>
    refine (preserves_reads _).bind fun registered => Preserves.ite (preserves_pure _) ?_
    refine (h.onKeys fun a => (kept_address a).prepareRotation).bind fun root => ?_
    refine (preserves_reads _).bind fun built => (preserves_ofExcept _).bind fun tx => ?_
    cases tx with
    | none => exact preserves_pure _
    | some tx =>
      refine (preserves_ofExcept _).bind fun hashData => ?_
      refine (h.onKeys fun a => (kept_address a).temporalSignRotation _).bind fun s => ?_
      exact (preserves_ofExcept _).bind fun field => preserves_pure _

theorem AsideKeys.keys (h : AsideKeys I) (call : KeyManager.Call) :
    Preserves I (Wallet.onKeys (KeyManager.apply call)) :=
  h.onKeys fun a => (kept_address a).preserves_apply fun _ => address_executeRotation a

end

/-- The inputs reference distinct unspent outputs of the wallet. -/
structure Spendable (w : Wallet S) (tx : Transaction) : Prop where
  distinct : tx.refs.Nodup
  unspent : ∀ ref ∈ tx.refs, ∃ u, w.utxos.get? ref = some u ∧ u.isSpent = false

theorem Keyed.get?_ref {w : Wallet S} (h : w.Keyed) {u : Utxo} (hu : u ∈ w.utxos.values) :
    w.utxos.get? u.ref = some u := by
  obtain ⟨key, hget⟩ := (OrderedDict.mem_values_iff _ _).mp hu
  rwa [h key u hget]

theorem Keyed.nodup_filter {w : Wallet S} (h : w.Keyed) (q : Utxo → Bool) :
    ((w.utxos.values.filter q).map Utxo.ref).Nodup := by
  have hvalues : w.utxos.values.map Utxo.ref = w.utxos.keys := by
    rw [OrderedDict.values, OrderedDict.keys, List.map_map]
    refine List.map_congr_left fun entry hentry => ?_
    exact h _ _ ((OrderedDict.mem_items_iff _ _ _).mp hentry)
  apply (List.filter_sublist.map Utxo.ref).nodup
  rw [hvalues]
  exact w.utxos.nodup

theorem unspent_of_spendable {w : Wallet S} {u : Utxo} (h : u ∈ w.getSpendableUtxos) :
    u.isSpent = false := by
  have hfilter := (List.mem_filter.mp h).2
  simp only [Bool.and_eq_true, Bool.not_eq_true'] at hfilter
  exact hfilter.1

theorem unspent_of_matureStakes {w : Wallet S} {u : Utxo} (h : u ∈ w.matureStakes) :
    u.isSpent = false := by
  have hfilter := (List.mem_filter.mp h).2
  simp only [Bool.and_eq_true, Bool.not_eq_true'] at hfilter
  exact hfilter.1.1

theorem Spending.picked_unspent (w : Wallet S) (p : Spending) :
    ∀ u ∈ p.picked w, u.isSpent = false := by
  intro u hu
  cases p with
  | transfer recipient amount fee => exact unspent_of_spendable (spendable_of_selected hu)
  | stake amount lockEpochs => exact unspent_of_spendable (spendable_of_selected hu)
  | unstake => exact unspent_of_matureStakes hu
  | data bytes fee => exact unspent_of_spendable (spendable_of_selected hu)

theorem Spending.nodup_picked {w : Wallet S} (h : w.Keyed) (p : Spending) :
    ((p.picked w).map Utxo.ref).Nodup := by
  cases p with
  | transfer recipient amount fee => exact h.nodup_selected _ _
  | stake amount lockEpochs => exact h.nodup_selected _ _
  | unstake => exact h.nodup_filter _
  | data bytes fee => exact h.nodup_selected _ _

variable [SeedSpace S]

theorem spendable_of_create {w : Wallet S} (h : w.Keyed) {fresh : Fresh} {b : Builder}
    {tx : Transaction} (htx : (b.create fresh w).1 = .ok (some tx)) : w.Spendable tx := by
  have hannounces : ∀ fee, w.Announces fee tx → w.Spendable tx := by
    intro fee hannounces
    obtain ⟨u, hfirst, hrefs⟩ := hannounces.first
    have hu : u ∈ w.getSpendableUtxos := spendable_of_selected (List.mem_of_mem_head? hfirst)
    refine ⟨hrefs ▸ List.nodup_singleton _, fun ref href => ?_⟩
    rw [hrefs, List.mem_singleton] at href
    subst href
    exact ⟨u, h.get?_ref (mem_utxos_of_spendable hu), unspent_of_spendable hu⟩
  cases b with
  | spending p =>
    obtain ⟨-, hashData, inputs, -, hinputs, rfl⟩ := Spending.create_eq_ok.mp htx
    have hrefs : inputs.map TxInput.ref = (p.picked w).map Utxo.ref := by
      rw [refs_of_signInputs hinputs, Spending.draft, newTx, List.map_map]
      rfl
    constructor
    · rw [Transaction.refs, hrefs]
      exact p.nodup_picked h
    · intro ref href
      rw [Transaction.refs, hrefs] at href
      obtain ⟨u, hu, rfl⟩ := List.mem_map.mp href
      exact ⟨u, h.get?_ref (p.picked_subset w u hu), p.picked_unspent w u hu⟩
  | registration fee => exact hannounces _ (registration_announces htx)
  | rotation fee => exact hannounces _ (rotation_announces htx)

def spendInput (spendingTx : Bytes) (inp : TxInput) : Stateful (Wallet S) Bool :=
  spendUtxo inp.prevTxHash inp.outputIndex spendingTx

omit [SeedSpace S] in
theorem spendInput_unspent {w : Wallet S} {inp : TxInput} {u : Utxo}
    (hu : w.utxos.get? inp.ref = some u) (hunspent : u.isSpent = false) (spendingTx : Bytes) :
    spendInput spendingTx inp w =
      (.ok true, { w with utxos := w.utxos.set inp.ref (u.markSpent spendingTx) }) := by
  rw [spendInput, spendUtxo, show w.utxos.get? (inp.prevTxHash, inp.outputIndex) = some u from hu]
  simp only
  rw [if_neg (by simp [hunspent])]
  rfl

omit [SeedSpace S] in
theorem spendAll (spendingTx : Bytes) (inputs : List TxInput) (w : Wallet S)
    (hdistinct : (inputs.map TxInput.ref).Nodup)
    (hunspent : ∀ ref ∈ inputs.map TxInput.ref,
      ∃ u, w.utxos.get? ref = some u ∧ u.isSpent = false) :
    ∃ utxos, (∃ flags, (forEach (spendInput spendingTx) inputs w).1 = .ok flags) ∧
      (forEach (spendInput spendingTx) inputs w).2 = { w with utxos := utxos } ∧
      (∀ key, utxos.get? key = if key ∈ inputs.map TxInput.ref
        then (w.utxos.get? key).map fun u => u.markSpent spendingTx else w.utxos.get? key) ∧
      utxos.sumBy Utxo.unspentValue = w.holdings - ((inputs.map TxInput.ref).map w.valueAt).sum := by
  induction inputs generalizing w with
  | nil => exact ⟨w.utxos, ⟨[], rfl⟩, rfl, fun key => (if_neg (by simp)).symm, by simp [holdings]⟩
  | cons inp inputs ih =>
    rw [List.map_cons, List.nodup_cons] at hdistinct
    obtain ⟨u, hu, hspent⟩ := hunspent inp.ref List.mem_cons_self
    have hfirst := spendInput_unspent hu hspent spendingTx
    have hother : ∀ ref ∈ inputs.map TxInput.ref, ref ≠ inp.ref := by
      rintro ref href rfl
      exact hdistinct.1 href
    obtain ⟨utxos, ⟨flags, hflags⟩, heq, hget, hsum⟩ := ih
        { w with utxos := w.utxos.set inp.ref (u.markSpent spendingTx) } hdistinct.2 (by
      intro ref href
      rw [OrderedDict.get?_set_of_ne _ (hother ref href)]
      exact hunspent ref (List.mem_cons_of_mem _ href))
    refine ⟨utxos, ⟨true :: flags, ?_⟩, ?_, ?_, ?_⟩
    · exact forEach_cons_eq_ok.mpr
        ⟨true, flags, congrArg Prod.fst hfirst, by rw [hfirst]; exact hflags, rfl⟩
    · rw [snd_forEach_cons _ (congrArg Prod.fst hfirst), hfirst]
      exact heq
    · intro key
      rw [hget, OrderedDict.get?_set]
      simp only [List.map_cons, List.mem_cons]
      by_cases hkey : key = inp.ref
      · subst hkey
        rw [if_neg hdistinct.1, if_pos rfl, if_pos (Or.inl rfl), hu, Option.map_some]
      · simp only [hkey, false_or, if_false]
    · rw [hsum, holdings, OrderedDict.sumBy_set, List.map_cons, List.map_cons, List.sum_cons]
      have hvalues : (inputs.map TxInput.ref).map
          (valueAt { w with utxos := w.utxos.set inp.ref (u.markSpent spendingTx) }) =
            (inputs.map TxInput.ref).map w.valueAt := by
        refine List.map_congr_left fun ref href => ?_
        rw [valueAt, valueAt, OrderedDict.get?_set_of_ne _ (hother ref href)]
      rw [hvalues, OrderedDict.weightAt, hu, valueAt, hu]
      simp only [Option.map_some, Option.getD_some, Utxo.unspentValue, hspent, Utxo.markSpent,
        Bool.false_eq_true, if_false, if_true, holdings]
      ring

omit [SeedSpace S] in
/-- A transaction that can be spent is pending after it was submitted, and has spent its inputs. -/
theorem submitTransaction_eq {w : Wallet S} {tx : Transaction} {txHash : Bytes}
    (hhash : tx.txHash = .ok txHash) (h : w.Spendable tx) :
    ∃ utxos, submitTransaction tx w =
        (.ok (), { w with utxos := utxos, pendingTxs := w.pendingTxs.set txHash tx }) ∧
      (∀ key, utxos.get? key = if key ∈ tx.refs
        then (w.utxos.get? key).map fun u => u.markSpent txHash else w.utxos.get? key) ∧
      utxos.sumBy Utxo.unspentValue = w.holdings - w.spentValue tx := by
  obtain ⟨utxos, ⟨flags, hflags⟩, heq, hget, hsum⟩ := spendAll txHash tx.inputs
    { w with pendingTxs := w.pendingTxs.set txHash tx } h.distinct h.unspent
  refine ⟨utxos, ?_, hget, hsum⟩
  rw [submitTransaction, hhash, ofExcept_ok_bind]
  change (forEach (spendInput txHash) tx.inputs >>= fun _ => pure ())
    { w with pendingTxs := w.pendingTxs.set txHash tx } = _
  rw [bind_of_ok hflags, heq]
  rfl

omit [SeedSpace S] in
theorem submitTransaction_error {w : Wallet S} {tx : Transaction} {e : PyError}
    (hhash : tx.txHash = .error e) : submitTransaction tx w = (.error e, w) := by
  rw [submitTransaction, hhash]
  rfl

def isOurs (w : Wallet S) (out : TxOutput) : Bool :=
  decide (out.address = w.address) || w.isOurAddress out.address

/-- What a transaction pays to the wallet. -/
def paidToUs (w : Wallet S) (tx : Transaction) : ℤ :=
  (tx.outputs.map fun out => if w.isOurs out then out.value else 0).sum

omit [SeedSpace S] in
theorem confirmOutputs {tx : Transaction} {txHash : Bytes} (hhash : tx.txHash = .ok txHash)
    (outs : List TxOutput) (n : ℕ) (w : Wallet S)
    (hnew : ∀ i : ℕ, n ≤ i → w.utxos.get? (txHash, (i : ℤ)) = none) :
    ∃ utxos, (forEach (confirmOutput tx) (outs.zipIdx n) w).2 = { w with utxos := utxos } ∧
      (∀ key, key.1 ≠ txHash → utxos.get? key = w.utxos.get? key) ∧
      (∀ key u, utxos.get? key = some u → w.utxos.get? key = some u ∨
        key.1 = txHash ∧ u.ref = key ∧ u.isSpent = false) ∧
      utxos.sumBy Utxo.unspentValue =
        w.holdings + (outs.map fun out => if w.isOurs out then out.value else 0).sum := by
  induction outs generalizing n w with
  | nil => exact ⟨w.utxos, rfl, fun _ _ => rfl, fun _ _ => Or.inl, by simp [holdings]⟩
  | cons out outs ih =>
    cases hours : w.isOurs out with
    | false =>
      have hfirst : confirmOutput tx (out, n) w = (.ok (), w) := by
        rw [confirmOutput, reads_bind]
        rw [isOurs] at hours
        rw [if_neg (by simp [hours])]
        rfl
      obtain ⟨utxos, heq, hother, hcases, hsum⟩ := ih (n + 1) w fun i hi => hnew i (by omega)
      refine ⟨utxos, ?_, hother, hcases, ?_⟩
      · rw [List.zipIdx_cons, snd_forEach_cons _ (congrArg Prod.fst hfirst), hfirst]
        exact heq
      · rw [hsum, List.map_cons, List.sum_cons, hours]
        simp
    | true =>
      obtain ⟨u, hu⟩ : ∃ u : Utxo, u = ⟨txHash, n, out, tx.epoch, false, none⟩ := ⟨_, rfl⟩
      have hfirst : confirmOutput tx (out, n) w =
          (.ok (), { w with utxos := w.utxos.set (txHash, (n : ℤ)) u }) := by
        rw [confirmOutput, reads_bind]
        rw [isOurs] at hours
        rw [if_pos (by simp [hours]), hhash, ofExcept_ok_bind, hu]
        rfl
      obtain ⟨utxos, heq, hother, hcases, hsum⟩ := ih (n + 1)
        { w with utxos := w.utxos.set (txHash, (n : ℤ)) u } (by
          intro i hi
          rw [OrderedDict.get?_set_of_ne _ (by simp; omega)]
          exact hnew i (by omega))
      refine ⟨utxos, ?_, ?_, ?_, ?_⟩
      · rw [List.zipIdx_cons, snd_forEach_cons _ (congrArg Prod.fst hfirst), hfirst]
        exact heq
      · intro key hkey
        rw [hother key hkey]
        exact OrderedDict.get?_set_of_ne _ (fun h => hkey (congrArg Prod.fst h)) _
      · intro key v hv
        rcases hcases key v hv with hold | hfresh
        · rcases OrderedDict.get?_set_eq_some.mp hold with ⟨rfl, rfl⟩ | ⟨-, hold⟩
          · exact Or.inr ⟨rfl, by rw [hu]; rfl, by rw [hu]⟩
          · exact Or.inl hold
        · exact Or.inr hfresh
      · have hweight : w.utxos.weightAt Utxo.unspentValue (txHash, (n : ℤ)) = 0 := by
          rw [OrderedDict.weightAt, hnew n le_rfl]
          rfl
        have hvalue : u.unspentValue = out.value := by
          rw [hu]
          rfl
        have hours' : (fun out => if isOurs { w with utxos := w.utxos.set (txHash, (n : ℤ)) u } out
            then out.value else 0) = fun out => if w.isOurs out then out.value else 0 := rfl
        rw [hsum, holdings, OrderedDict.sumBy_set, hweight, hvalue, hours', List.map_cons,
          List.sum_cons, hours, holdings]
        simp only [if_true]
        ring

omit [SeedSpace S] in
/-- A confirmation moves a pending transaction to the history and its outputs into the wallet. -/
theorem confirmTransaction_eq {w : Wallet S} {tx : Transaction} {txHash : Bytes}
    (hpending : w.pendingTxs.get? txHash = some tx) (hhash : tx.txHash = .ok txHash)
    (hnew : ∀ i : ℕ, w.utxos.get? (txHash, (i : ℤ)) = none) :
    ∃ utxos, (confirmTransaction txHash w).2 = { w with
        utxos := utxos
        pendingTxs := w.pendingTxs.erase txHash
        txHistory := w.txHistory ++ [txHash] } ∧
      (∀ key, key.1 ≠ txHash → utxos.get? key = w.utxos.get? key) ∧
      (∀ key u, utxos.get? key = some u → w.utxos.get? key = some u ∨
        key.1 = txHash ∧ u.ref = key ∧ u.isSpent = false) ∧
      utxos.sumBy Utxo.unspentValue = w.holdings + w.paidToUs tx := by
  obtain ⟨utxos, heq, hother, hcases, hsum⟩ := confirmOutputs hhash tx.outputs 0
    { w with pendingTxs := w.pendingTxs.erase txHash, txHistory := w.txHistory ++ [txHash] }
    fun i _ => hnew i
  refine ⟨utxos, ?_, hother, hcases, hsum⟩
  rw [confirmTransaction, reads_bind, hpending]
  change ((forEach (confirmOutput tx) tx.outputs.zipIdx >>= fun _ => pure ()) _).2 = _
  rw [snd_bind_pure]
  exact heq

omit [SeedSpace S] in
theorem confirmTransaction_none {w : Wallet S} {txHash : Bytes}
    (hpending : w.pendingTxs.get? txHash = none) :
    (confirmTransaction txHash w).2 = { w with pendingTxs := w.pendingTxs.erase txHash } := by
  rw [confirmTransaction, reads_bind, hpending]
  rfl

end Wallet

end Qrtb
