import Qrtb.Blocks.Producer
import Qrtb.Ledger.Runs

/-!
# Failed blocks

A block that fails is not rolled back. Its application leaves the ledger as it
was when it fails before the first write: at a transaction that has no hash, or
whose first input is not there to spend. Once something is written, only the
same block could undo it, by creating the same outputs again.
-/

namespace Qrtb

namespace Ledger

variable {L : Ledger} {tx : Transaction}

/-- The transaction writes nothing and stops nothing. -/
def Idle (tx : Transaction) : Prop := tx.inputs = [] ∧ tx.outputs = []

instance (tx : Transaction) : Decidable (Idle tx) := inferInstanceAs (Decidable (_ ∧ _))

/-- The block meets, before anything is written, a transaction that cannot start; or it has none
that writes. -/
def FailsBeforeWriting (L : Ledger) : List Transaction → Prop
  | [] => True
  | tx :: txs =>
    if Idle tx then
      tx.txType = .register ∨ tx.txType = .rotateAuth ∨ FailsBeforeWriting L txs
    else ¬ tx.Packable ∨ ∃ inp, tx.inputs.head? = some inp ∧ ¬ L.utxoSet.Spendable inp.ref

/-- No transaction of the block creates an output that the ledger already has. -/
def CreatesOnlyNew (L : Ledger) (txs : List Transaction) : Prop :=
  ∀ tx ∈ txs, ∀ k, tx.Creates k → L.utxoSet.utxos.get? k = none

theorem hashWhenUsed_of_not_idle (h : ¬ Idle tx) : hashWhenUsed tx = tx.txHash := by
  simp only [Idle] at h
  simp [hashWhenUsed, h]

theorem applyTransaction_idle (h : Idle tx) (hr : tx.txType ≠ .register)
    (ha : tx.txType ≠ .rotateAuth) : applyTransaction tx L = (.ok true, L) := by
  obtain ⟨hi, ho⟩ := h
  have hstaking : applyStaking tx L = L := by
    unfold applyStaking
    split_ifs
    · rw [ho]
      rfl
    · rfl
  have hregistry : applyRegistry tx L = (.ok true, L) := by
    cases ht : tx.txType with
    | register => exact absurd ht hr
    | rotateAuth => exact absurd ht ha
    | _ => simp [applyRegistry, ht]
  simp [applyTransaction, hashWhenUsed, hi, ho, UtxoSet.spendInputs, UtxoSet.addOutputs, hstaking,
    hregistry]

theorem applyTransaction_idle_registry (h : Idle tx)
    (ht : tx.txType = .register ∨ tx.txType = .rotateAuth) :
    applyTransaction tx L = (.error .indexError, L) := by
  obtain ⟨hi, ho⟩ := h
  rcases ht with ht | ht
  all_goals
    simp [applyTransaction, hashWhenUsed, hi, ho, UtxoSet.spendInputs, UtxoSet.addOutputs,
      applyRegistry, applyStaking, ht, firstData]

theorem applyTransaction_of_cannot_start (hidle : ¬ Idle tx)
    (h : ¬ tx.Packable ∨ ∃ inp, tx.inputs.head? = some inp ∧ ¬ L.utxoSet.Spendable inp.ref) :
    (applyTransaction tx L).1 ≠ .ok true ∧ (applyTransaction tx L).2 = L := by
  have hhash := hashWhenUsed_of_not_idle hidle
  rcases applyTransaction_cases tx L with ⟨e, -, he⟩ | ⟨t, ht, hs, he⟩ | ⟨t, ht, hs, -⟩
  · simp [he]
  · have hp : tx.Packable := tx.txHash_returns.mp ⟨t, hhash ▸ ht⟩
    obtain ⟨inp, hhead, hspend⟩ := h.resolve_left (not_not_intro hp)
    obtain ⟨inputs, hinputs⟩ := List.head?_eq_some_iff.mp hhead
    rw [he, hinputs, L.utxoSet.spendInputs_cons_of_not_spendable t inputs hspend]
    simp
  · have hp : tx.Packable := tx.txHash_returns.mp ⟨t, hhash ▸ ht⟩
    obtain ⟨inp, hhead, hspend⟩ := h.resolve_left (not_not_intro hp)
    have hmem : inp ∈ tx.inputs := List.mem_of_mem_head? hhead
    exact absurd (((L.utxoSet.spendInputs_eq_true_iff t tx.inputs).mp hs).2 inp hmem) hspend

theorem isSome_get?_applyTransaction (tx : Transaction) {k : OutRef}
    (hk : (L.utxoSet.utxos.get? k).isSome = true) :
    ((applyTransaction tx L).2.utxoSet.utxos.get? k).isSome = true := by
  rcases get?_applyTransaction tx L k with h | ⟨-, u, t, -, -, h⟩ | ⟨t, j, out, -, -, -, -, h⟩
  · rw [h, hk]
  · rw [h]
    rfl
  · rw [h]
    rfl

theorem spent_applyTransaction {k : OutRef} (hk : L.utxoSet.Spent k) (hc : ¬ tx.Creates k) :
    (applyTransaction tx L).2.utxoSet.Spent k := by
  rcases get?_applyTransaction tx L k with h | ⟨-, u, t, -, -, h⟩ | ⟨t, j, out, ht, -, hj, he, -⟩
  · obtain ⟨u, hu, hs⟩ := hk
    exact ⟨u, h.trans hu, hs⟩
  · exact ⟨_, h, rfl⟩
  · exact absurd ⟨t, j, out, ht, hj, he⟩ hc

/-- A transaction whose first input can be spent spends it, whatever happens afterwards. -/
theorem spent_head_applyTransaction {inp : TxInput} (hhead : tx.inputs.head? = some inp)
    (hp : tx.Packable) (hs : L.utxoSet.Spendable inp.ref) (hc : ¬ tx.Creates inp.ref) :
    (applyTransaction tx L).2.utxoSet.Spent inp.ref := by
  obtain ⟨inputs, hinputs⟩ := List.head?_eq_some_iff.mp hhead
  obtain ⟨u, hu, hus⟩ := hs
  have hidle : ¬ Idle tx := by
    intro h
    rw [h.1] at hinputs
    cases hinputs
  have hloop : ∀ t, (L.utxoSet.spendInputs t tx.inputs).2.utxos.get? inp.ref =
      some (u.markSpent t) := by
    intro t
    obtain ⟨s', hs', -, he⟩ := L.utxoSet.spendInputs_cons_of_spendable t inputs hu hus
    have hmarked : s'.utxos.get? inp.ref = some (u.markSpent t) := by
      rw [hs', OrderedDict.get?_set_self]
    rw [hinputs, he]
    rcases s'.get?_spendInputs t inputs inp.ref with h | ⟨-, v, hv, hvs, -⟩
    · exact h.trans hmarked
    · obtain rfl := Option.some.inj (hmarked.symm.trans hv)
      cases hvs
  rcases applyTransaction_cases tx L with ⟨e, he, -⟩ | ⟨t, -, -, he⟩ | ⟨t, ht, -, he⟩
  · obtain ⟨t, ht⟩ := tx.txHash_returns.mpr hp
    rw [hashWhenUsed_of_not_idle hidle, ht] at he
    cases he
  · rw [he]
    exact ⟨_, hloop t, rfl⟩
  · rw [hashWhenUsed_of_not_idle hidle] at ht
    rw [he, utxoSet_applyRegistry]
    refine ⟨u.markSpent t, ?_, rfl⟩
    rw [utxos_applyStaking]
    rcases (L.utxoSet.spendInputs t tx.inputs).2.get?_addOutputs t tx.epoch 0 tx.outputs inp.ref
      with h | ⟨j, out, hj, hk, -⟩
    · rw [h, hloop t]
    · rw [Nat.zero_add] at hk
      exact absurd ⟨t, j, out, ht, hj, hk⟩ hc

/-- A transaction without inputs stores its outputs, whatever happens afterwards. -/
theorem isSome_output_applyTransaction (hi : tx.inputs = []) (ho : tx.outputs ≠ []) {h : Bytes}
    (hh : tx.txHash = .ok h) :
    ((applyTransaction tx L).2.utxoSet.utxos.get? (h, 0)).isSome = true := by
  obtain ⟨out, outs, houts⟩ := List.exists_cons_of_ne_nil ho
  have hhash := hashWhenUsed_of_outputs ho
  rcases applyTransaction_cases tx L with ⟨e, he, -⟩ | ⟨t, -, hs, -⟩ | ⟨t, ht, -, he⟩
  · rw [hhash, hh] at he
    cases he
  · rw [hi] at hs
    cases hs
  · obtain rfl := Except.ok.inj (hh.symm.trans (hhash.symm.trans ht))
    rw [he, utxoSet_applyRegistry, utxos_applyStaking]
    have hself := (L.utxoSet.spendInputs h tx.inputs).2.get?_addOutputs_self h tx.epoch (i := 0)
      (by simp [houts] : tx.outputs[0]? = some out)
    exact Option.isSome_of_eq_some hself

end Ledger

namespace BlockProducer

open Ledger

variable {L : Ledger} {txs : List Transaction}

theorem applyTransactions_cons_of_true {tx : Transaction}
    (h : (applyTransaction tx L).1 = .ok true) :
    applyTransactions (tx :: txs) L = applyTransactions txs (applyTransaction tx L).2 := by
  rw [applyTransactions]
  rcases hr : applyTransaction tx L with ⟨r, M⟩
  rw [hr] at h
  obtain rfl : r = .ok true := h
  rfl

theorem applyTransactions_cons_of_not_true {tx : Transaction}
    (h : (applyTransaction tx L).1 ≠ .ok true) :
    applyTransactions (tx :: txs) L = (false, (applyTransaction tx L).2) := by
  rw [applyTransactions]
  rcases hr : applyTransaction tx L with ⟨r, M⟩
  rw [hr] at h
  rcases r with e | b
  · rfl
  · cases b with
    | false => rfl
    | true => exact absurd rfl h

/-- What the first transaction establishes and the rest keeps holds after the block, wherever it
stops. -/
theorem applyTransactions_cons_keeps {P : Ledger → Prop} {tx : Transaction}
    (hfirst : P (applyTransaction tx L).2)
    (hrest : ∀ M, P M → P (applyTransactions txs M).2) : P (applyTransactions (tx :: txs) L).2 := by
  by_cases h : (applyTransaction tx L).1 = .ok true
  · rw [applyTransactions_cons_of_true h]
    exact hrest _ hfirst
  · rw [applyTransactions_cons_of_not_true h]
    exact hfirst

theorem applyTransactions_of_failsBeforeWriting (h : L.FailsBeforeWriting txs) :
    (applyTransactions txs L).2 = L := by
  induction txs with
  | nil => rfl
  | cons tx txs ih =>
    rw [FailsBeforeWriting] at h
    split_ifs at h with hidle
    · by_cases ht : tx.txType = .register ∨ tx.txType = .rotateAuth
      · have ha := applyTransaction_idle_registry (L := L) hidle ht
        rw [applyTransactions_cons_of_not_true (by simp [ha]), ha]
      · rw [not_or] at ht
        have ha := applyTransaction_idle (L := L) hidle ht.1 ht.2
        rw [applyTransactions_cons_of_true (by rw [ha]), ha]
        exact ih ((h.resolve_left ht.1).resolve_left ht.2)
    · obtain ⟨hfalse, hsame⟩ := applyTransaction_of_cannot_start hidle h
      rw [applyTransactions_cons_of_not_true hfalse, hsame]

/-- Presence of an entry survives a block, a spent entry that is not created again stays spent. -/
theorem isSome_get?_applyTransactions {k : OutRef}
    (hk : (L.utxoSet.utxos.get? k).isSome = true) :
    ((applyTransactions txs L).2.utxoSet.utxos.get? k).isSome = true := by
  induction txs generalizing L with
  | nil => exact hk
  | cons tx txs ih =>
    apply applyTransactions_cons_keeps (P := fun M => (M.utxoSet.utxos.get? k).isSome = true)
    · exact isSome_get?_applyTransaction tx hk
    · intro M hM
      exact ih hM

theorem spent_applyTransactions {k : OutRef} (hk : L.utxoSet.Spent k)
    (hc : ∀ tx ∈ txs, ¬ tx.Creates k) : (applyTransactions txs L).2.utxoSet.Spent k := by
  induction txs generalizing L with
  | nil => exact hk
  | cons tx txs ih =>
    rw [List.forall_mem_cons] at hc
    apply applyTransactions_cons_keeps (P := fun M => M.utxoSet.Spent k)
    · exact spent_applyTransaction hk hc.1
    · intro M hM
      exact ih hM hc.2

/-- A transaction without inputs leaves an output that was not there before. -/
theorem changed_of_no_inputs {tx : Transaction} (hnew : L.CreatesOnlyNew (tx :: txs))
    (hidle : ¬ Idle tx) (hp : tx.Packable) (hinputs : tx.inputs = []) :
    (applyTransactions (tx :: txs) L).2 ≠ L := by
  intro hsame
  have ho : tx.outputs ≠ [] := fun ho => hidle ⟨hinputs, ho⟩
  obtain ⟨h, hh⟩ := tx.txHash_returns.mpr hp
  have hafter : ((applyTransactions (tx :: txs) L).2.utxoSet.utxos.get? (h, 0)).isSome = true := by
    apply applyTransactions_cons_keeps (P := fun M => (M.utxoSet.utxos.get? (h, 0)).isSome = true)
    · exact isSome_output_applyTransaction hinputs ho hh
    · intro M hM
      exact isSome_get?_applyTransactions hM
  obtain ⟨out, outs, houts⟩ := List.exists_cons_of_ne_nil ho
  have hbefore := hnew tx (by simp) (h, 0) ⟨h, 0, out, hh, by simp [houts], rfl⟩
  rw [hsame, hbefore] at hafter
  cases hafter

theorem changed_of_spendable_head {tx : Transaction} (hnew : L.CreatesOnlyNew (tx :: txs))
    (hp : tx.Packable) {inp : TxInput} (hhead : tx.inputs.head? = some inp)
    (hs : L.utxoSet.Spendable inp.ref) : (applyTransactions (tx :: txs) L).2 ≠ L := by
  intro hsame
  have hc : ∀ tx' ∈ tx :: txs, ¬ tx'.Creates inp.ref := by
    intro tx' htx' hcreates
    obtain ⟨u, hu, -⟩ := hs
    rw [hnew tx' htx' inp.ref hcreates] at hu
    cases hu
  rw [List.forall_mem_cons] at hc
  have hafter : (applyTransactions (tx :: txs) L).2.utxoSet.Spent inp.ref := by
    apply applyTransactions_cons_keeps (P := fun M => M.utxoSet.Spent inp.ref)
    · exact spent_head_applyTransaction hhead hp hs hc.1
    · intro M hM
      exact spent_applyTransactions hM hc.2
  rw [hsame] at hafter
  exact hafter.not_spendable hs

/-- Nothing but a failure before the first write leaves the ledger as it was, unless the block
creates outputs that were there before. -/
theorem failsBeforeWriting_of_unchanged (hnew : L.CreatesOnlyNew txs)
    (hsame : (applyTransactions txs L).2 = L) : L.FailsBeforeWriting txs := by
  induction txs with
  | nil => trivial
  | cons tx txs ih =>
    rw [FailsBeforeWriting]
    split_ifs with hidle
    · by_cases ht : tx.txType = .register ∨ tx.txType = .rotateAuth
      · rcases ht with ht | ht
        · exact Or.inl ht
        · exact Or.inr (Or.inl ht)
      · rw [not_or] at ht
        have ha := applyTransaction_idle (L := L) hidle ht.1 ht.2
        rw [applyTransactions_cons_of_true (by rw [ha]), ha] at hsame
        exact Or.inr (Or.inr (ih (fun tx' htx' => hnew tx' (by simp [htx'])) hsame))
    · by_contra hcan
      rw [not_or, not_not, not_exists] at hcan
      obtain ⟨hp, hspend⟩ := hcan
      cases hhead : tx.inputs.head? with
      | none => exact changed_of_no_inputs hnew hidle hp (List.head?_eq_none_iff.mp hhead) hsame
      | some inp =>
        have hs : L.utxoSet.Spendable inp.ref := by
          by_contra hns
          exact hspend inp ⟨hhead, hns⟩
        exact changed_of_spendable_head hnew hp hhead hs hsame

/-- A block that fails leaves the pool alone and the ledger where the loop stopped. -/
theorem applyBlock_of_false {p : BlockProducer} (h : (p.applyBlock txs).1 = false) :
    (p.applyBlock txs).2 = { p with ledger := (applyTransactions txs p.ledger).2 } := by
  unfold applyBlock at h ⊢
  rcases hr : applyTransactions txs p.ledger with ⟨b, M⟩
  rw [hr] at h
  cases b with
  | false => rfl
  | true =>
    dsimp only at h ⊢
    cases hm : txs.mapM Transaction.txHash with
    | error e => rfl
    | ok hashes =>
      rw [hm] at h
      cases h

theorem applyBlock_fst_of_false {p : BlockProducer}
    (h : (applyTransactions txs p.ledger).1 = false) : (p.applyBlock txs).1 = false := by
  unfold applyBlock
  rcases hr : applyTransactions txs p.ledger with ⟨b, M⟩
  rw [hr] at h
  obtain rfl : b = false := h
  rfl

theorem exists_head_of_refs {tx : Transaction} {k : OutRef} (h : tx.refs = [k]) :
    ∃ inp, tx.inputs.head? = some inp ∧ inp.ref = k ∧ ¬ Idle tx := by
  obtain ⟨inp, hinputs, href⟩ := List.map_eq_singleton_iff.mp h
  refine ⟨inp, by simp [hinputs], href, ?_⟩
  intro hidle
  rw [hidle.1] at hinputs
  cases hinputs

/-- A failed block leaves everything as it was if it fails before the first write, and, when it
creates no output anew, only then. -/
theorem failed_block_unchanged_iff {p : BlockProducer} (h : (p.applyBlock txs).1 = false) :
    (p.ledger.FailsBeforeWriting txs → (p.applyBlock txs).2 = p) ∧
    (p.ledger.CreatesOnlyNew txs →
      ((p.applyBlock txs).2 = p ↔ p.ledger.FailsBeforeWriting txs)) := by
  have hstate := applyBlock_of_false h
  have henough : p.ledger.FailsBeforeWriting txs → (p.applyBlock txs).2 = p := by
    intro hfails
    rw [hstate, applyTransactions_of_failsBeforeWriting hfails]
  refine ⟨henough, fun hnew => ⟨?_, henough⟩⟩
  intro hsame
  rw [hstate] at hsame
  exact failsBeforeWriting_of_unchanged hnew (congrArg BlockProducer.ledger hsame)

/-- A block over a funded ledger: the first transfer names an output that is not there, the second
would apply. -/
theorem failed_block_unchanged_of_missing : ∃ (p : BlockProducer) (tx tx' : Transaction),
    p.ledger = funded [] 0 ∧ p.ledger.Accepts tx' 0 ∧ (applyTransaction tx' p.ledger).1 = .ok true ∧
      (p.applyBlock [tx, tx']).1 = false ∧ (p.applyBlock [tx, tx']).2 = p := by
  obtain ⟨tx', h, haccepts, htype, hrefs⟩ :=
    exists_accepted_transfer [0, 1] (by decide) (by decide)
  have happly := (applyTransaction_returns_true_iff haccepts).mpr
    ⟨by simp [hrefs], haccepts.packable (by simp [htype])⟩
  let tx := spending .transfer [(List.replicate 32 0, 2)] none { value := 1000, address := [] } 0
  let p : BlockProducer := { validatorId := [], ledger := funded [] 0 }
  obtain ⟨inp, hhead, href, hidle⟩ :=
    exists_head_of_refs (refs_spending .transfer _ none _ 0 : tx.refs = _)
  have hmissing : ¬ p.ledger.utxoSet.Spendable inp.ref := by
    rintro ⟨u, hu, -⟩
    obtain ⟨t, j, out, hj, hk, -⟩ := exists_output_of_funded [] hu
    rw [href] at hk
    have hlt : j < 2 := (List.getElem?_eq_some_iff.mp hj).1
    have hindex : (2 : ℤ) = j := congrArg Prod.snd hk
    omega
  have hstart := applyTransaction_of_cannot_start hidle (Or.inr ⟨inp, hhead, hmissing⟩)
  have hfalse : (p.applyBlock [tx, tx']).1 = false :=
    applyBlock_fst_of_false (by rw [applyTransactions_cons_of_not_true hstart.1])
  refine ⟨p, tx, tx', rfl, haccepts, happly, hfalse, (failed_block_unchanged_iff hfalse).1 ?_⟩
  rw [FailsBeforeWriting, if_neg hidle]
  exact Or.inr ⟨inp, hhead, hmissing⟩

/-- Two transactions that spend one output make a block fail after the first was applied. -/
theorem failed_block_of_conflict {p : BlockProducer} {tx tx' : Transaction} {k : OutRef}
    (hrefs : tx.refs = [k]) (hrefs' : tx'.refs = [k]) (hs : p.ledger.utxoSet.Spendable k)
    (hp : tx.Packable) (hc : ¬ tx.Creates k) (happly : (applyTransaction tx p.ledger).1 = .ok true) :
    (p.applyBlock [tx, tx']).1 = false ∧ (p.applyBlock [tx, tx']).2 ≠ p := by
  obtain ⟨inp, hhead, rfl, -⟩ := exists_head_of_refs hrefs
  obtain ⟨inp', hhead', href', hidle'⟩ := exists_head_of_refs hrefs'
  have hspent := spent_head_applyTransaction hhead hp hs hc
  have hstart := applyTransaction_of_cannot_start hidle'
    (Or.inr ⟨inp', hhead', by rw [href']; exact hspent.not_spendable⟩)
  have hblock : applyTransactions [tx, tx'] p.ledger =
      (false, (applyTransaction tx p.ledger).2) := by
    rw [applyTransactions_cons_of_true happly, applyTransactions_cons_of_not_true hstart.1,
      hstart.2]
  have hfalse : (p.applyBlock [tx, tx']).1 = false := applyBlock_fst_of_false (by rw [hblock])
  refine ⟨hfalse, ?_⟩
  intro hsame
  rw [applyBlock_of_false hfalse, hblock] at hsame
  rw [show (applyTransaction tx p.ledger).2 = p.ledger from congrArg BlockProducer.ledger hsame]
    at hspent
  exact hspent.not_spendable hs

/-- Two valid transfers of one output in a block: the second fails, what the first did stays. -/
theorem failed_block_keeps_writes : ∃ (p : BlockProducer) (tx tx' : Transaction),
    p.ledger.Reachable ∧ p.ledger.Accepts tx 0 ∧ p.ledger.Accepts tx' 0 ∧
      (p.applyBlock [tx, tx']).1 = false ∧ (p.applyBlock [tx, tx']).2 ≠ p := by
  obtain ⟨h, -, -, hget⟩ := exists_funded [] (by decide : (0 : ℤ) ≤ 0) (by decide)
  let transfer (value : ℤ) : Transaction :=
    (spending .transfer [(h, 1)] none { value := value, address := [] } 0).signedBy []
  have haccepts : ∀ value, 546 ≤ value → value ≤ 900000 →
      (funded [] 0).Accepts (transfer value) 0 := by
    intro value hlow hhigh
    apply accepts_transfer_spending <;> simp [UtxoSet.valueAt, hget, UtxoSet.newUtxo,
      authRegistry_funded, AuthRegistry.isRegistered] <;> omega
  have hrefs : ∀ value, (transfer value).refs = [(h, 1)] := by
    intro value
    simp [transfer, Transaction.refs_signedBy]
  have ha := haccepts 900000 (by decide) (by decide)
  have hp : (transfer 900000).Packable := ha.packable (by simp [transfer])
  have happly := (applyTransaction_returns_true_iff ha).mpr ⟨by rw [hrefs]; simp, hp⟩
  exact ⟨{ validatorId := [], ledger := funded [] 0 }, transfer 900000, transfer 800000,
    reachable_funded [] 0, ha, haccepts 800000 (by decide) (by decide),
    failed_block_of_conflict (hrefs _) (hrefs _) ⟨_, hget, rfl⟩ hp (not_creates_spending [] h)
      happly⟩

end BlockProducer

end Qrtb
