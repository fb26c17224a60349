import Qrtb.Wallet.Tracking
import Qrtb.Lib.Transition

/-!
# The books of a wallet in use (`src/wallet.py`)

A wallet in use sends what it builds, receives outputs and hears of confirmations, in
any order, while its keys are used and rotated. As long as every transaction has a new
hash and no output is received twice, the wallet never spends an output twice, knows
of every output whether and by what it was spent, and its balances account for all
that came in and went out.
-/

namespace Qrtb

open Stateful Transition

namespace Wallet

/-- What is done with a wallet. A transaction that is sent is built and submitted. -/
inductive Use where
  | keys (call : KeyManager.Call)
  | build (fresh : Fresh) (b : Builder)
  | send (fresh : Fresh) (b : Builder)
  | receive (txHash : Bytes) (outputIndex : ℤ) (output : TxOutput) (epoch : ℤ)
  | confirm (txHash : Bytes)
  | confirmRotation
  | syncEpoch (epoch : ℤ)

/-- A wallet with the transactions it has sent and what has come in from others. -/
structure Account (S : Type) where
  wallet : Wallet S
  sent : List Transaction := []
  income : ℤ := 0

variable {S : Type}

/-- What the outputs at other addresses of the wallet are worth. -/
def paidElsewhere (w : Wallet S) (tx : Transaction) : ℤ := w.paidToUs tx - paidTo w.address tx

variable [SeedSpace S]

def Use.act : Use → Account S → Account S
  | .keys call, t => { t with wallet := (onKeys (KeyManager.apply call) t.wallet).2 }
  | .build fresh b, t => { t with wallet := (b.create fresh t.wallet).2 }
  | .send fresh b, t =>
    let built := b.create fresh t.wallet
    match built.1 with
    | .ok (some tx) =>
      let submitted := submitTransaction tx built.2
      { t with
        wallet := submitted.2
        sent := if submitted.1 = .ok () then t.sent ++ [tx] else t.sent }
    | _ => { t with wallet := built.2 }
  | .receive txHash outputIndex output epoch, t =>
    { t with
      wallet := (addUtxo txHash outputIndex output epoch t.wallet).2
      income := t.income + output.value }
  | .confirm txHash, t =>
    { t with
      wallet := (confirmTransaction txHash t.wallet).2
      income := t.income +
        ((t.wallet.pendingTxs.get? txHash).map t.wallet.paidElsewhere).getD 0 }
  | .confirmRotation, t => { t with wallet := (Wallet.confirmRotation t.wallet).2 }
  | .syncEpoch epoch, t => { t with wallet := (Wallet.syncEpoch epoch t.wallet).2 }

/-- The hash of what is sent is new, and so is the output that is received. -/
def Use.New (t : Account S) : Use → Prop
  | .send fresh b => ∀ tx txHash, (b.create fresh t.wallet).1 = .ok (some tx) →
      tx.txHash = .ok txHash → (∀ tx' ∈ t.sent, tx'.txHash ≠ .ok txHash) ∧
        ∀ i : ℤ, t.wallet.utxos.get? (txHash, i) = none
  | .receive txHash outputIndex _ _ =>
    t.wallet.utxos.get? (txHash, outputIndex) = none ∧ ∀ tx ∈ t.sent, tx.txHash ≠ .ok txHash
  | _ => True

/-- What went out with a transaction, less what it pays back. -/
def outgo (w : Wallet S) (tx : Transaction) : ℤ := w.spentValue tx - paidTo w.address tx

/-- The outputs and the transactions that spend them. -/
structure Entries (utxos : OrderedDict OutRef Utxo) (sent : List Transaction) : Prop where
  keyed : ∀ key u, utxos.get? key = some u → u.ref = key
  once : (sent.flatMap Transaction.refs).Nodup
  unspent : ∀ key u, utxos.get? key = some u → key ∉ sent.flatMap Transaction.refs →
    u.isSpent = false
  spent : ∀ tx ∈ sent, ∀ ref ∈ tx.refs, ∃ u, utxos.get? ref = some u ∧ u.isSpent = true ∧
    u.spentBy.map Except.ok = some tx.txHash

/-- What was sent is pending, and then none of its outputs is there yet, or it was confirmed. -/
structure Outstanding (utxos : OrderedDict OutRef Utxo) (pendingTxs : OrderedDict Bytes Transaction)
    (txHistory : List Bytes) (sent : List Transaction) : Prop where
  pending : ∀ txHash tx, pendingTxs.get? txHash = some tx →
    tx ∈ sent ∧ tx.txHash = .ok txHash ∧ ∀ i : ℤ, utxos.get? (txHash, i) = none
  settled : ((pendingTxs.keys ++ txHistory).map Except.ok).Perm (sent.map Transaction.txHash)

namespace Entries

variable {utxos utxos' : OrderedDict OutRef Utxo} {sent : List Transaction}

theorem empty : Entries ∅ [] := by
  refine ⟨?_, List.nodup_nil, ?_, ?_⟩
  · intro key u hu
    cases hu
  · intro key u hu
    cases hu
  · intro tx htx
    cases htx

theorem submit (h : Entries utxos sent) {tx : Transaction} {txHash : Bytes}
    (hhash : tx.txHash = .ok txHash) (hdistinct : tx.refs.Nodup)
    (hunspent : ∀ ref ∈ tx.refs, ∃ u, utxos.get? ref = some u ∧ u.isSpent = false)
    (hget : ∀ key, utxos'.get? key = if key ∈ tx.refs
      then (utxos.get? key).map fun u => u.markSpent txHash else utxos.get? key) :
    Entries utxos' (sent ++ [tx]) := by
  have hfresh : ∀ ref ∈ tx.refs, ref ∉ sent.flatMap Transaction.refs := by
    intro ref href hold
    obtain ⟨tx', htx', href'⟩ := List.mem_flatMap.mp hold
    obtain ⟨u, hu, hfree⟩ := hunspent ref href
    obtain ⟨u', hu', hspent, -⟩ := h.spent tx' htx' ref href'
    cases hu.symm.trans hu'
    cases hfree.symm.trans hspent
  constructor
  · intro key u hu
    rw [hget] at hu
    split_ifs at hu
    · obtain ⟨v, hv, rfl⟩ := Option.map_eq_some_iff.mp hu
      exact h.keyed key v hv
    · exact h.keyed key u hu
  · rw [List.flatMap_append, List.flatMap_singleton]
    refine List.nodup_append.mpr ⟨h.once, hdistinct, ?_⟩
    rintro ref hold _ hnew rfl
    exact hfresh ref hnew hold
  · intro key u hu hkey
    rw [List.flatMap_append, List.flatMap_singleton, List.mem_append, not_or] at hkey
    rw [hget, if_neg hkey.2] at hu
    exact h.unspent key u hu hkey.1
  · intro tx' htx' ref href
    rcases List.mem_append.mp htx' with hold | hlast
    · have hother : ref ∉ tx.refs := fun hnew =>
        hfresh ref hnew (List.mem_flatMap.mpr ⟨tx', hold, href⟩)
      rw [hget, if_neg hother]
      exact h.spent tx' hold ref href
    · obtain rfl := List.mem_singleton.mp hlast
      obtain ⟨u, hu, -⟩ := hunspent ref href
      exact ⟨u.markSpent txHash, by rw [hget, if_pos href, hu]; rfl, rfl, by rw [hhash]; rfl⟩

theorem insert (h : Entries utxos sent)
    (hnew : ∀ key u, utxos'.get? key = some u → utxos.get? key = some u ∨
      utxos.get? key = none ∧ u.ref = key ∧ u.isSpent = false)
    (hkept : ∀ key u, utxos.get? key = some u → utxos'.get? key = some u) :
    Entries utxos' sent := by
  refine ⟨?_, h.once, ?_, ?_⟩
  · intro key u hu
    rcases hnew key u hu with hold | ⟨-, href, -⟩
    · exact h.keyed key u hold
    · exact href
  · intro key u hu hkey
    rcases hnew key u hu with hold | ⟨-, -, hfree⟩
    · exact h.unspent key u hold hkey
    · exact hfree
  · intro tx htx ref href
    obtain ⟨u, hu, hspent⟩ := h.spent tx htx ref href
    exact ⟨u, hkept ref u hu, hspent⟩

end Entries

namespace Outstanding

variable {utxos utxos' : OrderedDict OutRef Utxo} {pendingTxs : OrderedDict Bytes Transaction}
  {txHistory : List Bytes} {sent : List Transaction}

theorem empty (utxos : OrderedDict OutRef Utxo) : Outstanding utxos ∅ [] [] := by
  refine ⟨?_, .nil⟩
  intro txHash tx htx
  cases htx

theorem get?_eq_none (h : Outstanding utxos pendingTxs txHistory sent) {txHash : Bytes}
    (hnew : ∀ tx ∈ sent, tx.txHash ≠ .ok txHash) : pendingTxs.get? txHash = none := by
  cases hheld : pendingTxs.get? txHash with
  | none => rfl
  | some tx =>
    obtain ⟨hsent, hhash, -⟩ := h.pending txHash tx hheld
    exact absurd hhash (hnew tx hsent)

theorem submit (h : Outstanding utxos pendingTxs txHistory sent) {tx : Transaction} {txHash : Bytes}
    (hhash : tx.txHash = .ok txHash) (hnew : ∀ tx' ∈ sent, tx'.txHash ≠ .ok txHash)
    (hnone : ∀ i : ℤ, utxos.get? (txHash, i) = none)
    (hkept : ∀ key, utxos.get? key = none → utxos'.get? key = none) :
    Outstanding utxos' (pendingTxs.set txHash tx) txHistory (sent ++ [tx]) := by
  constructor
  · intro key tx' htx'
    rcases OrderedDict.get?_set_eq_some.mp htx' with ⟨rfl, rfl⟩ | ⟨-, hold⟩
    · exact ⟨List.mem_append_right _ (List.mem_singleton_self _), hhash, fun i =>
        hkept _ (hnone i)⟩
    · obtain ⟨hsent, hhash', hunborn⟩ := h.pending key tx' hold
      exact ⟨List.mem_append_left _ hsent, hhash', fun i => hkept _ (hunborn i)⟩
  · have hkeys : txHash ∉ pendingTxs.keys := by
      rw [OrderedDict.mem_keys_iff, h.get?_eq_none hnew]
      rintro ⟨_, hcontra⟩
      cases hcontra
    have hmoved : (pendingTxs.keys ++ [txHash] ++ txHistory).Perm
        (pendingTxs.keys ++ txHistory ++ [txHash]) := by
      rw [List.append_assoc, List.append_assoc]
      exact List.perm_append_comm.append_left _
    have hsent : (sent ++ [tx]).map Transaction.txHash =
        sent.map Transaction.txHash ++ [Except.ok txHash] := by
      rw [List.map_append, List.map_singleton, hhash]
    rw [OrderedDict.keys_set, if_neg hkeys, hsent]
    refine (hmoved.map Except.ok).trans ?_
    rw [List.map_append, List.map_singleton]
    exact h.settled.append_right _

theorem of_utxos (h : Outstanding utxos pendingTxs txHistory sent)
    (hkept : ∀ txHash, ∀ i : ℤ, pendingTxs.contains txHash = true →
      utxos.get? (txHash, i) = none → utxos'.get? (txHash, i) = none) :
    Outstanding utxos' pendingTxs txHistory sent := by
  refine ⟨fun txHash tx htx => ?_, h.settled⟩
  obtain ⟨hsent, hhash, hunborn⟩ := h.pending txHash tx htx
  refine ⟨hsent, hhash, fun i => hkept txHash i ?_ (hunborn i)⟩
  rw [OrderedDict.contains, htx]
  rfl

theorem confirm (h : Outstanding utxos pendingTxs txHistory sent) {tx : Transaction}
    {txHash : Bytes}
    (htx : pendingTxs.get? txHash = some tx)
    (hkept : ∀ key, key.1 ≠ txHash → utxos'.get? key = utxos.get? key) :
    Outstanding utxos' (pendingTxs.erase txHash) (txHistory ++ [txHash]) sent := by
  constructor
  · intro key tx' htx'
    obtain ⟨hne, hold⟩ := OrderedDict.get?_erase_eq_some.mp htx'
    obtain ⟨hsent, hhash, hunborn⟩ := h.pending key tx' hold
    exact ⟨hsent, hhash, fun i => (hkept (key, i) hne).trans (hunborn i)⟩
  · refine List.Perm.trans (List.Perm.map _ ?_) h.settled
    have hkeys := (OrderedDict.perm_keys_erase htx).append_right txHistory
    refine List.Perm.trans ?_ hkeys
    rw [← List.append_assoc]
    exact List.perm_append_singleton ..

end Outstanding

/-- The books are right: the balances and what went out are what came in. -/
structure Account.Exact (t : Account S) : Prop where
  entries : Entries t.wallet.utxos t.sent
  outstanding : Outstanding t.wallet.utxos t.wallet.pendingTxs t.wallet.txHistory t.sent
  money : t.wallet.holdings + t.wallet.pendingBalance + (t.sent.map t.wallet.outgo).sum = t.income

omit [SeedSpace S] in
theorem outgo_congr {w w' : Wallet S} {tx : Transaction} (haddress : w'.address = w.address)
    (hvalue : ∀ ref ∈ tx.refs, w'.valueAt ref = w.valueAt ref) : w'.outgo tx = w.outgo tx := by
  rw [outgo, outgo, spentValue, spentValue, haddress, List.map_congr_left hvalue]

omit [SeedSpace S] in
theorem valueAt_eq {w w' : Wallet S} {ref : OutRef}
    (h : (w'.utxos.get? ref).map Utxo.output = (w.utxos.get? ref).map Utxo.output) :
    w'.valueAt ref = w.valueAt ref := by
  have hvalues := congrArg (fun o => (o.map TxOutput.value).getD 0) h
  rw [valueAt, valueAt]
  simpa only [Option.map_map, Function.comp_def] using hvalues

namespace Account.Exact

variable {t : Account S}

omit [SeedSpace S] in
theorem init (w : Wallet S) (hutxos : w.utxos = ∅) (hpending : w.pendingTxs = ∅)
    (hhistory : w.txHistory = []) : Exact { wallet := w } where
  entries := by
    rw [hutxos]
    exact .empty
  outstanding := by
    rw [hpending, hhistory]
    exact .empty _
  money := by
    rw [holdings, pendingBalance, hutxos, hpending]
    rfl

omit [SeedSpace S] in
theorem of_same (h : t.Exact) {w : Wallet S} (hutxos : w.utxos = t.wallet.utxos)
    (hpending : w.pendingTxs = t.wallet.pendingTxs) (hhistory : w.txHistory = t.wallet.txHistory)
    (haddress : w.address = t.wallet.address) : Exact { t with wallet := w } where
  entries := by
    rw [hutxos]
    exact h.entries
  outstanding := by
    rw [hutxos, hpending, hhistory]
    exact h.outstanding
  money := by
    have houtgo : ∀ tx ∈ t.sent, w.outgo tx = t.wallet.outgo tx := fun tx _ =>
      outgo_congr haddress fun ref _ => valueAt_eq (by rw [hutxos])
    have hmoney := h.money
    rw [holdings, pendingBalance] at hmoney
    rw [holdings, pendingBalance, hutxos, hpending, haddress, List.map_congr_left houtgo]
    exact hmoney

omit [SeedSpace S] in
theorem aside (h : t.Exact) {α : Type} {x : Stateful (Wallet S) α}
    (hx : ∀ I : Wallet S → Prop, AsideKeys I → Preserves I x) :
    Exact { t with wallet := (x t.wallet).2 } := by
  have hkept := hx (fun w => w.utxos = t.wallet.utxos ∧ w.pendingTxs = t.wallet.pendingTxs ∧
    w.txHistory = t.wallet.txHistory ∧ w.address = t.wallet.address)
    (fun w k hk hw => ⟨hw.1, hw.2.1, hw.2.2.1, hk.trans hw.2.2.2⟩) t.wallet ⟨rfl, rfl, rfl, rfl⟩
  exact h.of_same hkept.1 hkept.2.1 hkept.2.2.1 hkept.2.2.2

omit [SeedSpace S] in
theorem submit (h : t.Exact) {tx : Transaction} {txHash : Bytes} (hhash : tx.txHash = .ok txHash)
    (hspendable : t.wallet.Spendable tx) (hnew : ∀ tx' ∈ t.sent, tx'.txHash ≠ .ok txHash)
    (hnone : ∀ i : ℤ, t.wallet.utxos.get? (txHash, i) = none) :
    Exact { t with wallet := (submitTransaction tx t.wallet).2, sent := t.sent ++ [tx] } := by
  obtain ⟨utxos, heq, hget, hsum⟩ := submitTransaction_eq hhash hspendable
  obtain ⟨w, hw⟩ : ∃ w, w = { t.wallet with
    utxos := utxos, pendingTxs := t.wallet.pendingTxs.set txHash tx } := ⟨_, rfl⟩
  have houtgo : ∀ tx', w.outgo tx' = t.wallet.outgo tx' := by
    intro tx'
    refine outgo_congr (by rw [hw]; rfl) fun ref _ => valueAt_eq ?_
    rw [hw, hget]
    split_ifs
    · rw [Option.map_map]
      rfl
    · rfl
  rw [heq]
  refine ⟨h.entries.submit hhash hspendable.distinct hspendable.unspent hget,
    h.outstanding.submit hhash hnew hnone fun key hkey => ?_, ?_⟩
  · rw [hget, hkey]
    split_ifs <;> rfl
  · have hpending := OrderedDict.sumBy_set (paidTo t.wallet.address) t.wallet.pendingTxs txHash tx
    rw [OrderedDict.weightAt, h.outstanding.get?_eq_none hnew, Option.map_none,
      Option.getD_none] at hpending
    have hmoney := h.money
    change utxos.sumBy Utxo.unspentValue +
      (t.wallet.pendingTxs.set txHash tx).sumBy (paidTo t.wallet.address) + _ = t.income
    rw [← hw, List.map_congr_left fun tx' _ => houtgo tx', List.map_append, List.sum_append,
      List.map_singleton, List.sum_singleton, hsum, hpending, outgo]
    rw [pendingBalance] at hmoney
    omega

omit [SeedSpace S] in
theorem receive (h : t.Exact) {txHash : Bytes} {outputIndex : ℤ}
    (hnone : t.wallet.utxos.get? (txHash, outputIndex) = none)
    (hnew : ∀ tx ∈ t.sent, tx.txHash ≠ .ok txHash) (output : TxOutput) (epoch : ℤ) :
    Exact { t with
      wallet := (addUtxo txHash outputIndex output epoch t.wallet).2
      income := t.income + output.value } := by
  obtain ⟨u, hu⟩ : ∃ u : Utxo, u = ⟨txHash, outputIndex, output, epoch, false, none⟩ := ⟨_, rfl⟩
  have heq : (addUtxo txHash outputIndex output epoch t.wallet).2 =
      { t.wallet with utxos := t.wallet.utxos.set (txHash, outputIndex) u } := by
    rw [hu]
    rfl
  have hkept : ∀ key v, t.wallet.utxos.get? key = some v →
      (t.wallet.utxos.set (txHash, outputIndex) u).get? key = some v := by
    rintro key v hv
    rw [OrderedDict.get?_set_of_ne, hv]
    rintro rfl
    cases hnone.symm.trans hv
  obtain ⟨w, hw⟩ : ∃ w, w = { t.wallet with
    utxos := t.wallet.utxos.set (txHash, outputIndex) u } := ⟨_, rfl⟩
  have houtgo : ∀ tx ∈ t.sent, w.outgo tx = t.wallet.outgo tx := by
    intro tx htx
    refine outgo_congr (by rw [hw]; rfl) fun ref href => valueAt_eq ?_
    obtain ⟨v, hv, -⟩ := h.entries.spent tx htx ref href
    rw [hw, hkept ref v hv, hv]
  rw [heq]
  refine ⟨h.entries.insert ?_ hkept, h.outstanding.of_utxos ?_, ?_⟩
  · intro key v hv
    rcases OrderedDict.get?_set_eq_some.mp hv with ⟨rfl, rfl⟩ | ⟨-, hold⟩
    · exact Or.inr ⟨hnone, by rw [hu]; rfl, by rw [hu]⟩
    · exact Or.inl hold
  · intro key i hheld hunborn
    rw [OrderedDict.get?_set_of_ne, hunborn]
    rintro hsame
    rw [OrderedDict.contains, (Prod.mk.inj hsame).1, h.outstanding.get?_eq_none hnew] at hheld
    cases hheld
  · have hmoney := h.money
    change (t.wallet.utxos.set (txHash, outputIndex) u).sumBy Utxo.unspentValue +
      t.wallet.pendingBalance + _ = t.income + output.value
    rw [← hw, List.map_congr_left houtgo, OrderedDict.sumBy_set, OrderedDict.weightAt, hnone, hu]
    rw [holdings] at hmoney
    simp only [Option.map_none, Option.getD_none, Utxo.unspentValue, Bool.false_eq_true, if_false]
    omega

omit [SeedSpace S] in
theorem confirm (h : t.Exact) (txHash : Bytes) :
    Exact { t with
      wallet := (confirmTransaction txHash t.wallet).2
      income := t.income +
        ((t.wallet.pendingTxs.get? txHash).map t.wallet.paidElsewhere).getD 0 } := by
  cases hheld : t.wallet.pendingTxs.get? txHash with
  | none =>
    rw [confirmTransaction_none hheld, Option.map_none, Option.getD_none, add_zero]
    exact h.of_same rfl (OrderedDict.erase_eq_self hheld) rfl rfl
  | some tx =>
    obtain ⟨-, hhash, hunborn⟩ := h.outstanding.pending txHash tx hheld
    obtain ⟨utxos, heq, hother, hcases, hsum⟩ := confirmTransaction_eq hheld hhash
      fun i => hunborn i
    have hnone : ∀ key : OutRef, key.1 = txHash → t.wallet.utxos.get? key = none := by
      rintro ⟨_, i⟩ rfl
      exact hunborn i
    have hkept : ∀ key v, t.wallet.utxos.get? key = some v → utxos.get? key = some v := by
      intro key v hv
      rw [hother key, hv]
      intro hkey
      cases (hnone key hkey).symm.trans hv
    have hpaid : t.wallet.paidToUs tx =
        paidTo t.wallet.address tx + t.wallet.paidElsewhere tx := by
      rw [paidElsewhere]
      omega
    obtain ⟨w, hw⟩ : ∃ w, w = { t.wallet with
      utxos := utxos
      pendingTxs := t.wallet.pendingTxs.erase txHash
      txHistory := t.wallet.txHistory ++ [txHash] } := ⟨_, rfl⟩
    have houtgo : ∀ tx' ∈ t.sent, w.outgo tx' = t.wallet.outgo tx' := by
      intro tx' htx'
      refine outgo_congr (by rw [hw]; rfl) fun ref href => valueAt_eq ?_
      obtain ⟨v, hv, -⟩ := h.entries.spent tx' htx' ref href
      rw [hw, hkept ref v hv, hv]
    rw [heq, Option.map_some, Option.getD_some]
    refine ⟨h.entries.insert ?_ hkept, h.outstanding.confirm hheld hother, ?_⟩
    · intro key v hv
      rcases hcases key v hv with hold | ⟨hkey, href, hfree⟩
      · exact Or.inl hold
      · exact Or.inr ⟨hnone key hkey, href, hfree⟩
    · have hmoney := h.money
      have hpending := OrderedDict.sumBy_erase (paidTo t.wallet.address) t.wallet.pendingTxs txHash
      rw [OrderedDict.weightAt, hheld, Option.map_some, Option.getD_some] at hpending
      change utxos.sumBy Utxo.unspentValue +
        (t.wallet.pendingTxs.erase txHash).sumBy (paidTo t.wallet.address) + _ =
          t.income + t.wallet.paidElsewhere tx
      rw [← hw, List.map_congr_left houtgo, hsum, hpending, hpaid]
      rw [pendingBalance] at hmoney
      omega

theorem send (h : t.Exact) {fresh : Fresh} {b : Builder} (hnew : (Use.send fresh b).New t) :
    Exact ((Use.send fresh b).act t) := by
  have hbuilt : Exact { t with wallet := (b.create fresh t.wallet).2 } :=
    h.aside fun I hI => hI.create fresh b
  have hsame : (b.create fresh t.wallet).2.utxos = t.wallet.utxos :=
    AsideKeys.create (I := fun w => w.utxos = t.wallet.utxos) (fun _ _ _ hw => hw) fresh b
      t.wallet rfl
  rw [Use.act]
  dsimp only
  split
  next tx htx =>
    obtain ⟨hdistinct, hunspent⟩ := spendable_of_create h.entries.keyed htx
    cases hhash : tx.txHash with
    | error e =>
      rw [submitTransaction_error hhash, if_neg (by simp)]
      exact hbuilt
    | ok txHash =>
      obtain ⟨hfresh, hnone⟩ := hnew tx txHash htx hhash
      rw [← hsame] at hunspent hnone
      have hspendable : Spendable (b.create fresh t.wallet).2 tx := ⟨hdistinct, hunspent⟩
      obtain ⟨utxos, heq, -⟩ := submitTransaction_eq hhash hspendable
      have hsubmitted := hbuilt.submit hhash hspendable hfresh hnone
      rw [heq] at hsubmitted ⊢
      rw [if_pos rfl]
      exact hsubmitted
  next => exact hbuilt

theorem act (h : t.Exact) {e : Use} (hnew : e.New t) : Exact (e.act t) := by
  cases e with
  | keys call => exact h.aside fun I hI => hI.keys call
  | build fresh b => exact h.aside fun I hI => hI.create fresh b
  | send fresh b => exact h.send hnew
  | receive txHash outputIndex output epoch => exact h.receive hnew.1 hnew.2 output epoch
  | confirm txHash => exact h.confirm txHash
  | confirmRotation => exact h.aside fun I hI => hI.onKeys address_executeRotation
  | syncEpoch epoch =>
    rw [Use.act, Wallet.syncEpoch, reads_bind]
    split_ifs
    · exact h.of_same rfl rfl rfl rfl
    · exact h

end Account.Exact

/-- In every use of a wallet in which hashes and received outputs are new, no output is spent twice,
the wallet knows of each of its outputs by which transaction it is spent, every transaction is
pending or was confirmed once, and the balance, what is pending, what is locked and what went out
are together what came in. -/
theorem books_exact (config : WalletConfig) (masterSeed : S) {uses : List Use} {t : Account S}
    (hrun : Run (fun t e t' => e.New t ∧ t' = e.act t) { wallet := Wallet.init config masterSeed }
      uses t) :
    (t.sent.flatMap Transaction.refs).Nodup ∧
      (∀ key u, t.wallet.utxos.get? key = some u →
        (u.isSpent = true ↔ ∃ tx ∈ t.sent, key ∈ tx.refs) ∧
        ∀ tx ∈ t.sent, key ∈ tx.refs → u.spentBy.map Except.ok = some tx.txHash) ∧
      ((t.wallet.pendingTxs.keys ++ t.wallet.txHistory).map Except.ok).Perm
        (t.sent.map Transaction.txHash) ∧
      t.wallet.totalBalance + t.wallet.locked + (t.sent.map t.wallet.outgo).sum = t.income := by
  have h : t.Exact := hrun.invariant (I := Account.Exact)
    (fun t e t' ht hstep => by
      rw [hstep.2]
      exact ht.act hstep.1) (Account.Exact.init _ rfl rfl rfl)
  refine ⟨h.entries.once, ?_, h.outstanding.settled, ?_⟩
  · intro key u hu
    constructor
    · constructor
      · intro hspent
        by_contra hnone
        have hkey : key ∉ t.sent.flatMap Transaction.refs := by
          rw [List.mem_flatMap]
          exact hnone
        cases hspent.symm.trans (h.entries.unspent key u hu hkey)
      · rintro ⟨tx, htx, hkey⟩
        obtain ⟨v, hv, hspent, -⟩ := h.entries.spent tx htx key hkey
        cases hu.symm.trans hv
        exact hspent
    · intro tx htx hkey
      obtain ⟨v, hv, -, hby⟩ := h.entries.spent tx htx key hkey
      cases hu.symm.trans hv
      exact hby
  · have hbalance := balance_add_locked t.wallet
    have hmoney := h.money
    rw [totalBalance]
    omega

section Example

/-- An output comes in and a part of it is paid to somebody else. -/
def exampleIncome : Account Bytes :=
  (Use.receive [] 0 { value := 1000000, address := [] } 0).act
    { wallet := Wallet.init {} KeyManager.exampleSeed }

def examplePayment : Use :=
  .send ⟨0, List.replicate 8 0⟩ (.spending (.transfer (List.replicate 64 1) 5000 none))

theorem books_exact_payment :
    (examplePayment.act exampleIncome).wallet.totalBalance +
      (examplePayment.act exampleIncome).wallet.locked +
      ((examplePayment.act exampleIncome).sent.map
        (examplePayment.act exampleIncome).wallet.outgo).sum =
      (examplePayment.act exampleIncome).income := by
  have hreceived : (Use.receive [] 0 { value := 1000000, address := [] } 0).New
      ({ wallet := Wallet.init {} KeyManager.exampleSeed } : Account Bytes) := ⟨rfl, by simp⟩
  have hnew : examplePayment.New exampleIncome := by
    intro tx txHash _ hhash
    refine ⟨by simp [exampleIncome, Use.act], fun i => ?_⟩
    have hlength : txHash.length = 32 := by
      obtain ⟨data, -, hdata⟩ := Except.bind_eq_ok.mp hhash
      rw [← Except.ok.inj hdata]
      exact Keccak.length_sha3_256 _
    have hne : (txHash, i) ≠ (([], 0) : OutRef) := by
      intro hsame
      rw [(Prod.mk.inj hsame).1] at hlength
      cases hlength
    exact OrderedDict.get?_set_of_ne _ hne _
  exact (books_exact {} KeyManager.exampleSeed (.cons ⟨hreceived, rfl⟩ (.single ⟨hnew, rfl⟩))).2.2.2

end Example

end Wallet

end Qrtb
