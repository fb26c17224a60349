import Qrtb.Ledger.Transaction
import Qrtb.Lib.OrderedDict
import Mathlib.Data.Finset.Basic

/-!
# The UTXO set and the auth registry (`src/transaction.py`)

The UTXO set keeps every output ever added under its `(tx_hash, index)` key; a
spent output stays with its flag set. Assigning to a key that exists replaces
the entry. The auth registry maps each registered address to its current root.
-/

namespace Qrtb

structure Utxo where
  txHash : Bytes
  outputIndex : ℤ
  output : TxOutput
  epochCreated : ℤ
  isSpent : Bool := false
  spentBy : Option Bytes := none
  deriving DecidableEq

def Utxo.markSpent (u : Utxo) (spendingTx : Bytes) : Utxo :=
  { u with isSpent := true, spentBy := some spendingTx }

/-- What an entry contributes to the unspent total. -/
def Utxo.unspentValue (u : Utxo) : ℤ := if u.isSpent then 0 else u.output.value

structure UtxoSet where
  utxos : OrderedDict OutRef Utxo := ∅
  byAddress : OrderedDict Bytes (Finset OutRef) := ∅
  staked : OrderedDict Bytes ℤ := ∅
  deriving DecidableEq

namespace UtxoSet

variable (s : UtxoSet)

def getUtxo (txHash : Bytes) (outputIndex : ℤ) : Option Utxo := s.utxos.get? (txHash, outputIndex)

def addUtxo (txHash : Bytes) (outputIndex : ℤ) (output : TxOutput) (epoch : ℤ) : UtxoSet :=
  let key := (txHash, outputIndex)
  { s with
    utxos := s.utxos.set key { txHash, outputIndex, output, epochCreated := epoch }
    byAddress := s.byAddress.set output.address
      (insert key (s.byAddress.getD output.address ∅)) }

/-- The record is marked in place; an absent or spent output gives `None` and no change. -/
def spendUtxo (txHash : Bytes) (outputIndex : ℤ) (spendingTx : Bytes) : Option Utxo × UtxoSet :=
  let key := (txHash, outputIndex)
  match s.utxos.get? key with
  | none => (none, s)
  | some utxo =>
    if utxo.isSpent then (none, s)
    else
      (some (utxo.markSpent spendingTx),
        { s with
          utxos := s.utxos.set key (utxo.markSpent spendingTx)
          byAddress := s.byAddress.set utxo.output.address
            ((s.byAddress.getD utxo.output.address ∅).erase key) })

def addStake (address : Bytes) (amount : ℤ) : UtxoSet :=
  { s with staked := s.staked.set address (s.staked.getD address 0 + amount) }

/-- `staked.get(address, 0)`. -/
def getStake (s : UtxoSet) (address : Bytes) : ℤ := s.staked.getD address 0

/-- The total value of all unspent outputs. -/
def unspentTotal : ℤ := s.utxos.sumBy Utxo.unspentValue

/-- The value an output reference is worth, zero when it names nothing. -/
def valueAt (k : OutRef) : ℤ := ((s.utxos.get? k).map fun u => u.output.value).getD 0

/-- The reference names an output that is present and not spent. -/
def Spendable (k : OutRef) : Prop := ∃ u, s.utxos.get? k = some u ∧ u.isSpent = false

/-- The reference names an output that is present and spent. -/
def Spent (k : OutRef) : Prop := ∃ u, s.utxos.get? k = some u ∧ u.isSpent = true

theorem Spent.not_spendable {s : UtxoSet} {k : OutRef} (h : s.Spent k) : ¬ s.Spendable k := by
  intro hs
  obtain ⟨u, hu, hus⟩ := hs
  obtain ⟨v, hv, hvs⟩ := h
  obtain rfl := Option.some.inj (hu.symm.trans hv)
  rw [hus] at hvs
  cases hvs

theorem get?_addUtxo (txHash : Bytes) (i : ℤ) (output : TxOutput) (epoch : ℤ) (k : OutRef) :
    (s.addUtxo txHash i output epoch).utxos.get? k =
      if k = (txHash, i) then
        some { txHash, outputIndex := i, output, epochCreated := epoch }
      else s.utxos.get? k := by
  simp [addUtxo, OrderedDict.get?_set]

theorem spendUtxo_cases (txHash : Bytes) (i : ℤ) (t : Bytes) :
    (¬ s.Spendable (txHash, i) ∧ s.spendUtxo txHash i t = (none, s)) ∨
    ∃ u, s.utxos.get? (txHash, i) = some u ∧ u.isSpent = false ∧
      s.spendUtxo txHash i t =
        (some (u.markSpent t),
          { s with
            utxos := s.utxos.set (txHash, i) (u.markSpent t)
            byAddress := s.byAddress.set u.output.address
              ((s.byAddress.getD u.output.address ∅).erase (txHash, i)) }) := by
  unfold spendUtxo Spendable
  cases hg : s.utxos.get? (txHash, i) with
  | none => exact Or.inl ⟨by simp, by simp [hg]⟩
  | some u =>
    cases hs : u.isSpent with
    | true => exact Or.inl ⟨by simp [hs], by simp [hg, hs]⟩
    | false => exact Or.inr ⟨u, rfl, hs, by simp [hg, hs]⟩

theorem staked_spendUtxo (txHash : Bytes) (i : ℤ) (t : Bytes) :
    (s.spendUtxo txHash i t).2.staked = s.staked := by
  rcases s.spendUtxo_cases txHash i t with ⟨-, he⟩ | ⟨u, -, -, he⟩ <;> rw [he]

theorem getStake_addStake (address a : Bytes) (amount : ℤ) :
    (s.addStake address amount).getStake a =
      s.getStake a + if a = address then amount else 0 := by
  rw [getStake, addStake, OrderedDict.getD, OrderedDict.get?_set]
  split_ifs with h
  · rw [h]
    rfl
  · rw [add_zero]
    rfl

end UtxoSet

structure AuthRegistry where
  authRoots : OrderedDict Bytes Bytes := ∅
  registeredAddresses : Finset Bytes := ∅
  rotationCounts : OrderedDict Bytes ℤ := ∅
  deriving DecidableEq

namespace AuthRegistry

variable (r : AuthRegistry)

def isRegistered (address : Bytes) : Bool := address ∈ r.registeredAddresses

def getAuthRoot (address : Bytes) : Option Bytes := r.authRoots.get? address

/-- One-time registration; `False` when the address is already registered. -/
def registerViaTx (address authRoot : Bytes) : Bool × AuthRegistry :=
  if address ∈ r.registeredAddresses then (false, r)
  else
    (true,
      { registeredAddresses := insert address r.registeredAddresses
        authRoots := r.authRoots.set address authRoot
        rotationCounts := r.rotationCounts.set address 0 })

/-- Replace the root of a registered address; `False` when it is not registered. -/
def rotateViaTx (address newAuthRoot : Bytes) : Bool × AuthRegistry :=
  if address ∉ r.registeredAddresses then (false, r)
  else
    (true,
      { r with
        authRoots := r.authRoots.set address newAuthRoot
        rotationCounts := r.rotationCounts.set address (r.rotationCounts.getD address 0 + 1) })

theorem isRegistered_registerViaTx (owner root address : Bytes) :
    (r.registerViaTx owner root).2.isRegistered address =
      (decide (owner = address) || r.isRegistered address) := by
  unfold registerViaTx isRegistered
  split_ifs with h
  · by_cases heq : owner = address
    · simp [← heq, h]
    · simp [heq]
  · simp [Finset.mem_insert, eq_comm]

theorem getAuthRoot_registerViaTx {r : AuthRegistry} {owner : Bytes}
    (h : r.isRegistered owner = false) (root address : Bytes) :
    (r.registerViaTx owner root).2.getAuthRoot address =
      if owner = address then some root else r.getAuthRoot address := by
  rw [isRegistered, decide_eq_false_iff_not] at h
  rw [registerViaTx, if_neg h, getAuthRoot, OrderedDict.get?_set]
  simp only [eq_comm]
  rfl

@[simp] theorem isRegistered_rotateViaTx (owner root address : Bytes) :
    (r.rotateViaTx owner root).2.isRegistered address = r.isRegistered address := by
  unfold rotateViaTx isRegistered
  split_ifs <;> rfl

theorem getAuthRoot_rotateViaTx {r : AuthRegistry} {owner : Bytes}
    (h : r.isRegistered owner = true) (root address : Bytes) :
    (r.rotateViaTx owner root).2.getAuthRoot address =
      if address = owner then some root else r.getAuthRoot address := by
  rw [isRegistered, decide_eq_true_eq] at h
  rw [rotateViaTx, if_neg (not_not.mpr h), getAuthRoot, OrderedDict.get?_set]
  rfl

end AuthRegistry

/-- The state a `TransactionValidator` works on. -/
structure Ledger where
  utxoSet : UtxoSet := {}
  authRegistry : AuthRegistry := {}
  deriving DecidableEq

end Qrtb
