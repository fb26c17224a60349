import Qrtb.Ledger.UtxoSet
import Qrtb.Lib.SecondaryIndex
import Qrtb.Lib.Transition

/-!
# The address index of the UTXO set (`src/transaction.py`)

Balances are read through `by_address`. The index has the keys of the unspent
outputs of every address, as long as a key that is added again has the address it
had before; a spent entry under the key does not matter.
-/

namespace Qrtb

open Transition

namespace UtxoSet

/-- `self.by_address.get(address, set())`. -/
def keysOf (s : UtxoSet) (address : Bytes) : Finset OutRef := s.byAddress.getD address ∅

/-- One round of the loop of `get_balance`. -/
def addValue (s : UtxoSet) (currentEpoch : ℤ) (total : ℤ) (key : OutRef) : ℤ :=
  match s.utxos.get? key with
  | none => total
  | some utxo =>
    if utxo.isSpent then total
    else if utxo.output.lockEpoch ≤ currentEpoch then total + utxo.output.value else total

/-- One round of the loop of `get_utxos_for_address`. -/
def collect (s : UtxoSet) (currentEpoch : ℤ) (result : List Utxo) (key : OutRef) : List Utxo :=
  match s.utxos.get? key with
  | none => result
  | some utxo =>
    if utxo.isSpent then result
    else if utxo.output.lockEpoch ≤ currentEpoch then result ++ [utxo] else result

def getBalance (order : SetIteration OutRef) (address : Bytes) (currentEpoch : ℤ) (s : UtxoSet) : ℤ :=
  (order.keys (s.keysOf address)).foldl (s.addValue currentEpoch) 0

def getUtxosForAddress (order : SetIteration OutRef) (address : Bytes) (currentEpoch : ℤ)
    (s : UtxoSet) : List Utxo :=
  (order.keys (s.keysOf address)).foldl (s.collect currentEpoch) []

/-- The address an output is indexed under. -/
def ownerOf (u : Utxo) : Option Bytes := if u.isSpent then none else some u.output.address

theorem ownerOf_eq_some {u : Utxo} {address : Bytes} :
    ownerOf u = some address ↔ u.isSpent = false ∧ u.output.address = address := by
  unfold ownerOf
  cases u.isSpent <;> simp

/-- Every unspent output is indexed under its address, and nothing else is. -/
def Indexed (s : UtxoSet) : Prop := OrderedDict.Indexes ownerOf s.utxos s.keysOf

def spendableOf (s : UtxoSet) (address : Bytes) (currentEpoch : ℤ) : List Utxo :=
  s.utxos.values.filter fun u =>
    u.isSpent = false ∧ u.output.address = address ∧ u.output.lockEpoch ≤ currentEpoch

theorem foldl_collect (s : UtxoSet) (currentEpoch : ℤ) (keys : List OutRef) (result : List Utxo) :
    keys.foldl (s.collect currentEpoch) result =
      result ++ (keys.filterMap s.utxos.get?).filter fun u =>
        u.isSpent = false ∧ u.output.lockEpoch ≤ currentEpoch := by
  induction keys generalizing result with
  | nil => simp
  | cons key keys ih =>
    rw [List.foldl_cons, ih]
    cases hkey : s.utxos.get? key with
    | none => simp [collect, hkey]
    | some u =>
      cases hspent : u.isSpent with
      | true => simp [collect, hkey, hspent]
      | false =>
        by_cases hlock : u.output.lockEpoch ≤ currentEpoch
        · simp [collect, hkey, hspent, hlock]
        · simp [collect, hkey, hspent, hlock]

theorem foldl_addValue (s : UtxoSet) (currentEpoch : ℤ) (keys : List OutRef) {total : ℤ}
    {result : List Utxo} (h : total = (result.map fun u => u.output.value).sum) :
    keys.foldl (s.addValue currentEpoch) total =
      ((keys.foldl (s.collect currentEpoch) result).map fun u => u.output.value).sum := by
  induction keys generalizing total result with
  | nil => exact h
  | cons key keys ih =>
    rw [List.foldl_cons, List.foldl_cons]
    apply ih
    unfold addValue collect
    split
    next => exact h
    next u _ =>
      split_ifs
      · exact h
      · rw [h, List.map_append, List.sum_append]
        simp
      · exact h

/-- The balance is the sum over the outputs that are listed for the address. -/
theorem getBalance_eq_sum (order : SetIteration OutRef) (address : Bytes) (currentEpoch : ℤ)
    (s : UtxoSet) :
    s.getBalance order address currentEpoch =
      ((s.getUtxosForAddress order address currentEpoch).map fun u => u.output.value).sum :=
  foldl_addValue s currentEpoch _ rfl

/-- With an exact index the spendable outputs of an address are found, each of them once. -/
theorem Indexed.getUtxosForAddress_perm {s : UtxoSet} (h : s.Indexed) (order : SetIteration OutRef)
    (address : Bytes) (currentEpoch : ℤ) :
    (s.getUtxosForAddress order address currentEpoch).Perm (s.spendableOf address currentEpoch) := by
  rw [getUtxosForAddress, foldl_collect, List.nil_append]
  refine ((h.perm_filterMap order address).filter _).trans (List.Perm.of_eq ?_)
  rw [spendableOf, List.filter_filter]
  apply List.filter_congr
  intro u _
  rw [← Bool.decide_and, decide_eq_decide, ownerOf_eq_some]
  tauto

theorem keysOf_addUtxo (s : UtxoSet) (txHash : Bytes) (i : ℤ) (output : TxOutput) (epoch : ℤ)
    (address : Bytes) (key : OutRef) :
    key ∈ (s.addUtxo txHash i output epoch).keysOf address ↔
      key ∈ s.keysOf address ∨ key = (txHash, i) ∧ address = output.address := by
  rw [keysOf, addUtxo, OrderedDict.getD, OrderedDict.get?_set]
  split_ifs with haddress
  · subst haddress
    rw [Option.getD_some, Finset.mem_insert, or_comm]
    simp [keysOf]
  · simp [keysOf, OrderedDict.getD, haddress]

theorem Indexed.addUtxo {s : UtxoSet} (h : s.Indexed) {txHash : Bytes} {i : ℤ} {output : TxOutput}
    (epoch : ℤ)
    (hsame : ∀ u, s.utxos.get? (txHash, i) = some u → u.output.address = output.address) :
    (s.addUtxo txHash i output epoch).Indexed := by
  apply OrderedDict.Indexes.set h
  · intro address
    rw [keysOf_addUtxo, ownerOf_eq_some]
    constructor
    · rintro (hold | ⟨-, rfl⟩)
      · obtain ⟨u, hu, howner⟩ := (h address _).mp hold
        exact ⟨rfl, (hsame u hu).symm.trans (ownerOf_eq_some.mp howner).2⟩
      · exact ⟨rfl, rfl⟩
    · rintro ⟨-, rfl⟩
      exact Or.inr ⟨rfl, rfl⟩
  · intro address key hkey
    rw [keysOf_addUtxo]
    simp [hkey]

theorem Indexed.spendUtxo {s : UtxoSet} (h : s.Indexed) (txHash : Bytes) (i : ℤ)
    (spendingTx : Bytes) : (s.spendUtxo txHash i spendingTx).2.Indexed := by
  rcases s.spendUtxo_cases txHash i spendingTx with ⟨-, he⟩ | ⟨u, hu, hunspent, he⟩
  · rw [he]
    exact h
  · rw [he]
    have hkeys : ∀ address key,
        key ∈ (s.byAddress.set u.output.address
          ((s.byAddress.getD u.output.address ∅).erase (txHash, i))).getD address ∅ ↔
        key ∈ s.keysOf address ∧ (key = (txHash, i) → address ≠ u.output.address) := by
      intro address key
      rw [OrderedDict.getD, OrderedDict.get?_set]
      split_ifs with haddress
      · subst haddress
        rw [Option.getD_some, Finset.mem_erase, and_comm]
        simp [keysOf]
      · simp [keysOf, OrderedDict.getD, haddress]
    apply OrderedDict.Indexes.set h
    · intro address
      refine (hkeys address _).trans (iff_of_false ?_ ?_)
      · rintro ⟨hin, hother⟩
        obtain ⟨v, hv, howner⟩ := (h address _).mp hin
        obtain rfl := Option.some.inj (hu.symm.trans hv)
        exact hother rfl (ownerOf_eq_some.mp howner).2.symm
      · simp [ownerOf, Utxo.markSpent]
    · intro address key hkey
      refine (hkeys address key).trans ?_
      simp [hkey]

inductive Command where
  | addUtxo (txHash : Bytes) (outputIndex : ℤ) (output : TxOutput) (epoch : ℤ)
  | spendUtxo (txHash : Bytes) (outputIndex : ℤ) (spendingTx : Bytes)

def Command.act : Command → UtxoSet → UtxoSet
  | .addUtxo txHash outputIndex output epoch, s => s.addUtxo txHash outputIndex output epoch
  | .spendUtxo txHash outputIndex spendingTx, s => (s.spendUtxo txHash outputIndex spendingTx).2

/-- The key a command adds, with the address of the output. -/
def Command.adds : Command → Option (OutRef × Bytes)
  | .addUtxo txHash outputIndex output _ => some ((txHash, outputIndex), output.address)
  | .spendUtxo _ _ _ => none

/-- All additions of a key carry the same address. -/
def AddressesFixed (cs : List Command) : Prop :=
  ∀ c ∈ cs, ∀ c' ∈ cs, ∀ key address address',
    c.adds = some (key, address) → c'.adds = some (key, address') → address = address'

theorem exists_adds_of_get? (cs : List Command) {key : OutRef} {u : Utxo}
    (h : (runs Command.act cs {}).utxos.get? key = some u) :
    ∃ c ∈ cs, c.adds = some (key, u.output.address) := by
  induction cs using List.reverseRecOn generalizing u with
  | nil => cases h
  | append_singleton cs c ih =>
    rw [runs_append_singleton] at h
    have hold : ∀ u, (runs Command.act cs {}).utxos.get? key = some u →
        ∃ c' ∈ cs ++ [c], c'.adds = some (key, u.output.address) := by
      intro u hu
      obtain ⟨c', hc', hadds⟩ := ih hu
      exact ⟨c', List.mem_append_left _ hc', hadds⟩
    cases c with
    | addUtxo txHash i output epoch =>
      rw [Command.act, get?_addUtxo] at h
      split_ifs at h with hkey
      · obtain rfl := Option.some.inj h
        refine ⟨_, List.mem_append_right _ (List.mem_singleton_self _), ?_⟩
        rw [hkey]
        rfl
      · exact hold u h
    | spendUtxo txHash i spendingTx =>
      rw [Command.act] at h
      rcases (runs Command.act cs {}).spendUtxo_cases txHash i spendingTx with
        ⟨-, he⟩ | ⟨v, hv, -, he⟩
      · rw [he] at h
        exact hold u h
      · rw [he] at h
        rcases OrderedDict.get?_set_eq_some.mp h with ⟨rfl, rfl⟩ | ⟨-, h⟩
        · exact hold v hv
        · exact hold u h

theorem indexed_runs {cs : List Command} (h : AddressesFixed cs) :
    (runs Command.act cs {}).Indexed := by
  induction cs using List.reverseRecOn with
  | nil => exact OrderedDict.indexes_empty
  | append_singleton cs c ih =>
    have hbefore := ih fun c₁ h₁ c₂ h₂ =>
      h c₁ (List.mem_append_left _ h₁) c₂ (List.mem_append_left _ h₂)
    rw [runs_append_singleton]
    cases c with
    | addUtxo txHash i output epoch =>
      apply hbefore.addUtxo
      intro u hu
      obtain ⟨c', hc', hadds⟩ := exists_adds_of_get? cs hu
      exact h c' (List.mem_append_left _ hc') _ (List.mem_append_right _ (List.mem_singleton_self _))
        _ _ _ hadds rfl
    | spendUtxo txHash i spendingTx => exact hbefore.spendUtxo txHash i spendingTx

/-- While keys keep their addresses the index is exact, and balances and listings through it are
those of all unspent outputs of the address. -/
theorem addressIndex_exact {cs : List Command} (h : AddressesFixed cs)
    (order : SetIteration OutRef) (address : Bytes) (currentEpoch : ℤ) :
    (∀ key, key ∈ (runs Command.act cs {}).keysOf address ↔
      ∃ u, (runs Command.act cs {}).utxos.get? key = some u ∧ u.isSpent = false ∧
        u.output.address = address) ∧
    (runs Command.act cs {}).getBalance order address currentEpoch =
      (((runs Command.act cs {}).spendableOf address currentEpoch).map fun u =>
        u.output.value).sum ∧
    ((runs Command.act cs {}).getUtxosForAddress order address currentEpoch).Perm
      ((runs Command.act cs {}).spendableOf address currentEpoch) := by
  have hindexed := indexed_runs h
  have hperm := hindexed.getUtxosForAddress_perm order address currentEpoch
  refine ⟨fun key => ?_, ?_, hperm⟩
  · rw [hindexed address key]
    simp only [ownerOf_eq_some]
  · rw [getBalance_eq_sum]
    exact (hperm.map _).sum_eq

/-- Sets in the order of their enumeration. -/
noncomputable def enumerated : SetIteration OutRef where
  keys := Finset.toList
  nodup := Finset.nodup_toList
  mem_keys _ _ := Finset.mem_toList

/-- An output that is added, spent and added again, beside a locked one. -/
def readded : List Command :=
  [.addUtxo [1] 0 { value := 600, address := [7] } 0, .spendUtxo [1] 0 [2],
    .addUtxo [1] 0 { value := 700, address := [7] } 1,
    .addUtxo [1] 1 { value := 800, address := [7], lockEpoch := 5 } 1]

theorem balance_readded : (runs Command.act readded {}).getBalance enumerated [7] 1 = 700 := by
  have hfixed : AddressesFixed readded := by
    intro c hc c' hc' key address address' h h'
    have howner : ∀ c ∈ readded, (c.adds.map Prod.snd).getD [7] = [7] := by decide
    have hfirst := howner c hc
    have hsecond := howner c' hc'
    rw [h] at hfirst
    rw [h'] at hsecond
    exact hfirst.trans hsecond.symm
  rw [(addressIndex_exact hfixed enumerated [7] 1).2.1]
  rfl

end UtxoSet

end Qrtb
