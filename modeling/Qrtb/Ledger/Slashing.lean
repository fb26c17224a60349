import Qrtb.Ledger.Authentication
import Qrtb.Ledger.Conservation

/-!
# What a slash gets past the validator (`_validate_slash` in `src/transaction.py`)

All the slash validator asks of an input is that its output is unspent and under
a lock, and that some key signed. Neither the owner's proof nor the sum of the
inputs is looked at. Where an output can be slashed at all, one slash of it is
not authenticated and one pays more than the output is worth.
-/

namespace Qrtb

open Keccak Transition

namespace Ledger

def Slashable (L : Ledger) (u : Utxo) : Prop :=
  ∃ k, L.utxoSet.utxos.get? k = some u ∧ u.isSpent = false ∧ u.output.lockEpoch ≠ 0

variable {L : Ledger} {tx : Transaction} {currentEpoch : ℤ}

/-- The indices and values of the stored outputs fit into their fields. -/
def StoresPackable (L : Ledger) : Prop :=
  ∀ k u, L.utxoSet.utxos.get? k = some u → (0 ≤ k.2 ∧ k.2 < 256 ^ 8) ∧ u.output.value < 256 ^ 8

theorem storesPackable_step {M : Ledger} {e : Event} (h : L.StoresPackable) (hstep : Step L e M) :
    M.StoresPackable := by
  rcases step_cases hstep with ⟨-, -, rfl⟩ | ⟨ha, -, rfl⟩
  · exact h
  intro k u hu
  rcases get?_applyTransaction e.tx L k with h' | ⟨-, v, t, hv, -, h'⟩ | ⟨t, j, out, ht, -, hj, rfl, h'⟩
  · exact h k u (h' ▸ hu)
  · obtain rfl := Option.some.inj (h'.symm.trans hu)
    exact h k v hv
  · obtain rfl := Option.some.inj (h'.symm.trans hu)
    have hpack : e.tx.Packable := e.tx.txHash_returns.mp ⟨t, ht⟩
    have hlen := ha.wellFormed.maxOutputs
    have hlt : j < e.tx.outputs.length := (List.getElem?_eq_some_iff.mp hj).1
    refine ⟨?_, (hpack.value out (List.mem_of_getElem? hj)).2⟩
    rw [MAX_OUTPUTS] at hlen
    dsimp only
    omega

theorem Reachable.storesPackable (h : L.Reachable) : L.StoresPackable := by
  obtain ⟨es, hrun⟩ := h
  apply hrun.invariant (I := StoresPackable)
  · intro L e M hL hstep
    exact storesPackable_step hL hstep
  · intro k u hu
    simp at hu

/-- A slash of one output, by a key of anybody and for any value that is not dust. -/
theorem StoresPackable.exists_slash (hL : L.StoresPackable) {u : Utxo} (hu : L.Slashable u)
    (value : ℤ) (hvalue : 546 ≤ value ∧ value < 256 ^ 8) :
    ∃ (tx : Transaction) (inp : TxInput) (out : TxOutput),
      tx.txType = .slash ∧ L.Accepts tx 0 ∧ tx.inputs = [inp] ∧ inp.authProof = none ∧
        L.findUtxo inp = some u ∧ tx.outputs = [out] ∧ out.value = value ∧ tx.fee = 100000 := by
  obtain ⟨k, hget, hspent, hlock⟩ := hu
  let out : TxOutput := { value := value, address := [], data := List.replicate 32 0 }
  let tx := spending .slash [k] none out 0
  have haccepts : L.Accepts (tx.signedBy []) 0 :=
    accepts_slash_spending [] (hL k u hget).1 hget hspent hlock hvalue rfl
      (by simp [out])
  obtain ⟨sh, hh⟩ := tx.txHash_returns.mpr
    ((tx.packable_signedBy []).mp (haccepts.packable (by simp [tx])))
  refine ⟨tx.signedBy [], Transaction.signInput [] sh (unsignedInput none k), out, by simp [tx],
    haccepts, ?_, rfl, hget, by simp [tx], rfl, by simp [tx]⟩
  rw [tx.signedBy_eq [] hh]
  rfl

theorem Accepts.slashable (ha : L.Accepts tx currentEpoch) (hs : tx.txType = .slash) {inp : TxInput}
    (hinp : inp ∈ tx.inputs) : ∃ u, L.findUtxo inp = some u ∧ L.Slashable u := by
  cases ha.cases with
  | slash _ sh _ each =>
    obtain ⟨-, u, ⟨hu, hspent⟩, hlock⟩ := each inp hinp
    exact ⟨u, hu, inp.ref, hu, hspent, hlock⟩
  | coinbase type | transfer type | register type | rotate type =>
    simp [hs, IsTransferLike] at type

/-- Spends of one type are all authenticated exactly when the type is not SLASH or no unspent
output of a registered owner is under a lock. -/
theorem authenticated_spends_iff (hL : L.Reachable) (type : TxType) :
    (∀ currentEpoch tx, tx.txType = type → L.Accepts tx currentEpoch → L.SpendsAuthenticated tx) ↔
      (type = .slash →
        ∀ u, L.Slashable u → L.authRegistry.isRegistered u.output.address = false) := by
  constructor
  · rintro hall rfl u hu
    by_contra hreg
    obtain ⟨tx, inp, -, htype, haccepts, hinputs, hnone, hfind, -⟩ :=
      hL.storesPackable.exists_slash hu 546 (by decide)
    obtain ⟨proof, root, hproof, -⟩ :=
      hall 0 tx htype haccepts inp (by simp [hinputs]) u hfind (by simpa using hreg)
    rw [carriedProof, htype, if_neg (by decide), hnone] at hproof
    cases hproof
  · intro hfree currentEpoch tx htype ha
    by_cases hc : tx.txType = .coinbase
    · intro inp hinp
      rw [(ha.coinbase hc).1] at hinp
      cases hinp
    by_cases hs : tx.txType = .slash
    · intro inp hinp u hu hreg
      obtain ⟨v, hv, hslashable⟩ := ha.slashable hs hinp
      obtain rfl := Option.some.inj (hu.symm.trans hv)
      rw [hfree (htype.symm.trans hs) u hslashable] at hreg
      cases hreg
    · exact authenticated_spends ha hc hs

theorem authenticated_spends_of_registered : ∃ (L : Ledger) (tx : Transaction) (inp : TxInput)
    (u : Utxo), L.Reachable ∧ L.Accepts tx 1 ∧ inp ∈ tx.inputs ∧ L.findUtxo inp = some u ∧
      L.authRegistry.isRegistered u.output.address = true ∧ L.SpendsAuthenticated tx := by
  obtain ⟨innerHash, hi⟩ : ∃ b : Bytes, b.length = 64 := ⟨List.replicate 64 0, by decide⟩
  obtain ⟨seed⟩ : Nonempty Bytes := ⟨[]⟩
  obtain ⟨key, hkey⟩ : ∃ key, (Wots.keygen seed).2 = key := ⟨_, rfl⟩
  let sibling : Bytes := List.replicate 32 0
  obtain ⟨L, h, hL, hreg, hroot, hget⟩ := exists_registered hi
    (length_sha3_256 (sha3_256 key ++ sibling))
  let out : TxOutput := { value := 900000, address := [] }
  let tx := spending .transfer [(h, 1)] (some [(sibling, 0)]) out 1
  have hready : tx.ReadyToSign :=
    readyToSign_spending (by simp) (by simp) (by simp) (by simp) (by simp [out]) (by simp [out])
      (by simp [out]) (by decide)
  have hproved : L.provedUnder (deriveAddress innerHash) key [(sibling, 0)] = true := by
    simp [provedUnder, hroot, MerkleTree.verifyProof, length_sha3_256, MerkleTree.climb]
  have haccepts : L.Accepts (tx.signedBy seed) 1 := by
    refine accepts_transfer_signedBy seed rfl hready (by simp [tx])
      (by simp [tx]) ?_ ?_
    · apply forall_inputs_spending
      intro k hk
      obtain rfl := List.mem_singleton.mp hk
      rw [hkey]
      exact ⟨_, ⟨hget, rfl⟩, by simp [UtxoSet.newUtxo],
        fun _ => ⟨[(sibling, 0)], rfl, by simp, hproved⟩⟩
    · simp [tx, conserves_spending, UtxoSet.valueAt, hget, UtxoSet.newUtxo, out]
  obtain ⟨sh, hh⟩ := tx.txHash_returns.mpr hready.1
  refine ⟨L, tx.signedBy seed, Transaction.signInput seed sh (unsignedInput (some [(sibling, 0)]) (h, 1)),
    _, hL, haccepts, ?_, hget, hreg,
    (authenticated_spends_iff hL .transfer).mpr (by simp) 1 _ (by simp [tx]) haccepts⟩
  rw [tx.signedBy_eq seed hh]
  exact List.mem_map_of_mem (List.mem_singleton_self _)

theorem slash_spends_unauthenticated : ¬ ∀ L : Ledger, L.Reachable → ∀ currentEpoch tx,
    tx.txType ≠ .coinbase → L.Accepts tx currentEpoch → L.SpendsAuthenticated tx := by
  intro hall
  obtain ⟨L, h, hL, hreg, -, hget⟩ := exists_registered
    (by decide : (List.replicate 64 (0 : UInt8)).length = 64)
    (by decide : (List.replicate 32 (0 : UInt8)).length = 32)
  obtain ⟨tx, inp, -, htype, haccepts, hinputs, hnone, hfind, -⟩ :=
    hL.storesPackable.exists_slash ⟨_, hget, rfl, by simp [UtxoSet.newUtxo]⟩ 900000 (by decide)
  obtain ⟨proof, root, hproof, -⟩ :=
    hall L hL 0 tx (by simp [htype]) haccepts inp (by simp [hinputs]) _ hfind hreg
  rw [carriedProof, htype, if_neg (by decide), hnone] at hproof
  cases hproof

/-- The value of the distinct outputs a transaction refers to. -/
def distinctInputTotal (L : Ledger) (tx : Transaction) : ℤ :=
  (tx.refs.dedup.map L.utxoSet.valueAt).sum

/-- A transaction pays no more than it refers to, and applying it does not raise the total. -/
def CreatesNoValue (L : Ledger) (tx : Transaction) : Prop :=
  tx.totalOutput + tx.fee ≤ L.distinctInputTotal tx ∧
    (L.utxoSet.NonNeg →
      (applyTransaction tx L).2.utxoSet.unspentTotal ≤ L.utxoSet.unspentTotal)

theorem distinctInputTotal_singleton {inp : TxInput} {u : Utxo} (hinputs : tx.inputs = [inp])
    (hfind : L.findUtxo inp = some u) : L.distinctInputTotal tx = u.output.value := by
  have hget : L.utxoSet.utxos.get? inp.ref = some u := hfind
  simp [distinctInputTotal, Transaction.refs, hinputs, UtxoSet.valueAt, hget]

/-- Every slash that is accepted, at any epoch, creates no value. -/
def SlashesCreateNoValue (L : Ledger) : Prop :=
  ∀ currentEpoch tx, tx.txType = .slash → L.Accepts tx currentEpoch → L.CreatesNoValue tx

/-- Slashes create no value when no unspent output is under a lock, and, where the stored outputs
can be named on the wire, only then. -/
theorem slash_createsNoValue_iff (L : Ledger) :
    ((∀ u, ¬ L.Slashable u) → L.SlashesCreateNoValue) ∧
      (L.StoresPackable → (L.SlashesCreateNoValue ↔ ∀ u, ¬ L.Slashable u)) := by
  have henough : (∀ u, ¬ L.Slashable u) → L.SlashesCreateNoValue := by
    intro hnone currentEpoch tx htype ha
    obtain ⟨inp, inputs, hinputs⟩ :=
      List.exists_cons_of_ne_nil (ha.wellFormed.hasInputs (by simp [htype]))
    obtain ⟨u, -, hslashable⟩ := ha.slashable htype (by simp [hinputs] : inp ∈ tx.inputs)
    exact absurd hslashable (hnone u)
  refine ⟨henough, fun hL => ⟨?_, henough⟩⟩
  intro hall u hu
  have ⟨k, hget, _⟩ := hu
  have hworth := (hL k u hget).2
  obtain ⟨tx, inp, out, htype, haccepts, hinputs, -, hfind, houts, hvalue, hfee⟩ :=
    hL.exists_slash hu (max 546 u.output.value) (by omega)
  have hle := (hall 0 tx htype haccepts).1
  rw [distinctInputTotal_singleton hinputs hfind, Transaction.totalOutput, houts, hfee] at hle
  simp only [List.map_singleton, List.sum_singleton, hvalue] at hle
  omega

theorem not_slashable_funded (u : Utxo) : ¬ (funded [] 0).Slashable u := by
  rintro ⟨k, hget, -, hlock⟩
  obtain ⟨t, j, out, hj, -, rfl⟩ := exists_output_of_funded [] hget
  have hout := List.mem_of_getElem? hj
  simp only [funding, List.mem_cons, List.not_mem_nil, or_false] at hout
  rcases hout with rfl | rfl <;> exact hlock rfl

/-- With its second output under a lock the funded ledger has a slash that creates value, without
the lock it has none. -/
theorem slash_createsNoValue_funded :
    ¬ (funded [] 1).SlashesCreateNoValue ∧ (funded [] 0).SlashesCreateNoValue := by
  obtain ⟨h, -, -, hget⟩ := exists_funded [] (by decide : (0 : ℤ) ≤ 1) (by decide)
  refine ⟨fun hall => ?_, (slash_createsNoValue_iff _).1 not_slashable_funded⟩
  have hpack : (funded [] 1).StoresPackable := (reachable_funded [] 1).storesPackable
  refine ((slash_createsNoValue_iff _).2 hpack).mp hall _ ⟨(h, 1), hget, rfl, ?_⟩
  simp [UtxoSet.newUtxo]

/-- A reachable slash that turns an output of a million into one of five million. -/
theorem exists_inflating_slash : ∃ (L : Ledger) (tx : Transaction), L.Reachable ∧
    tx.txType = .slash ∧ L.Accepts tx 0 ∧ L.distinctInputTotal tx < tx.totalOutput + tx.fee ∧
    L.utxoSet.unspentTotal < (applyTransaction tx L).2.utxoSet.unspentTotal := by
  obtain ⟨h, -, -, hget⟩ := exists_funded [] (by decide : (0 : ℤ) ≤ 1) (by decide)
  have hL : (funded [] 1).Reachable := reachable_funded [] 1
  obtain ⟨tx, inp, out, htype, haccepts, hinputs, -, hfind, houts, hvalue, hfee⟩ :=
    hL.storesPackable.exists_slash ⟨_, hget, rfl, by simp [UtxoSet.newUtxo]⟩ 5000000 (by decide)
  have hpack := haccepts.packable (by simp [htype])
  have happly := (applyTransaction_returns_true_iff haccepts).mpr
    ⟨by simp [Transaction.refs, hinputs], hpack⟩
  refine ⟨funded [] 1, tx, hL, htype, haccepts, ?_, ?_⟩
  · rw [distinctInputTotal_singleton hinputs hfind, Transaction.totalOutput, houts, hfee]
    simp [UtxoSet.newUtxo, hvalue]
  · obtain ⟨t, ht⟩ := tx.txHash_returns.mpr hpack
    have htotal := unspentTotal_funded_le [] (by decide : (0 : ℤ) ≤ 1) (by decide)
    have hnew := get?_applyTransaction_output happly ht
      (by simp [houts] : tx.outputs[0]? = some out)
    have hafter := (haccepts.nonNeg hL.nonNeg).unspentValue_le hnew
    have hworth : (UtxoSet.newUtxo tx.epoch t 0 out).unspentValue = out.value := rfl
    omega

end Ledger

end Qrtb
