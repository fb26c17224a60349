import Qrtb.Lib.Transition
import Qrtb.Ledger.Signing

/-!
# Runs of the ledger

A run submits transactions one after another: each is validated in the current
state and, when it is valid, applied to it. An event records the epoch, the
transaction and what application returned, if it was called at all.
-/

namespace Qrtb

open Transition

structure Event where
  epoch : ℤ
  tx : Transaction
  outcome : Option (Except PyError Bool)

/-- The event is an application that returned `True`. -/
def Event.Applied (e : Event) : Prop := e.outcome = some (.ok true)

instance (e : Event) : Decidable e.Applied := inferInstanceAs (Decidable (_ = _))

theorem Transaction.index_of_creates {tx : Transaction} {k : OutRef} (hone : tx.outputs.length = 1)
    (h : tx.Creates k) : k.2 = 0 := by
  obtain ⟨t, j, out, -, hj, rfl⟩ := h
  have hlt := (List.getElem?_eq_some_iff.mp hj).1
  have hj0 : j = 0 := by omega
  simp [hj0]

namespace Ledger

instance (L : Ledger) (tx : Transaction) (currentEpoch : ℤ) :
    Decidable (L.Accepts tx currentEpoch) := inferInstanceAs (Decidable (_ = _))

/-- Validate a transaction and apply it when it is valid. -/
def submit (tx : Transaction) (currentEpoch : ℤ) (L : Ledger) :
    Option (Except PyError Bool) × Ledger :=
  if L.Accepts tx currentEpoch then
    (some (applyTransaction tx L).1, (applyTransaction tx L).2)
  else (none, L)

def Step (L : Ledger) (e : Event) (M : Ledger) : Prop :=
  submit e.tx e.epoch L = (e.outcome, M)

/-- The state some run from the empty ledger ends in. -/
def Reachable (L : Ledger) : Prop := ∃ es, Run Step {} es L

theorem step_cases {L M : Ledger} {e : Event} (h : Step L e M) :
    (¬ L.Accepts e.tx e.epoch ∧ e.outcome = none ∧ M = L) ∨
    (L.Accepts e.tx e.epoch ∧ e.outcome = some (applyTransaction e.tx L).1 ∧
      M = (applyTransaction e.tx L).2) := by
  unfold Step submit at h
  split_ifs at h with ha
  · obtain ⟨ho, hm⟩ := Prod.mk.inj h
    exact Or.inr ⟨ha, ho.symm, hm.symm⟩
  · obtain ⟨ho, hm⟩ := Prod.mk.inj h
    exact Or.inl ⟨ha, ho.symm, hm.symm⟩

theorem step_applied {L M : Ledger} {e : Event} (h : Step L e M) (happlied : e.Applied) :
    L.Accepts e.tx e.epoch ∧ (applyTransaction e.tx L).1 = .ok true ∧
      M = (applyTransaction e.tx L).2 := by
  rcases step_cases h with ⟨-, ho, -⟩ | ⟨ha, ho, hM⟩
  · rw [Event.Applied, ho] at happlied
    cases happlied
  · rw [Event.Applied, ho] at happlied
    exact ⟨ha, Option.some.inj happlied, hM⟩

theorem step_unique {L M M' : Ledger} {e : Event} (h : Step L e M) (h' : Step L e M') : M = M' :=
  congrArg Prod.snd (h.symm.trans h')

theorem step_of_accepts {L : Ledger} {tx : Transaction} {epoch : ℤ} (h : L.Accepts tx epoch) :
    Step L ⟨epoch, tx, some (applyTransaction tx L).1⟩ (applyTransaction tx L).2 := by
  simp [Step, submit, h]

theorem Reachable.apply {L : Ledger} {tx : Transaction} {epoch : ℤ} (hL : L.Reachable)
    (h : L.Accepts tx epoch) : (applyTransaction tx L).2.Reachable := by
  obtain ⟨es, hes⟩ := hL
  exact ⟨_, hes.append (Run.single (step_of_accepts h))⟩

/-- A coinbase that pays one owner twice, the second time under a lock. -/
def funding (owner : Bytes) (lock : ℤ) : Transaction :=
  { version := 1
    txType := .coinbase
    inputs := []
    outputs := [{ value := 1000000, address := owner },
      { value := 1000000, address := owner, lockEpoch := lock }]
    epoch := 0
    timestamp := 0
    fee := 0
    nonce := List.replicate 8 0 }

section Funding

variable (owner : Bytes) {lock : ℤ}

theorem packable_funding (h0 : 0 ≤ lock) (h1 : lock < 256 ^ 8) : (funding owner lock).Packable := by
  constructor <;> simp [funding, h0]
  omega

theorem accepts_funding (lock : ℤ) (L : Ledger) : L.Accepts (funding owner lock) 0 := by
  rw [accepts_iff]
  refine ⟨⟨⟨rfl, ?_, ?_, ?_, ?_, ?_, ?_, ?_⟩, ?_, ?_⟩, ?_⟩
  · intro h
    exact absurd rfl h
  · simp [funding, MAX_INPUTS]
  · simp [funding]
  · simp [funding, MAX_OUTPUTS]
  · simp [Transaction.size, funding, TxOutput.size, MAX_TX_SIZE]
  · simp [funding, DUST_THRESHOLD]
  · intro h
    exact absurd rfl h
  · simp [funding]
  · simp [funding]
  · simp [validateByType, validateCoinbase, funding, Transaction.totalOutput, MAX_COINBASE_VALUE,
      Check.rejectIf, bind, Except.bind]

/-- The ledger after the funding coinbase. -/
def funded (owner : Bytes) (lock : ℤ) : Ledger := (applyTransaction (funding owner lock) {}).2

theorem applies_funding (h0 : 0 ≤ lock) (h1 : lock < 256 ^ 8) (L : Ledger) :
    (applyTransaction (funding owner lock) L).1 = .ok true :=
  (applyTransaction_returns_true_iff (accepts_funding owner lock L)).mpr
    ⟨by simp [Transaction.refs, funding], packable_funding owner h0 h1⟩

theorem run_funded (lock : ℤ) : Run Step {}
    [⟨0, funding owner lock, some (applyTransaction (funding owner lock) {}).1⟩]
    (funded owner lock) := by
  unfold funded
  exact Run.single (step_of_accepts (accepts_funding owner lock {}))

theorem reachable_funded (lock : ℤ) : (funded owner lock).Reachable :=
  ⟨_, run_funded owner lock⟩

theorem exists_fundingHash (h0 : 0 ≤ lock) (h1 : lock < 256 ^ 8) :
    ∃ h, (funding owner lock).txHash = .ok h ∧ ∀ L : Ledger,
      (applyTransaction (funding owner lock) L).2.utxoSet.utxos.get? (h, 0) =
        some (UtxoSet.newUtxo 0 h 0 { value := 1000000, address := owner }) ∧
      (applyTransaction (funding owner lock) L).2.utxoSet.utxos.get? (h, 1) =
        some (UtxoSet.newUtxo 0 h 1
          { value := 1000000, address := owner, lockEpoch := lock }) := by
  obtain ⟨h, hh⟩ := (Transaction.txHash_returns _).mpr (packable_funding owner h0 h1)
  refine ⟨h, hh, fun L => ⟨?_, ?_⟩⟩
  · exact get?_applyTransaction_output (applies_funding owner h0 h1 L) hh (j := 0) rfl
  · exact get?_applyTransaction_output (applies_funding owner h0 h1 L) hh (j := 1) rfl

theorem exists_funded (h0 : 0 ≤ lock) (h1 : lock < 256 ^ 8) :
    ∃ h, (funding owner lock).txHash = .ok h ∧
      (funded owner lock).utxoSet.utxos.get? (h, 0) =
        some (UtxoSet.newUtxo 0 h 0 { value := 1000000, address := owner }) ∧
      (funded owner lock).utxoSet.utxos.get? (h, 1) =
        some (UtxoSet.newUtxo 0 h 1
          { value := 1000000, address := owner, lockEpoch := lock }) := by
  obtain ⟨h, hh, hget⟩ := exists_fundingHash owner h0 h1
  unfold funded
  exact ⟨h, hh, hget _⟩

theorem exists_output_of_funded {lock : ℤ} {k : OutRef} {u : Utxo}
    (h : (funded owner lock).utxoSet.utxos.get? k = some u) :
    ∃ (t : Bytes) (j : ℕ) (out : TxOutput), (funding owner lock).outputs[j]? = some out ∧
      k = (t, (j : ℤ)) ∧ u = UtxoSet.newUtxo 0 t j out := by
  rw [funded] at h
  rcases get?_applyTransaction (funding owner lock) {} k with hsame | ⟨hmem, -⟩ |
      ⟨t, j, out, -, -, hj, hk, hnew⟩
  · rw [hsame] at h
    simp at h
  · cases hmem
  · exact ⟨t, j, out, hj, hk, Option.some.inj (h.symm.trans hnew)⟩

theorem authRegistry_funded (lock : ℤ) : (funded owner lock).authRegistry = {} := by
  have htype : (funding owner lock).txType = .coinbase := rfl
  rw [funded, authRegistry_applyTransaction (by simp [htype]) (by simp [htype])]

end Funding

def unsignedInput (proof : Option (List ProofEntry)) (k : OutRef) : TxInput :=
  { prevTxHash := k.1
    outputIndex := k.2
    signature := []
    publicKey := []
    authProof := proof }

/-- An unsigned transaction over the given references with a single output. -/
def spending (type : TxType) (refs : List OutRef) (proof : Option (List ProofEntry))
    (out : TxOutput) (epoch : ℤ) : Transaction :=
  { version := 1
    txType := type
    inputs := refs.map (unsignedInput proof)
    outputs := [out]
    epoch := epoch
    timestamp := 0
    fee := 100000
    nonce := List.replicate 8 0 }

@[simp] theorem refs_spending (type : TxType) (refs : List OutRef)
    (proof : Option (List ProofEntry)) (out : TxOutput) (epoch : ℤ) :
    (spending type refs proof out epoch).refs = refs := by
  simp [Transaction.refs, spending, unsignedInput, TxInput.ref, Function.comp_def]

section Spending

variable {type : TxType} {refs : List OutRef} {proof : Option (List ProofEntry)} {out : TxOutput}
  {epoch : ℤ}

@[simp] theorem txType_spending : (spending type refs proof out epoch).txType = type := rfl

@[simp] theorem outputs_spending : (spending type refs proof out epoch).outputs = [out] := rfl

@[simp] theorem epoch_spending : (spending type refs proof out epoch).epoch = epoch := rfl

@[simp] theorem fee_spending : (spending type refs proof out epoch).fee = 100000 := rfl

theorem size_spending : (spending type refs proof out epoch).size =
    36 + refs.length * (40 + (proof.getD []).length * 2) + (82 + out.data.length) := by
  have hinput : ∀ k, (unsignedInput proof k).size = 40 + (proof.getD []).length * 2 := by
    intro k
    simp only [unsignedInput, TxInput.size, TxInput.proofSize, List.map_const', List.sum_replicate,
      List.length_nil, nsmul_eq_mul, Nat.cast_id]
    omega
  simp only [Transaction.size, spending, List.map_map, Function.comp_def, hinput,
    List.map_const', List.sum_replicate, nsmul_eq_mul, Nat.cast_id, List.map_cons, List.map_nil,
    List.sum_cons, List.sum_nil, TxOutput.size]
  omega

theorem packable_spending (hlen : refs.length ≤ 2) (hidx : ∀ k ∈ refs, 0 ≤ k.2 ∧ k.2 < 256 ^ 8)
    (hvalue : 546 ≤ out.value ∧ out.value < 256 ^ 8)
    (hlock : 0 ≤ out.lockEpoch ∧ out.lockEpoch ≤ 10) (hdata : out.data.length ≤ 128)
    (hepoch : 0 ≤ epoch ∧ epoch ≤ 10) : (spending type refs proof out epoch).Packable := by
  constructor <;> simp only [spending, List.mem_singleton, forall_eq, List.length_map,
    List.length_singleton]
  · decide
  · omega
  · intro i hi
    obtain ⟨k, hk, rfl⟩ := List.mem_map.mp hi
    have := hidx k hk
    constructor <;> dsimp only [unsignedInput] <;> omega
  · decide
  · omega
  · omega
  · omega
  · omega
  · decide
  · decide

/-- At most two references and a small output make a transaction that can be signed. -/
theorem readyToSign_spending (hne : refs ≠ [])
    (hlen : refs.length ≤ 2) (hidx : ∀ k ∈ refs, 0 ≤ k.2 ∧ k.2 < 256 ^ 8)
    (hproof : (proof.getD []).length ≤ 10) (hvalue : 546 ≤ out.value ∧ out.value < 256 ^ 8)
    (hlock : 0 ≤ out.lockEpoch ∧ out.lockEpoch ≤ 10) (hdata : out.data.length ≤ 128)
    (hepoch : 0 ≤ epoch ∧ epoch ≤ 10) :
    (spending type refs proof out epoch).ReadyToSign := by
  have hprod : refs.length * (40 + (proof.getD []).length * 2) ≤ 2 * (40 + 10 * 2) :=
    Nat.mul_le_mul hlen (by omega)
  have hcount : (spending type refs proof out epoch).inputs.length = refs.length := by
    simp [spending]
  refine ⟨packable_spending hlen hidx hvalue hlock hdata hepoch, rfl,
    by simpa [spending] using hne, ?_, ?_, by simp, by simp [MAX_OUTPUTS], ?_, ?_, ?_⟩
  · rw [hcount, MAX_INPUTS]
    omega
  · intro i hi
    obtain ⟨k, -, rfl⟩ := List.mem_map.mp hi
    exact ⟨rfl, rfl⟩
  · simp only [outputs_spending, List.mem_singleton, forall_eq, DUST_THRESHOLD]
    omega
  · rw [size_spending, hcount, MAX_TX_SIZE]
    omega
  · rw [size_spending, hcount, MIN_FEE_PER_BYTE]
    simp only [spending]
    omega

theorem forall_inputs_spending {P : TxInput → Prop}
    (h : ∀ k ∈ refs, P (unsignedInput proof k)) :
    ∀ i ∈ (spending type refs proof out epoch).inputs, P i := by
  intro i hi
  obtain ⟨k, hk, rfl⟩ := List.mem_map.mp hi
  exact h k hk

theorem conserves_spending (L : Ledger) : L.Conserves (spending type refs proof out epoch) ↔
    out.value + 100000 ≤ (refs.map L.utxoSet.valueAt).sum := by
  have hvalues : (spending type refs proof out epoch).inputs.map L.valueOf =
      refs.map L.utxoSet.valueAt := by
    simp [spending, Function.comp_def, valueOf, TxInput.ref, unsignedInput]
  rw [Conserves, hvalues]
  simp [spending, Transaction.totalOutput]

theorem not_creates_spending (seed h : Bytes) :
    ¬ ((spending type refs proof out epoch).signedBy seed).Creates (h, 1) := by
  intro hcreates
  have hindex := Transaction.index_of_creates (by simp) hcreates
  simp at hindex

theorem accepts_transfer_spending (seed : Bytes) {L : Ledger} (hne : refs ≠ [])
    (hlen : refs.length ≤ 2) (hidx : ∀ k ∈ refs, 0 ≤ k.2 ∧ k.2 < 256 ^ 8)
    (hget : ∀ k ∈ refs, ∃ u, L.utxoSet.utxos.get? k = some u ∧ u.isSpent = false ∧
      u.output.lockEpoch ≤ 0 ∧ L.authRegistry.isRegistered u.output.address = false)
    (hvalue : 546 ≤ out.value ∧ out.value < 256 ^ 8) (hout : out.lockEpoch = 0)
    (hdata : out.data.length ≤ 128)
    (hsum : out.value + 100000 ≤ (refs.map L.utxoSet.valueAt).sum) :
    L.Accepts ((spending .transfer refs none out 0).signedBy seed) 0 := by
  have hready : (spending .transfer refs none out 0).ReadyToSign :=
    readyToSign_spending hne hlen hidx (by simp) hvalue (by omega) hdata (by decide)
  refine accepts_transfer_signedBy seed rfl hready (by simp) (by simp) ?_
    ((conserves_spending L).mpr hsum)
  apply forall_inputs_spending
  intro k hk
  obtain ⟨u, hu, hs, hl, hreg⟩ := hget k hk
  exact ⟨u, ⟨hu, hs⟩, hl, ownerProved_of_unregistered _ hreg⟩

theorem accepts_slash_spending (seed : Bytes) {L : Ledger} {k : OutRef} {u : Utxo}
    (hidx : 0 ≤ k.2 ∧ k.2 < 256 ^ 8) (hget : L.utxoSet.utxos.get? k = some u) (hs : u.isSpent = false)
    (hlock : u.output.lockEpoch ≠ 0) (hvalue : 546 ≤ out.value ∧ out.value < 256 ^ 8)
    (hout : out.lockEpoch = 0) (hdata : 32 ≤ out.data.length ∧ out.data.length ≤ 128) :
    L.Accepts ((spending .slash [k] none out 0).signedBy seed) 0 := by
  have hready : (spending .slash [k] none out 0).ReadyToSign :=
    readyToSign_spending (by simp) (by simp) (by simpa using hidx) (by simp) hvalue (by omega)
      (by omega) (by decide)
  refine accepts_slash_signedBy seed rfl hready (by simp) (by simp) (by simp [hdata.1]) ?_
  apply forall_inputs_spending
  intro j hj
  obtain rfl := List.mem_singleton.mp hj
  exact ⟨u, ⟨hget, hs⟩, hlock⟩

end Spending

/-- An entry of an unregistered owner that covers an amount. -/
def Covers (L : Ledger) (k : OutRef) (amount : ℤ) : Prop :=
  ∃ u, L.utxoSet.utxos.get? k = some u ∧ u.isSpent = false ∧ u.output.lockEpoch = 0 ∧
    L.authRegistry.isRegistered u.output.address = false ∧ amount ≤ u.output.value

theorem exists_transfer_step {L : Ledger} (k : OutRef) (value : ℤ) (hidx : 0 ≤ k.2 ∧ k.2 < 256 ^ 8)
    (hvalue : 546 ≤ value ∧ value < 256 ^ 8) (hk : L.Covers k (value + 100000)) :
    ∃ (e : Event) (M : Ledger), Step L e M ∧ e.Applied ∧ L.Accepts e.tx e.epoch ∧
      M = (applyTransaction e.tx L).2 ∧ M.authRegistry = L.authRegistry ∧ e.tx.txType = .transfer ∧
      e.tx.refs = [k] ∧ e.tx.outputs = [{ value := value, address := [] }] ∧ e.tx.fee = 100000 := by
  obtain ⟨u, hu, hs, hl, hreg, hamount⟩ := hk
  let tx := spending .transfer [k] none { value := value, address := [] } 0
  have haccepts : L.Accepts (tx.signedBy []) 0 := by
    refine accepts_transfer_spending [] (by simp) (by simp) (by simpa using hidx) ?_ hvalue rfl
      (by simp) ?_
    · intro j hj
      obtain rfl := List.mem_singleton.mp hj
      exact ⟨u, hu, hs, hl.le, hreg⟩
    · simpa [UtxoSet.valueAt, hu] using hamount
  have hpack := (tx.packable_signedBy []).mp (haccepts.packable (by simp [tx]))
  refine ⟨_, _, step_of_accepts haccepts, ?_, haccepts, rfl, ?_, by simp [tx],
    by simp [tx, Transaction.refs_signedBy], by simp [tx], by simp [tx]⟩
  · exact congrArg some (applies_signedBy haccepts (by simp [tx]) hpack)
  · exact authRegistry_applyTransaction (by simp [tx]) (by simp [tx])

theorem exists_spending_run : ∃ (h : Bytes) (e e' : Event) (M : Ledger),
    Run Step (funded [] 0) [e, e'] M ∧ e.Applied ∧ e'.Applied ∧ e.tx.txType = .transfer ∧
      e'.tx.txType = .transfer ∧ e.tx.fee = 100000 ∧ e'.tx.fee = 100000 ∧ e.tx.refs = [(h, 1)] ∧
      e'.tx.refs = [(h, 0)] ∧ e.tx.outputs.length = 1 ∧ e'.tx.outputs.length = 1 := by
  obtain ⟨h, -, hget0, hget1⟩ := exists_funded [] (by decide : (0 : ℤ) ≤ 0) (by decide)
  have hreg : (funded [] 0).authRegistry.isRegistered [] = false := by
    simp [authRegistry_funded, AuthRegistry.isRegistered]
  obtain ⟨e, L, hstep, happlied, -, rfl, hregistry, htype, hrefs, houts, hfee⟩ :=
    exists_transfer_step (h, 1) 900000 (by simp) (by decide)
      ⟨_, hget1, rfl, rfl, hreg, by simp [UtxoSet.newUtxo]⟩
  -- the first output is untouched, or the transfer has the hash of the coinbase and replaces it
  have hleft : (applyTransaction e.tx (funded [] 0)).2.Covers (h, 0) 600000 := by
    rcases get?_applyTransaction e.tx (funded [] 0) (h, 0) with hsame | ⟨hmem, -⟩ |
        ⟨t, j, out, -, -, hj, -, hnew⟩
    · exact ⟨_, hsame.trans hget0, rfl, rfl, by rw [hregistry]; exact hreg,
        by simp [UtxoSet.newUtxo]⟩
    · simp [hrefs] at hmem
    · have hout := List.mem_of_getElem? hj
      rw [houts, List.mem_singleton] at hout
      exact ⟨_, hnew, rfl, by simp [UtxoSet.newUtxo, hout],
        by simpa [hregistry, UtxoSet.newUtxo, hout] using hreg, by simp [UtxoSet.newUtxo, hout]⟩
  obtain ⟨e', M, hstep', happlied', -, -, -, htype', hrefs', houts', hfee'⟩ :=
    exists_transfer_step (h, 0) 500000 (by simp) (by decide) hleft
  exact ⟨h, e, e', M, .cons hstep (.single hstep'), happlied, happlied', htype, htype', hfee, hfee',
    hrefs, hrefs', by simp [houts], by simp [houts']⟩

/-- An accepted transaction applies exactly when its references are pairwise distinct and, for a
coinbase, its hash can be computed. -/
theorem accepted_applies_iff_distinct {L : Ledger} {tx : Transaction} {currentEpoch : ℤ}
    (h : L.Accepts tx currentEpoch) :
    (applyTransaction tx L).1 = .ok true ↔
      tx.refs.Nodup ∧ (tx.txType = .coinbase → tx.Packable) := by
  rw [applyTransaction_returns_true_iff h]
  apply and_congr_right
  intro _
  by_cases hc : tx.txType = .coinbase
  · simp [hc]
  · exact iff_of_true (h.packable hc) fun h' => absurd h' hc

theorem exists_accepted_transfer (is : List ℤ) (hlen : 1 ≤ is.length ∧ is.length ≤ 2)
    (his : ∀ i ∈ is, i = 0 ∨ i = 1) : ∃ (tx : Transaction) (h : Bytes),
      (funded [] 0).Accepts tx 0 ∧ tx.txType = .transfer ∧ tx.refs = is.map fun i => (h, i) := by
  obtain ⟨h, -, hget0, hget1⟩ := exists_funded [] (by decide : (0 : ℤ) ≤ 0) (by decide)
  have hget : ∀ i ∈ is, ∃ u, (funded [] 0).utxoSet.utxos.get? (h, i) = some u ∧
      u.isSpent = false ∧ u.output = { value := 1000000, address := [] } := by
    intro i hi
    rcases his i hi with rfl | rfl
    · exact ⟨_, hget0, rfl, rfl⟩
    · exact ⟨_, hget1, rfl, rfl⟩
  have hsum : ((is.map fun i => (h, i)).map (funded [] 0).utxoSet.valueAt).sum =
      1000000 * is.length := by
    have hconst : (is.map fun i => (h, i)).map (funded [] 0).utxoSet.valueAt =
        List.replicate is.length 1000000 := by
      rw [List.map_map, List.map_eq_replicate_iff]
      intro i hi
      obtain ⟨u, hu, -, hout⟩ := hget i hi
      simp [UtxoSet.valueAt, hu, hout]
    rw [hconst, List.sum_replicate, nsmul_eq_mul, mul_comm]
  let out : TxOutput := { value := 900000, address := [] }
  let tx := spending .transfer (is.map fun i => (h, i)) none out 0
  refine ⟨tx.signedBy [], h, ?_, by simp [tx], by simp [tx, Transaction.refs_signedBy]⟩
  apply accepts_transfer_spending
  · rw [← List.length_pos_iff, List.length_map]
    exact hlen.1
  · rw [List.length_map]
    exact hlen.2
  · intro k hk
    obtain ⟨i, hi, rfl⟩ := List.mem_map.mp hk
    have hi := his i hi
    constructor <;> dsimp only <;> omega
  · intro k hk
    obtain ⟨i, hi, rfl⟩ := List.mem_map.mp hk
    obtain ⟨u, hu, hus, hout⟩ := hget i hi
    exact ⟨u, hu, hus, by simp [hout], by simp [authRegistry_funded, AuthRegistry.isRegistered]⟩
  · simp [out]
  · rfl
  · simp [out]
  · rw [hsum]
    simp only [out]
    omega

theorem accepted_applies_of_distinct : ∃ (tx : Transaction) (h : Bytes),
    tx.refs = [(h, 0), (h, 1)] ∧ (funded [] 0).Reachable ∧ (funded [] 0).Accepts tx 0 ∧
      (applyTransaction tx (funded [] 0)).1 = .ok true := by
  obtain ⟨tx, h, haccepts, htype, hrefs⟩ :=
    exists_accepted_transfer [0, 1] (by decide) (by decide)
  refine ⟨tx, h, hrefs, reachable_funded [] 0, haccepts,
    (accepted_applies_iff_distinct haccepts).mpr ⟨?_, ?_⟩⟩
  · simp [hrefs]
  · simp [htype]

/-- A transfer that names one output twice is accepted and then not applied. -/
theorem duplicate_input_accepted_not_applied : ∃ (L : Ledger) (tx : Transaction), L.Reachable ∧
    L.Accepts tx 0 ∧ (applyTransaction tx L).1 = .ok false := by
  obtain ⟨tx, h, haccepts, htype, hrefs⟩ :=
    exists_accepted_transfer [1, 1] (by decide) (by decide)
  refine ⟨funded [] 0, tx, reachable_funded [] 0, haccepts, ?_⟩
  have hdup : ¬ tx.refs.Nodup := by simp [hrefs]
  have hpack := haccepts.packable (by simp [htype])
  rcases applyTransaction_cases tx (funded [] 0) with ⟨e, he, -⟩ | ⟨t, -, -, ha⟩ | ⟨t, -, hs, -⟩
  · obtain ⟨t, ht⟩ := tx.txHash_returns.mpr hpack
    rw [hashWhenUsed_of_outputs haccepts.wellFormed.hasOutputs, ht] at he
    cases he
  · rw [ha]
  · exact absurd (((funded [] 0).utxoSet.spendInputs_eq_true_iff t tx.inputs).mp hs).1 hdup

end Ledger

end Qrtb
