import Qrtb.Blocks.Template

/-!
# Applying a filled template in order

All transactions of a template were validated against one ledger, and a block
applies them one after another. The pool keeps different transactions from
spending the same output, so what the spends of a template do is never seen by
a later transaction of it. What is seen are the roots that earlier registrations
and rotations wrote, and what is left to fail inside one transaction is a repeated
reference.
-/

namespace Qrtb

open Keccak Transition

namespace Ledger

variable {L M : Ledger} {tx : Transaction} {epoch : ℤ}

/-- What an input of a transaction shows when the root of its owner was written just before it. A
registration is too late then. -/
def ShowsUnder (type : TxType) (inp : TxInput) (root : Bytes) : Prop :=
  match type with
  | .coinbase | .slash => True
  | .register => False
  | .rotateAuth =>
    MerkleTree.verifyProof (sha3_256 (inp.publicKey.take wotsPubSize))
      (rotationProof inp.publicKey) root = true
  | .transfer | .stake | .unstake | .data =>
    ∃ proof, inp.authProof = some proof ∧ proof ≠ [] ∧
      MerkleTree.verifyProof (sha3_256 inp.publicKey) proof root = true

/-- What the validator asks of the registry for an input of a given owner. -/
def OwnerAllows (L : Ledger) (type : TxType) (owner : Bytes) (inp : TxInput) : Prop :=
  match type with
  | .coinbase | .slash => True
  | .register => L.authRegistry.isRegistered owner = false
  | .rotateAuth =>
    L.authRegistry.isRegistered owner = true ∧
      ∃ root, L.authRegistry.getAuthRoot owner = some root ∧ ShowsUnder .rotateAuth inp root
  | .transfer | .stake | .unstake | .data => L.OwnerProved owner inp

theorem ownerAllows_iff_of_root {type : TxType} {owner root : Bytes} {inp : TxInput}
    (hreg : L.authRegistry.isRegistered owner = true)
    (hroot : L.authRegistry.getAuthRoot owner = some root) :
    L.OwnerAllows type owner inp ↔ ShowsUnder type inp root := by
  cases type <;> simp [OwnerAllows, ShowsUnder, OwnerProved, provedUnder, hreg, hroot]

theorem ownerAllows_congr {type : TxType} {owner : Bytes} {inp : TxInput}
    (hreg : M.authRegistry.isRegistered owner = L.authRegistry.isRegistered owner)
    (hroot : M.authRegistry.getAuthRoot owner = L.authRegistry.getAuthRoot owner) :
    M.OwnerAllows type owner inp ↔ L.OwnerAllows type owner inp := by
  cases type <;> simp [OwnerAllows, OwnerProved, provedUnder, hreg, hroot]

/-- The referenced outputs are unspent in both ledgers, and the same. -/
def SameOutputs (L M : Ledger) (tx : Transaction) : Prop :=
  ∀ inp ∈ tx.inputs, ∃ u v, L.InputUnspent inp u ∧ M.InputUnspent inp v ∧ v.output = u.output

theorem Accepts.sameOutputs (h : L.Accepts tx epoch) : L.SameOutputs L tx := by
  intro inp hinp
  obtain ⟨u, hu⟩ := h.inputUnspent inp hinp
  exact ⟨u, u, hu, hu, rfl⟩

namespace SameOutputs

theorem output_eq (hv : L.SameOutputs M tx) {inp : TxInput} (hi : inp ∈ tx.inputs) {u v : Utxo}
    (hu : L.findUtxo inp = some u) (hv' : M.findUtxo inp = some v) : v.output = u.output := by
  obtain ⟨u', v', ⟨hu', -⟩, ⟨hv'', -⟩, hout⟩ := hv inp hi
  obtain rfl := Option.some.inj (hu.symm.trans hu')
  obtain rfl := Option.some.inj (hv'.symm.trans hv'')
  exact hout

theorem exists_unspent (hv : L.SameOutputs M tx) {inp : TxInput} (hi : inp ∈ tx.inputs) {u : Utxo}
    (hu : L.findUtxo inp = some u) : ∃ v, M.InputUnspent inp v ∧ v.output = u.output := by
  obtain ⟨-, v, -, hv', -⟩ := hv inp hi
  exact ⟨v, hv', hv.output_eq hi hu hv'.1⟩

theorem conserves (hv : L.SameOutputs M tx) (hc : L.Conserves tx) : M.Conserves tx := by
  have hvalues : tx.inputs.map M.valueOf = tx.inputs.map L.valueOf := by
    apply List.map_congr_left
    intro inp hi
    obtain ⟨u, v, hu, hv', hout⟩ := hv inp hi
    rw [M.valueOf_eq hv'.1, L.valueOf_eq hu.1, hout]
  rw [Conserves, hvalues]
  exact hc

theorem transferInputOk (hv : L.SameOutputs M tx) {signingHash : Bytes} {inp : TxInput}
    (hi : inp ∈ tx.inputs) (hok : L.TransferInputOk signingHash epoch inp)
    (howner : ∀ u, L.findUtxo inp = some u → M.OwnerProved u.output.address inp) :
    M.TransferInputOk signingHash epoch inp := by
  obtain ⟨u, hu, hlock, hsig, -⟩ := hok
  obtain ⟨v, hv', hout⟩ := hv.exists_unspent hi hu.1
  exact ⟨v, hv', hout ▸ hlock, hsig, hout ▸ howner u hu.1⟩

theorem slashInputOk (hv : L.SameOutputs M tx) {signingHash : Bytes} {inp : TxInput}
    (hi : inp ∈ tx.inputs) (hok : L.SlashInputOk signingHash inp) :
    M.SlashInputOk signingHash inp := by
  obtain ⟨hsig, u, hu, hlock⟩ := hok
  obtain ⟨v, hv', hout⟩ := hv.exists_unspent hi hu.1
  exact ⟨hsig, v, hv', hout ▸ hlock⟩

theorem exists_registerOk (hv : L.SameOutputs M tx) {inp : TxInput} {out : TxOutput} {u : Utxo}
    {signingHash : Bytes} (rule : L.RegisterOk tx epoch inp out u signingHash)
    (hfresh : M.authRegistry.isRegistered u.output.address = false) :
    ∃ v, M.RegisterOk tx epoch inp out v signingHash := by
  have hi : inp ∈ tx.inputs := by simp [rule.inputs]
  obtain ⟨v, hv', hout⟩ := hv.exists_unspent hi rule.unspent.1
  exact ⟨v,
    { rule with
      unspent := hv'
      owner := hout ▸ rule.owner
      unlocked := hout ▸ rule.unlocked
      fresh := rule.owner ▸ hfresh
      conserves := hv.conserves rule.conserves }⟩

theorem exists_rotateOk (hv : L.SameOutputs M tx) {inp : TxInput} {out : TxOutput} {u : Utxo}
    {signingHash root : Bytes} (rule : L.RotateOk tx epoch inp out u signingHash root)
    (hallows : M.OwnerAllows .rotateAuth u.output.address inp) :
    ∃ v root', M.RotateOk tx epoch inp out v signingHash root' := by
  have hi : inp ∈ tx.inputs := by simp [rule.inputs]
  obtain ⟨v, hv', hout⟩ := hv.exists_unspent hi rule.unspent.1
  obtain ⟨hreg, root', hroot', hshows⟩ := hallows
  have hproved := rule.proved
  rw [TemporalAuthTree.verifyAgainstRoot, Bool.and_eq_true] at hproved
  refine ⟨v, root', ?_⟩
  exact
    { rule with
      unspent := hv'
      unlocked := hout ▸ rule.unlocked
      registered := hout ▸ hreg
      currentRoot := hout ▸ hroot'
      proved := by
        rw [TemporalAuthTree.verifyAgainstRoot, Bool.and_eq_true]
        exact ⟨hproved.1, hshows⟩
      conserves := hv.conserves rule.conserves }

end SameOutputs

theorem Accepts.ownerAllows (h : L.Accepts tx epoch) {inp : TxInput} (hi : inp ∈ tx.inputs)
    {u : Utxo} (hu : L.findUtxo inp = some u) :
    L.OwnerAllows tx.txType u.output.address inp := by
  cases h.cases with
  | coinbase type => simp [OwnerAllows, type]
  | slash type => simp [OwnerAllows, type]
  | transfer type sh hash each =>
    obtain ⟨v, hv, -, -, howner⟩ := each inp hi
    obtain rfl := Option.some.inj (hu.symm.trans hv.1)
    rcases type with type | type | type | type <;> simpa [OwnerAllows, type] using howner
  | register type inp' out v sh rule =>
    obtain rfl : inp = inp' := by simpa [rule.inputs] using hi
    obtain rfl := Option.some.inj (hu.symm.trans rule.unspent.1)
    simpa [OwnerAllows, type, rule.owner] using rule.fresh
  | rotate type inp' out v sh root rule =>
    obtain rfl : inp = inp' := by simpa [rule.inputs] using hi
    obtain rfl := Option.some.inj (hu.symm.trans rule.unspent.1)
    have hproved := rule.proved
    rw [TemporalAuthTree.verifyAgainstRoot, Bool.and_eq_true] at hproved
    rw [type]
    exact ⟨rule.registered, root, rule.currentRoot, hproved.2⟩

/-- Over the same outputs a transaction that one ledger accepts is accepted by another that allows
its owners. -/
theorem Accepts.iff_ownerAllows (h : L.Accepts tx epoch) (hv : L.SameOutputs M tx) :
    M.Accepts tx epoch ↔
      ∀ inp ∈ tx.inputs, ∀ u, L.findUtxo inp = some u →
        M.OwnerAllows tx.txType u.output.address inp := by
  constructor
  · intro h' inp hi u hu
    obtain ⟨v, hv', hout⟩ := hv.exists_unspent hi hu
    rw [← hout]
    exact h'.ownerAllows hi hv'.1
  intro hallows
  have hadmissible := ((L.accepts_iff tx epoch).mp h).1
  have hbody := ((L.accepts_iff tx epoch).mp h).2
  rw [accepts_iff]
  refine ⟨hadmissible, ?_⟩
  cases h.cases with
  | coinbase type =>
    rw [validateByType, type] at hbody ⊢
    exact hbody
  | transfer type sh hash each conserves =>
    obtain ⟨-, hextra⟩ := (L.validateByType_of_transferLike type).mp hbody
    refine (M.validateByType_of_transferLike type).mpr ⟨?_, hextra⟩
    refine (M.validateTransfer_eq_ok tx epoch ()).mpr ⟨sh, hash, ?_, hv.conserves conserves⟩
    intro inp hi
    refine hv.transferInputOk hi (each inp hi) fun u hu => ?_
    have howner := hallows inp hi u hu
    rcases type with type | type | type | type <;> simpa [OwnerAllows, type] using howner
  | slash type sh hash each =>
    rw [validateByType, type] at hbody ⊢
    obtain ⟨out, outs, -, ho, hd, hi, -, -⟩ := (L.validateSlash_eq_ok tx).mp hbody
    exact (M.validateSlash_eq_ok tx).mpr
      ⟨out, outs, sh, ho, hd, hi, hash, fun inp hinp => hv.slashInputOk hinp (each inp hinp)⟩
  | register type inp out u sh rule =>
    have hfresh := hallows inp (by simp [rule.inputs]) u rule.unspent.1
    rw [type] at hfresh
    obtain ⟨v, rule'⟩ := hv.exists_registerOk rule hfresh
    rw [validateByType, type]
    exact (M.validateRegister_eq_ok tx epoch).mpr ⟨inp, out, v, sh, rule'⟩
  | rotate type inp out u sh root rule =>
    have howner := hallows inp (by simp [rule.inputs]) u rule.unspent.1
    rw [type] at howner
    obtain ⟨v, root', rule'⟩ := hv.exists_rotateOk rule howner
    rw [validateByType, type]
    exact (M.validateRotateAuth_eq_ok tx epoch).mpr ⟨inp, out, v, sh, root', rule'⟩

/-- The address whose root a transaction writes, with the root. The owner of a rotation is read off
the ledger. -/
def rootWritten (L : Ledger) (tx : Transaction) : Option (Bytes × Bytes) :=
  match tx.txType with
  | .register =>
    tx.outputs.head?.map fun out =>
      (deriveAddress (out.data.take 64), Bytes.slice out.data 64 96)
  | .rotateAuth =>
    match tx.outputs.head?, tx.inputs.head?.bind L.findUtxo with
    | some out, some u => some (u.output.address, out.data.take 32)
    | _, _ => none
  | _ => none

/-- What the transaction writes to the root of one address. -/
def writesTo (L : Ledger) (address : Bytes) (tx : Transaction) : Option Bytes :=
  (L.rootWritten tx).bind fun w => if w.1 = address then some w.2 else none

/-- The root written to an address last, if the transactions write one at all. -/
def lastRoot (L : Ledger) (txs : List Transaction) (address : Bytes) : Option Bytes :=
  lastWrite (L.writesTo address) txs

theorem lastRoot_append_singleton (txs : List Transaction) (tx : Transaction) (address : Bytes) :
    L.lastRoot (txs ++ [tx]) address = (L.writesTo address tx).or (L.lastRoot txs address) :=
  lastWrite_append_singleton _ txs tx

/-- Every input whose owner was given a root shows what its type needs under the last one. -/
def ShowsLastRoots (L : Ledger) (txs : List Transaction) (tx : Transaction) : Prop :=
  ∀ inp ∈ tx.inputs, ∀ u, L.findUtxo inp = some u → ∀ root,
    L.lastRoot txs u.output.address = some root → ShowsUnder tx.txType inp root

/-- No transaction names an output twice, and each shows the roots written before it. -/
structure Orderly (L : Ledger) (txs : List Transaction) : Prop where
  distinct : ∀ tx ∈ txs, tx.refs.Nodup
  shown : ∀ pre tx post, txs = pre ++ tx :: post → L.ShowsLastRoots pre tx

/-- Where the first transaction creates a key that the second references, it creates the output that
is stored there already. -/
def RecreatesSame (L : Ledger) (tx tx' : Transaction) : Prop :=
  ∀ inp ∈ tx'.inputs, ∀ u, L.findUtxo inp = some u → ∀ h, ∀ j : ℕ, ∀ out, tx.txHash = .ok h →
    tx.outputs[j]? = some out → inp.ref = (h, (j : ℤ)) → out = u.output

/-- What the ledger looks like after some of the transactions, to those that are left. -/
structure Follows (L : Ledger) (pre rest : List Transaction) (M : Ledger) : Prop where
  outputs : ∀ tx ∈ rest, L.SameOutputs M tx
  registered : ∀ address, M.authRegistry.isRegistered address =
    ((L.lastRoot pre address).isSome || L.authRegistry.isRegistered address)
  root : ∀ address, M.authRegistry.getAuthRoot address =
    (L.lastRoot pre address).or (L.authRegistry.getAuthRoot address)

/-- Acceptance after the others is acceptance before them, with the last roots shown. -/
theorem Follows.accepts_iff {pre rest : List Transaction} (h : L.Follows pre (tx :: rest) M)
    (ha : L.Accepts tx epoch) : M.Accepts tx epoch ↔ L.ShowsLastRoots pre tx := by
  rw [ha.iff_ownerAllows (h.outputs tx List.mem_cons_self)]
  apply forall₂_congr
  intro inp hi
  apply forall₂_congr
  intro u hu
  have hreg := h.registered u.output.address
  have hroot := h.root u.output.address
  cases hlast : L.lastRoot pre u.output.address with
  | none =>
    rw [hlast] at hreg hroot
    rw [ownerAllows_congr hreg hroot]
    simpa using ha.ownerAllows hi hu
  | some root =>
    rw [hlast] at hreg hroot
    rw [ownerAllows_iff_of_root hreg hroot]
    simp

/-- An entry that was the same before a transaction is applied is the same after it. -/
theorem RecreatesSame.output_eq {tx' : Transaction} (h : L.RecreatesSame tx tx') {inp : TxInput}
    (hi : inp ∈ tx'.inputs) {u v w : Utxo} (hu : L.findUtxo inp = some u)
    (hv : M.findUtxo inp = some v) (hout : v.output = u.output)
    (hw : (applyTransaction tx M).2.findUtxo inp = some w) : w.output = u.output := by
  have hget : M.utxoSet.utxos.get? inp.ref = some v := hv
  have hget' : (applyTransaction tx M).2.utxoSet.utxos.get? inp.ref = some w := hw
  rcases get?_applyTransaction tx M inp.ref with hsame | ⟨-, v', t, hv', -, hspent⟩ |
      ⟨t, j, out, ht, -, hj, hk, hnew⟩
  · rw [hsame, hget] at hget'
    rw [← Option.some.inj hget', hout]
  · obtain rfl := Option.some.inj (hget.symm.trans hv')
    rw [hspent] at hget'
    rw [← Option.some.inj hget']
    exact hout
  · rw [hnew] at hget'
    rw [← Option.some.inj hget']
    exact h inp hi u hu t j out ht hj hk

/-- What a transaction that spends apart references is unspent and the same after the other. -/
theorem RecreatesSame.sameOutputs {tx' : Transaction} (h : L.RecreatesSame tx tx')
    (hapart : Mempool.SpendApart tx tx') (hv : L.SameOutputs M tx') :
    L.SameOutputs (applyTransaction tx M).2 tx' := by
  intro inp hi
  obtain ⟨u, v, hu, hv', hout⟩ := hv inp hi
  have hget : M.utxoSet.utxos.get? inp.ref = some v := hv'.1
  rcases get?_applyTransaction tx M inp.ref with hsame | ⟨hmem, -⟩ |
      ⟨t, j, out, ht, -, hj, hk, hnew⟩
  · exact ⟨u, v, hu, ⟨hsame.trans hget, hv'.2⟩, hout⟩
  · exact absurd (List.mem_map_of_mem hi) (hapart hmem)
  · exact ⟨u, _, hu, ⟨hnew, rfl⟩, h inp hi u hu.1 t j out ht hj hk⟩

/-- The registry after an accepted transaction has what the transaction writes. -/
theorem registry_applyTransaction (ha : M.Accepts tx epoch)
    (happly : (applyTransaction tx M).1 = .ok true) (hv : L.SameOutputs M tx)
    (hself : L.RecreatesSame tx tx) (address : Bytes) :
    (applyTransaction tx M).2.authRegistry.isRegistered address =
        ((L.writesTo address tx).isSome || M.authRegistry.isRegistered address) ∧
      (applyTransaction tx M).2.authRegistry.getAuthRoot address =
        (L.writesTo address tx).or (M.authRegistry.getAuthRoot address) := by
  have hidle : tx.txType ≠ .register → tx.txType ≠ .rotateAuth →
      (applyTransaction tx M).2.authRegistry = M.authRegistry ∧ L.writesTo address tx = none := by
    intro hreg hrot
    refine ⟨authRegistry_applyTransaction hreg hrot, ?_⟩
    rw [writesTo, rootWritten]
    cases htype : tx.txType <;> first | rfl | contradiction
  cases ha.cases with
  | register type inp out u sh rule =>
    have hwrites : L.writesTo address tx =
        if deriveAddress (out.data.take 64) = address then some (Bytes.slice out.data 64 96)
        else none := by
      simp [writesTo, rootWritten, type, rule.outputs]
    rw [authRegistry_applyTransaction_register happly type rule.outputs, hwrites,
      AuthRegistry.isRegistered_registerViaTx, AuthRegistry.getAuthRoot_registerViaTx rule.fresh]
    split_ifs with howner <;> simp [howner]
  | rotate type inp out v sh root rule =>
    have hi : inp ∈ tx.inputs := by simp [rule.inputs]
    obtain ⟨w, hw, hregistry⟩ := authRegistry_applyTransaction_rotate happly type rule.outputs
      (by rw [rule.inputs, List.head?_cons] : tx.inputs.head? = some inp)
    obtain ⟨u, v', hu, hv', hout⟩ := hv inp hi
    obtain rfl := Option.some.inj (rule.unspent.1.symm.trans hv'.1)
    have howner := rule.registered
    rw [hout] at howner
    have hwrites : L.writesTo address tx =
        if u.output.address = address then some (out.data.take 32) else none := by
      simp [writesTo, rootWritten, type, rule.outputs, rule.inputs, hu.1]
    rw [hregistry, hself.output_eq hi hu.1 hv'.1 hout hw, hwrites,
      AuthRegistry.isRegistered_rotateViaTx, AuthRegistry.getAuthRoot_rotateViaTx howner]
    by_cases heq : u.output.address = address
    · simp [← heq, howner]
    · simp [heq, Ne.symm heq]
  | coinbase type | slash type =>
    obtain ⟨hsame, hnone⟩ := hidle (by simp [type]) (by simp [type])
    simp [hsame, hnone]
  | transfer type =>
    have hplain : tx.txType ≠ .register ∧ tx.txType ≠ .rotateAuth := by
      rcases type with type | type | type | type <;> simp [type]
    obtain ⟨hsame, hnone⟩ := hidle hplain.1 hplain.2
    simp [hsame, hnone]

theorem Follows.step {pre rest : List Transaction} (h : L.Follows pre (tx :: rest) M)
    (ha : M.Accepts tx epoch) (happly : (applyTransaction tx M).1 = .ok true)
    (hself : L.RecreatesSame tx tx) (hlater : ∀ tx' ∈ rest, L.RecreatesSame tx tx')
    (hapart : ∀ tx' ∈ rest, Mempool.SpendApart tx tx') :
    L.Follows (pre ++ [tx]) rest (applyTransaction tx M).2 := by
  have hregistry := registry_applyTransaction ha happly (h.outputs tx List.mem_cons_self) hself
  constructor
  · intro tx' htx'
    exact (hlater tx' htx').sameOutputs (hapart tx' htx')
      (h.outputs tx' (List.mem_cons_of_mem _ htx'))
  · intro address
    rw [(hregistry address).1, h.registered, lastRoot_append_singleton]
    cases L.writesTo address tx <;> simp
  · intro address
    rw [(hregistry address).2, h.root, lastRoot_append_singleton, Option.or_assoc]

theorem Follows.refl {txs : List Transaction} (haccepts : ∀ tx ∈ txs, L.Accepts tx epoch) :
    L.Follows [] txs L where
  outputs := fun tx htx => (haccepts tx htx).sameOutputs
  registered := fun address => by simp [lastRoot, lastWrite]
  root := fun address => by simp [lastRoot, lastWrite]

end Ledger

namespace BlockProducer

open Ledger

variable {p p' : BlockProducer} {epoch : ℤ} {n : ℕ} {t : BlockTemplate}

end BlockProducer

end Qrtb
