import Qrtb.Ledger.Runs

/-!
# Authentication of spends

The rule for an output owned by a registered address: the spending input shows
a key that a proof it carries places under the owner's current root. A rotation
carries key and proof inside its public-key field. Every validator but that of
SLASH enforces the rule; a slash spends a staked output whoever owns it.
-/

namespace Qrtb

open Keccak

/-- The key an input shows; for a rotation the first 2144 bytes of the field. -/
def carriedKey (type : TxType) (inp : TxInput) : Bytes :=
  if type = .rotateAuth then inp.publicKey.take wotsPubSize else inp.publicKey

/-- The proof an input carries; for a rotation the one encoded in the public-key field. -/
def carriedProof (type : TxType) (inp : TxInput) : Option (List ProofEntry) :=
  if type = .rotateAuth then some (rotationProof inp.publicKey) else inp.authProof

namespace Ledger

/-- Every input that spends from a registered address proves its key under the current root. -/
def SpendsAuthenticated (L : Ledger) (tx : Transaction) : Prop :=
  ∀ inp ∈ tx.inputs, ∀ u, L.findUtxo inp = some u →
    L.authRegistry.isRegistered u.output.address = true →
    ∃ proof root, carriedProof tx.txType inp = some proof ∧
      L.authRegistry.getAuthRoot u.output.address = some root ∧
      MerkleTree.verifyProof (sha3_256 (carriedKey tx.txType inp)) proof root = true

theorem exists_root_of_provedUnder {L : Ledger} {address key : Bytes} {proof : List ProofEntry}
    (h : L.provedUnder address key proof = true) :
    ∃ root, L.authRegistry.getAuthRoot address = some root ∧
      MerkleTree.verifyProof (sha3_256 key) proof root = true :=
  (Option.any_eq_true _ _).mp h

/-- A reachable ledger in which an owner is registered under a root of choice and still holds a
locked output. -/
theorem exists_registered {innerHash authRoot : Bytes} (hi : innerHash.length = 64)
    (hr : authRoot.length = 32) :
    ∃ L : Ledger, ∃ h, L.Reachable ∧
      L.authRegistry.isRegistered (deriveAddress innerHash) = true ∧
      L.authRegistry.getAuthRoot (deriveAddress innerHash) = some authRoot ∧
      L.utxoSet.utxos.get? (h, 1) = some (UtxoSet.newUtxo 0 h 1
        { value := 1000000, address := deriveAddress innerHash, lockEpoch := 1 }) := by
  let owner := deriveAddress innerHash
  let out : TxOutput := { value := 900000, address := [], data := innerHash ++ authRoot }
  obtain ⟨h, -, hfree, hlocked⟩ :=
    exists_funded owner (by decide : (0 : ℤ) ≤ 1) (by decide)
  have hlen : out.data.length = 96 := by simp [out, hi, hr]
  have htake : out.data.take 64 = innerHash := by rw [← hi, List.take_left]
  have hslice : Bytes.slice out.data 64 96 = authRoot := by
    rw [Bytes.slice, ← hi, List.drop_left, hi, List.take_of_length_le (by omega)]
  let tx := spending .register [(h, 0)] none out 0
  have hready : tx.ReadyToSign :=
    readyToSign_spending (by simp) (by simp) (by simp) (by simp) (by simp [out]) (by simp [out])
      (by omega) (by decide)
  have haccepts : (funded owner 1).Accepts (tx.signedBy []) 0 := by
    refine accepts_register_signedBy [] rfl hready (by simp [tx])
      (by simp [tx]) rfl rfl hlen ⟨hfree, rfl⟩ ?_ ?_ ?_ ?_
    · rw [htake]
      rfl
    · simp [UtxoSet.newUtxo]
    · simp [authRegistry_funded, AuthRegistry.isRegistered]
    · simp [tx, conserves_spending, UtxoSet.valueAt, hfree, UtxoSet.newUtxo, out]
  have happly : (applyTransaction (tx.signedBy []) (funded owner 1)).1 = .ok true :=
    applies_signedBy haccepts (by simp [tx]) hready.1
  have hhead : (tx.signedBy []).outputs.head? = some out := by simp [tx]
  have hregistry := authRegistry_applyTransaction_register happly (by simp [tx]) hhead
  refine ⟨_, h, (reachable_funded owner 1).apply haccepts, ?_, ?_, ?_⟩
  · simp [hregistry, authRegistry_funded, AuthRegistry.registerViaTx, AuthRegistry.isRegistered,
      out, htake]
  · simp [hregistry, authRegistry_funded, AuthRegistry.registerViaTx, AuthRegistry.getAuthRoot,
      out, htake, hslice]
  · rw [get?_applyTransaction_of_not_creates, hlocked]
    · simp [Transaction.refs_signedBy, tx]
    · exact not_creates_spending [] h

/-- Every accepted transaction other than a coinbase or a slash is authenticated. -/
theorem authenticated_spends {L : Ledger} {tx : Transaction} {currentEpoch : ℤ}
    (h : L.Accepts tx currentEpoch) (hc : tx.txType ≠ .coinbase) (hs : tx.txType ≠ .slash) :
    L.SpendsAuthenticated tx := by
  intro inp hinp u hu hreg
  cases h.cases with
  | coinbase type => exact absurd type hc
  | slash type => exact absurd type hs
  | transfer type signingHash hash each =>
    have hrot : tx.txType ≠ .rotateAuth := by
      intro hr
      simp [IsTransferLike, hr] at type
    obtain ⟨u', ⟨hu', -⟩, -, -, howner⟩ := each inp hinp
    obtain rfl := Option.some.inj (hu.symm.trans hu')
    obtain ⟨proof, hproof, -, hproved⟩ := howner hreg
    obtain ⟨root, hroot, hverify⟩ := exists_root_of_provedUnder hproved
    exact ⟨proof, root, by simpa [carriedProof, hrot] using hproof, hroot,
      by simpa [carriedKey, hrot] using hverify⟩
  | register type inp' out u' signingHash rule =>
    obtain rfl : inp = inp' := by simpa [rule.inputs] using hinp
    obtain rfl := Option.some.inj (hu.symm.trans rule.unspent.1)
    rw [rule.owner, rule.fresh] at hreg
    cases hreg
  | rotate type inp' out u' signingHash root rule =>
    obtain rfl : inp = inp' := by simpa [rule.inputs] using hinp
    obtain rfl := Option.some.inj (hu.symm.trans rule.unspent.1)
    have hproved := rule.proved
    rw [TemporalAuthTree.verifyAgainstRoot, Bool.and_eq_true] at hproved
    exact ⟨rotationProof inp.publicKey, root, by simp [carriedProof, type], rule.currentRoot,
      by simpa [carriedKey, type] using hproved.2⟩

end Ledger

end Qrtb
