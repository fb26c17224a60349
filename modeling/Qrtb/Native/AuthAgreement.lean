import Qrtb.Ledger.UtxoSet
import Qrtb.Lib.Registry
import Qrtb.Lib.Simulation
import Qrtb.Native.AuthRegistry
import Qrtb.Storage.AuthTable

/-!
# Three registries of authentication roots

The ledger keeps a set of addresses and two maps, the database a table with the address
as its key, the native code one map. Each is a one-time registry of roots that counts
the rotations: the ledger always, the database as long as the epochs fit their column,
and the native code as long as the counts fit 32 bits.
-/

namespace Qrtb

open Native (MerkleHash)

/-- A call on a registry. The database alone records the epoch and the transaction. -/
inductive AuthCall where
  | register (address : Bytes) (authRoot : MerkleHash) (epoch : ℤ) (txHash : Option Bytes)
  | rotate (address : Bytes) (newAuthRoot : MerkleHash) (epoch : ℤ) (txHash : Option Bytes)

namespace AuthCall

def epoch : AuthCall → ℤ
  | .register _ _ epoch _ => epoch
  | .rotate _ _ epoch _ => epoch

def isRotation : AuthCall → Bool
  | .register .. => false
  | .rotate .. => true

def onLedger : AuthCall → AuthRegistry → Option (Bool × AuthRegistry)
  | .register address authRoot _ _, p => some (p.registerViaTx address authRoot.val)
  | .rotate address newAuthRoot _ _, p => some (p.rotateViaTx address newAuthRoot.val)

def onDatabase : AuthCall → AuthTable → Option (Bool × AuthTable)
  | .register address authRoot epoch txHash, s =>
    match s.registerAuth address authRoot.val epoch txHash with
    | (.ok answer, s) => some (answer, s)
    | (.error _, _) => none
  | .rotate address newAuthRoot epoch txHash, s =>
    some (s.rotateAuth address newAuthRoot.val epoch txHash)

def onNative (overflowChecks : Bool) :
    AuthCall → Native.AuthRegistry → Option (Bool × Native.AuthRegistry)
  | .register address authRoot _ _, r => some (r.register address authRoot)
  | .rotate address newAuthRoot _ _, r => r.rotate overflowChecks address newAuthRoot

def onRegistry : AuthCall → Registry Bytes MerkleHash → Bool × Registry Bytes MerkleHash
  | .register address authRoot _ _, a => a.register address authRoot
  | .rotate address newAuthRoot _ _, a => a.rotate address newAuthRoot

/-- The epoch fits its column, and a count that is raised has room. -/
def Fits (call : AuthCall) (a : Registry Bytes MerkleHash) : Prop :=
  FitsSql call.epoch ∧ ∀ address entry, call.isRotation = true → a address = some entry →
    entry.2 + 1 < 2 ^ 32

end AuthCall

/-- The three containers of the ledger describe one registry. -/
structure AuthRegistry.Represents (p : AuthRegistry) (a : Registry Bytes MerkleHash) : Prop where
  registered : ∀ address, address ∈ p.registeredAddresses ↔ (a address).isSome
  root : ∀ address, p.authRoots.get? address = (a address).map fun entry => entry.1.val
  count : ∀ address, p.rotationCounts.get? address = (a address).map fun entry => (entry.2 : ℤ)

theorem AuthRegistry.Represents.isRegistered_eq {p : AuthRegistry} {a : Registry Bytes MerkleHash}
    (h : p.Represents a) (address : Bytes) : p.isRegistered address = (a address).isSome := by
  rw [Bool.eq_iff_iff, AuthRegistry.isRegistered, decide_eq_true_iff]
  exact h.registered address

theorem AuthRegistry.Represents.mem {p : AuthRegistry} {a : Registry Bytes MerkleHash}
    (h : p.Represents a) {address : Bytes} {entry : MerkleHash × ℕ} (ha : a address = some entry) :
    address ∈ p.registeredAddresses :=
  (h.registered address).mpr (Option.isSome_of_eq_some ha)

theorem AuthRegistry.Represents.notMem {p : AuthRegistry} {a : Registry Bytes MerkleHash}
    (h : p.Represents a) {address : Bytes} (ha : a address = none) :
    address ∉ p.registeredAddresses := by
  rw [h.registered, ha]
  exact Bool.false_ne_true

theorem AuthRegistry.Represents.registerViaTx {p : AuthRegistry} {a : Registry Bytes MerkleHash}
    (h : p.Represents a) (address : Bytes) (authRoot : MerkleHash) :
    (p.registerViaTx address authRoot.val).1 = (a.register address authRoot).1 ∧
      (p.registerViaTx address authRoot.val).2.Represents (a.register address authRoot).2 := by
  cases ha : a address with
  | some entry =>
    rw [AuthRegistry.registerViaTx, if_pos (h.mem ha), Registry.register_of_some ha]
    exact ⟨rfl, h⟩
  | none =>
    rw [AuthRegistry.registerViaTx, if_neg (h.notMem ha), Registry.register_of_none ha]
    refine ⟨rfl, ⟨fun other => ?_, ?_, ?_⟩⟩
    · dsimp only
      rw [Finset.mem_insert, Function.update_apply, h.registered]
      split_ifs with hother <;> simp [hother]
    · exact Registry.get?_set_update (F := id) (G := Option.map _) h.root rfl
    · exact Registry.get?_set_update (F := id) (G := Option.map _) h.count rfl

theorem AuthRegistry.Represents.rotateViaTx {p : AuthRegistry} {a : Registry Bytes MerkleHash}
    (h : p.Represents a) (address : Bytes) (newAuthRoot : MerkleHash) :
    (p.rotateViaTx address newAuthRoot.val).1 = (a.rotate address newAuthRoot).1 ∧
      (p.rotateViaTx address newAuthRoot.val).2.Represents (a.rotate address newAuthRoot).2 := by
  cases ha : a address with
  | none =>
    rw [AuthRegistry.rotateViaTx, if_pos (h.notMem ha), Registry.rotate_of_none ha]
    exact ⟨rfl, h⟩
  | some entry =>
    have hcount : p.rotationCounts.getD address 0 = entry.2 := by
      rw [OrderedDict.getD, h.count, ha]
      rfl
    rw [AuthRegistry.rotateViaTx, if_neg (not_not.mpr (h.mem ha)), hcount,
      Registry.rotate_of_some ha]
    refine ⟨rfl, ⟨fun other => ?_, ?_, ?_⟩⟩
    · dsimp only
      rw [Function.update_apply, h.registered]
      split_ifs with hother
      · rw [hother, ha]
        exact iff_of_true rfl rfl
      · exact Iff.rfl
    · exact Registry.get?_set_update (F := id) (G := Option.map _) h.root rfl
    · exact Registry.get?_set_update (F := id) (G := Option.map _) h.count rfl

theorem ledger_simulates :
    Simulation.Simulates AuthCall.onLedger AuthCall.onRegistry AuthCall.Fits
      AuthRegistry.Represents := by
  intro call p a _ hR
  cases call with
  | register address authRoot epoch txHash =>
    obtain ⟨hanswer, hnext⟩ := hR.registerViaTx address authRoot
    exact ⟨_, congrArg some (Prod.ext hanswer rfl), hnext⟩
  | rotate address newAuthRoot epoch txHash =>
    obtain ⟨hanswer, hnext⟩ := hR.rotateViaTx address newAuthRoot
    exact ⟨_, congrArg some (Prod.ext hanswer rfl), hnext⟩

def AuthTable.Represents (s : AuthTable) (a : Registry Bytes MerkleHash) : Prop :=
  ∀ address, (s.rows.get? address).map (fun row => (row.authRoot, row.rotationCount)) =
    (a address).map fun entry => (entry.1.val, (entry.2 : ℤ))

theorem AuthTable.Represents.views {s : AuthTable} {a : Registry Bytes MerkleHash}
    (h : s.Represents a) (address : Bytes) :
    s.isAddressRegistered address = (a address).isSome ∧
      s.getAuthRoot address = (a address).map (fun entry => entry.1.val) ∧
      (s.rows.get? address).map AuthRow.rotationCount =
        (a address).map fun entry => (entry.2 : ℤ) := by
  have hsome := congrArg Option.isSome (h address)
  have hroot := congrArg (Option.map Prod.fst) (h address)
  have hcount := congrArg (Option.map Prod.snd) (h address)
  rw [Option.isSome_map, Option.isSome_map] at hsome
  rw [Option.map_map, Option.map_map] at hroot hcount
  exact ⟨hsome, hroot, hcount⟩

theorem AuthTable.Represents.registerAuth {s : AuthTable} {a : Registry Bytes MerkleHash}
    (h : s.Represents a) (address : Bytes) (authRoot : MerkleHash) {epoch : ℤ}
    (hepoch : FitsSql epoch) (txHash : Option Bytes) :
    ∃ s', s.registerAuth address authRoot.val epoch txHash =
        (.ok (a.register address authRoot).1, s') ∧
      s'.Represents (a.register address authRoot).2 := by
  have hcontains : s.rows.contains address = (a address).isSome := (h.views address).1
  rw [AuthTable.registerAuth_eq hepoch, hcontains]
  cases ha : a address with
  | some entry =>
    rw [Registry.register_of_some ha]
    exact ⟨s, rfl, h⟩
  | none =>
    rw [Registry.register_of_none ha]
    exact ⟨{ s with rows := s.rows.set address ⟨authRoot.val, epoch, txHash, 0⟩ }, rfl,
      Registry.get?_set_update (F := Option.map _) (G := Option.map _) h rfl⟩

theorem AuthTable.Represents.rotateAuth {s : AuthTable} {a : Registry Bytes MerkleHash}
    (h : s.Represents a) (address : Bytes) (newAuthRoot : MerkleHash) {epoch : ℤ}
    (hepoch : FitsSql epoch) (txHash : Option Bytes) :
    (s.rotateAuth address newAuthRoot.val epoch txHash).1 = (a.rotate address newAuthRoot).1 ∧
      (s.rotateAuth address newAuthRoot.val epoch txHash).2.Represents
        (a.rotate address newAuthRoot).2 := by
  have hrow := h address
  rw [AuthTable.rotateAuth_eq hepoch]
  cases ha : a address with
  | none =>
    rw [ha] at hrow
    rw [Option.map_eq_none_iff.mp hrow, Registry.rotate_of_none ha]
    exact ⟨rfl, h⟩
  | some entry =>
    rw [ha] at hrow
    obtain ⟨row, hrow, hvalue⟩ := Option.map_eq_some_iff.mp hrow
    have hcount : row.rotationCount = entry.2 := (Prod.mk.inj hvalue).2
    rw [hrow, Registry.rotate_of_some ha]
    exact ⟨rfl, Registry.get?_set_update (F := Option.map _) (G := Option.map _) h
      (by simp [AuthRow.rotated, hcount])⟩

theorem database_simulates :
    Simulation.Simulates AuthCall.onDatabase AuthCall.onRegistry AuthCall.Fits
      AuthTable.Represents := by
  intro call s a hfits hR
  cases call with
  | register address authRoot epoch txHash =>
    have hepoch : FitsSql epoch := hfits.1
    obtain ⟨s', hregister, hnext⟩ := hR.registerAuth address authRoot hepoch txHash
    exact ⟨s', by rw [AuthCall.onDatabase, hregister]; rfl, hnext⟩
  | rotate address newAuthRoot epoch txHash =>
    obtain ⟨hanswer, hnext⟩ := hR.rotateAuth address newAuthRoot hfits.1 txHash
    exact ⟨_, congrArg some (Prod.ext hanswer rfl), hnext⟩

/-- The entries are the registry, with counts of 32 bits. -/
def Native.AuthRegistry.Represents (r : Native.AuthRegistry) (a : Registry Bytes MerkleHash) :
    Prop :=
  ∀ address, (r.entries.get? address).map (fun e => (e.authRoot, e.rotationCount.toNat)) =
    a address

theorem Native.AuthRegistry.Represents.views {r : Native.AuthRegistry}
    {a : Registry Bytes MerkleHash} (h : r.Represents a) (address : Bytes) :
    r.isRegistered address = (a address).isSome ∧
      (r.getAuthRoot address).map Subtype.val = (a address).map (fun entry => entry.1.val) ∧
      (r.getRotationCount address).map (fun count => (count.toNat : ℤ)) =
        (a address).map fun entry => (entry.2 : ℤ) := by
  rw [← h address, Option.isSome_map, Option.map_map, Option.map_map,
    Native.AuthRegistry.getAuthRoot, Native.AuthRegistry.getRotationCount, Option.map_map,
    Option.map_map]
  exact ⟨rfl, rfl, rfl⟩

theorem Native.AuthRegistry.Represents.register {r : Native.AuthRegistry}
    {a : Registry Bytes MerkleHash} (h : r.Represents a) (address : Bytes)
    (authRoot : MerkleHash) :
    (r.register address authRoot).1 = (a.register address authRoot).1 ∧
      (r.register address authRoot).2.Represents (a.register address authRoot).2 := by
  have hcontains : r.entries.contains address = (a address).isSome := (h.views address).1
  rw [Native.AuthRegistry.register, hcontains]
  cases ha : a address with
  | some entry =>
    rw [Registry.register_of_some ha]
    exact ⟨rfl, h⟩
  | none =>
    rw [Registry.register_of_none ha]
    exact ⟨rfl, Registry.get?_set_update (F := Option.map _) (G := id) h rfl⟩

/-- Whether overflows are checked does not matter while the count has room. -/
theorem Native.AuthRegistry.Represents.rotate {r : Native.AuthRegistry}
    {a : Registry Bytes MerkleHash} (h : r.Represents a) (overflowChecks : Bool)
    (address : Bytes) (newAuthRoot : MerkleHash)
    (hroom : ∀ entry, a address = some entry → entry.2 + 1 < 2 ^ 32) :
    ∃ r', r.rotate overflowChecks address newAuthRoot =
        some ((a.rotate address newAuthRoot).1, r') ∧
      r'.Represents (a.rotate address newAuthRoot).2 := by
  have hentry := h address
  cases ha : a address with
  | none =>
    rw [ha] at hentry
    rw [Native.AuthRegistry.rotate, Option.map_eq_none_iff.mp hentry, Registry.rotate_of_none ha]
    exact ⟨r, rfl, h⟩
  | some entry =>
    rw [ha] at hentry
    obtain ⟨e, he, rfl⟩ := Option.map_eq_some_iff.mp hentry
    have hlt : e.rotationCount.toNat + 1 < UInt32.size := hroom _ ha
    have hcount : (e.rotationCount + 1).toNat = e.rotationCount.toNat + 1 := by
      rw [UInt32.toNat_add]
      exact Nat.mod_eq_of_lt hlt
    rw [r.rotate_of_lt he hlt newAuthRoot, Registry.rotate_of_some ha]
    exact ⟨_, rfl, Registry.get?_set_update (F := Option.map _) (G := id) h (by simp [hcount])⟩

theorem native_simulates (overflowChecks : Bool) :
    Simulation.Simulates (AuthCall.onNative overflowChecks) AuthCall.onRegistry AuthCall.Fits
      Native.AuthRegistry.Represents := by
  intro call r a hfits hR
  cases call with
  | register address authRoot epoch txHash =>
    obtain ⟨hanswer, hnext⟩ := hR.register address authRoot
    exact ⟨_, congrArg some (Prod.ext hanswer rfl), hnext⟩
  | rotate address newAuthRoot epoch txHash =>
    exact hR.rotate overflowChecks address newAuthRoot fun entry => hfits.2 address entry rfl

theorem along_fits {calls : List AuthCall} (hepochs : ∀ c ∈ calls, FitsSql c.epoch)
    (hrotations : calls.countP AuthCall.isRotation < 2 ^ 32) :
    Simulation.Along AuthCall.onRegistry AuthCall.Fits calls fun _ => none := by
  refine Simulation.along_of_invariant
    (I := fun calls a => (∀ c ∈ calls, FitsSql c.epoch) ∧
      ∃ bound, bound + calls.countP AuthCall.isRotation < 2 ^ 32 ∧
        ∀ address entry, a address = some entry → entry.2 ≤ bound) ?_ ?_
    ⟨hepochs, 0, by omega, fun _ _ h => by cases h⟩
  · rintro call calls a ⟨hepochs, bound, hbound, hcounts⟩
    refine ⟨hepochs call List.mem_cons_self, fun address entry hrotation hentry => ?_⟩
    have := hcounts address entry hentry
    rw [List.countP_cons_of_pos hrotation] at hbound
    omega
  · rintro call calls a ⟨hepochs, bound, hbound, hcounts⟩
    refine ⟨fun c hc => hepochs c (List.mem_cons_of_mem _ hc), ?_⟩
    cases call with
    | register address authRoot epoch txHash =>
      rw [List.countP_cons_of_neg (by simp [AuthCall.isRotation])] at hbound
      exact ⟨bound, hbound, fun _ _ h => Registry.count_register hcounts authRoot h⟩
    | rotate address newAuthRoot epoch txHash =>
      rw [List.countP_cons_of_pos rfl] at hbound
      exact ⟨bound + 1, by omega, fun _ _ h => Registry.count_rotate hcounts newAuthRoot h⟩

/-- The three registries give the same answers and agree on the addresses, their roots and their
counts, and none of them registers an address again. -/
theorem registries_agree (overflowChecks : Bool) (calls : List AuthCall)
    (hepochs : ∀ c ∈ calls, FitsSql c.epoch)
    (hrotations : calls.countP AuthCall.isRotation < 2 ^ 32) :
    ∃ answers p s r,
      Simulation.run AuthCall.onLedger calls {} = some (answers, p) ∧
      Simulation.run AuthCall.onDatabase calls {} = some (answers, s) ∧
      Simulation.run (AuthCall.onNative overflowChecks) calls .new = some (answers, r) ∧
      (∀ address,
        (p.isRegistered address = s.isAddressRegistered address ∧
          s.isAddressRegistered address = r.isRegistered address) ∧
        (p.getAuthRoot address = s.getAuthRoot address ∧
          s.getAuthRoot address = (r.getAuthRoot address).map Subtype.val) ∧
        p.rotationCounts.get? address = (s.rows.get? address).map AuthRow.rotationCount ∧
          (s.rows.get? address).map AuthRow.rotationCount =
            (r.getRotationCount address).map fun count => (count.toNat : ℤ)) ∧
      ∀ address (authRoot : MerkleHash) epoch txHash, FitsSql epoch →
        p.isRegistered address = true →
          p.registerViaTx address authRoot.val = (false, p) ∧
          s.registerAuth address authRoot.val epoch txHash = (.ok false, s) ∧
          r.register address authRoot = (false, r) := by
  have hfits := along_fits hepochs hrotations
  obtain ⟨p, hp, hP⟩ := ledger_simulates.run hfits (s := {})
    ⟨fun _ => by simp, fun _ => rfl, fun _ => rfl⟩
  obtain ⟨s, hs, hS⟩ := database_simulates.run hfits (s := {}) fun _ => rfl
  obtain ⟨r, hr, hR⟩ := (native_simulates overflowChecks).run hfits (s := .new) fun _ => rfl
  generalize (Simulation.runSpec AuthCall.onRegistry calls fun _ => none).2 = a at hP hS hR
  refine ⟨_, p, s, r, hp, hs, hr, fun address => ?_,
    fun address authRoot epoch txHash hepoch h => ?_⟩
  · obtain ⟨hsome, hroot, hcount⟩ := hS.views address
    obtain ⟨hsome', hroot', hcount'⟩ := hR.views address
    exact ⟨⟨(hP.isRegistered_eq address).trans hsome.symm, hsome.trans hsome'.symm⟩,
      ⟨(hP.root address).trans hroot.symm, hroot.trans hroot'.symm⟩,
      (hP.count address).trans hcount.symm, hcount.trans hcount'.symm⟩
  · have hmem : address ∈ p.registeredAddresses := of_decide_eq_true h
    rw [hP.isRegistered_eq] at h
    have hrow : s.rows.contains address = true := (hS.views address).1.trans h
    have hentry : r.entries.contains address = true := (hR.views address).1.trans h
    rw [AuthRegistry.registerViaTx, if_pos hmem, AuthTable.registerAuth_eq hepoch, if_pos hrow,
      Native.AuthRegistry.register, if_pos hentry]
    exact ⟨rfl, rfl, rfl⟩

theorem registries_agree_three :
    ∃ (root root' : MerkleHash) (answers : List Bool) (p : AuthRegistry) (s : AuthTable)
      (r : Native.AuthRegistry), root ≠ root' ∧
      Simulation.run AuthCall.onLedger [.register [1] root 5 none, .register [1] root' 6 none,
        .rotate [1] root' 7 none] {} = some (answers, p) ∧
      Simulation.run AuthCall.onDatabase [.register [1] root 5 none, .register [1] root' 6 none,
        .rotate [1] root' 7 none] {} = some (answers, s) ∧
      Simulation.run (AuthCall.onNative true) [.register [1] root 5 none,
        .register [1] root' 6 none, .rotate [1] root' 7 none] .new = some (answers, r) ∧
      p.getAuthRoot [1] = s.getAuthRoot [1] ∧
      s.getAuthRoot [1] = (r.getAuthRoot [1]).map Subtype.val := by
  obtain ⟨root, hroot⟩ : ∃ root : MerkleHash, root.val = List.replicate 32 0 :=
    ⟨⟨List.replicate 32 0, by decide⟩, rfl⟩
  obtain ⟨root', hroot'⟩ : ∃ root : MerkleHash, root.val = List.replicate 32 1 :=
    ⟨⟨List.replicate 32 1, by decide⟩, rfl⟩
  obtain ⟨answers, p, s, r, hp, hs, hr, hviews, -⟩ := registries_agree true
    [.register [1] root 5 none, .register [1] root' 6 none, .rotate [1] root' 7 none]
    (by simp [AuthCall.epoch, FitsSql]) (by simp [AuthCall.isRotation])
  refine ⟨root, root', answers, p, s, r, ?_, hp, hs, hr, (hviews [1]).2.1⟩
  intro h
  rw [← h, hroot] at hroot'
  revert hroot'
  decide

/-- An epoch that does not fit its column: the database raises where the others register. -/
theorem registerAuth_overflow :
    ∃ root : MerkleHash,
      (AuthCall.onLedger (.register [1] root (2 ^ 63) none) {}).map Prod.fst = some true ∧
      (AuthCall.onNative true (.register [1] root (2 ^ 63) none) .new).map Prod.fst = some true ∧
      AuthTable.registerAuth {} [1] root.val (2 ^ 63) none = (.error .overflowError, {}) ∧
      (AuthCall.onDatabase (.register [1] root (2 ^ 63) none) {}).isNone := by
  have hfits : ¬ FitsSql (2 ^ 63) := by decide
  refine ⟨⟨List.replicate 32 0, by decide⟩, rfl, rfl,
    (AuthTable.registerAuth_of_not_fits hfits none).1, ?_⟩
  rw [AuthCall.onDatabase, (AuthTable.registerAuth_of_not_fits hfits none).1]
  rfl

end Qrtb
