import Qrtb.Crypto.Derivation
import Qrtb.Ledger.Rotation
import Qrtb.Lib.Stateful

/-!
# The key manager (`KeyManager` in `src/wallet.py`)

Three families of WOTS+ keys: one registration key derived from the master seed,
the keys of the current batch, and legacy keys by epoch. A legacy key pair is an
object of the cache that callers hold and sign with, so it is named by its place
there. The state has one attribute the code does not: the list of signatures made
so far, each by the seed of its key and the message.
-/

namespace Qrtb

open Keccak Stateful

/-- The argument of a signing call: bytes of the caller, or the signing hash of a transaction, kept
as the bytes it is the hash of. -/
inductive Payload where
  | raw (message : Bytes)
  | transaction (hashData : Bytes)
  deriving DecidableEq

def Payload.bytes : Payload → Bytes
  | .raw message => message
  | .transaction hashData => sha3_256 hashData

structure Signing (S : Type) where
  seed : S
  payload : Payload

/-- The code keeps the keys only; their seed is remembered here. -/
structure KeyPair (S : Type) where
  epoch : ℤ
  privateKey : Bytes
  publicKey : Bytes
  address : Bytes
  used : Bool := false
  keySeed : S

/-- A key pair of the cache: its epoch and its place in the list of that epoch. -/
structure KeyRef where
  epoch : ℤ
  position : ℕ
  deriving DecidableEq

/-- The three attributes of a prepared rotation are set and cleared together. -/
structure PreparedRotation (S : Type) where
  batchSeed : S
  authTree : TemporalAuthTree S
  authRoot : Bytes

structure KeyManager (S : Type) where
  masterSeed : S
  innerHash : Bytes
  address : Bytes
  currentBatchSeed : S
  authTree : TemporalAuthTree S
  batchNumber : ℕ := 0
  next : Option (PreparedRotation S) := none
  isRegistered : Bool := false
  keyCache : OrderedDict ℤ (List (KeyPair S)) := ∅
  currentEpoch : ℤ := 0
  keyIndex : ℕ := 0
  signed : List (Signing S) := []

namespace KeyManager

variable {S : Type} [SeedSpace S]

open SeedSpace

/-- The master seed is the given one, or a random one where none is given. -/
def init (masterSeed : S) : KeyManager S :=
  let innerHash := sha3_512
    (ascii ['a', 'd', 'd', 'r', 'e', 's', 's', '_', 'i', 'n', 'n', 'e', 'r'] ++ value masterSeed)
  { masterSeed := masterSeed
    innerHash := innerHash
    address := deriveAddress innerHash
    currentBatchSeed := initialBatch masterSeed
    authTree := .init (initialBatch masterSeed) }

def authRoot (k : KeyManager S) : Except PyError Bytes := k.authTree.authRoot

def markRegistered : Stateful (KeyManager S) Unit := modify fun k => { k with isRegistered := true }

def record (seed : KeyManager S → S) (payload : Payload) : Stateful (KeyManager S) Unit :=
  modify fun k => { k with signed := k.signed ++ [⟨seed k, payload⟩] }

def onTree {α : Type} (x : Stateful (TemporalAuthTree S) α) : Stateful (KeyManager S) α :=
  on authTree (fun t k => { k with authTree := t }) x

/-- Sign with the tree, in one of its two ways, once the address is registered. -/
def signOnTree (sign : Bytes → Stateful (TemporalAuthTree S) TemporalSignature)
    (payload : Payload) : Stateful (KeyManager S) TemporalSignature := do
  let registered ← reads isRegistered
  if registered = false then raise .valueError
  else
    let s ← onTree (sign payload.bytes)
    record (fun k => key k.authTree.batchSeed s.keyIndex) payload
    return s

def temporalSign : Payload → Stateful (KeyManager S) TemporalSignature :=
  signOnTree TemporalAuthTree.sign

def temporalSignRotation : Payload → Stateful (KeyManager S) TemporalSignature :=
  signOnTree TemporalAuthTree.signRotation

/-- The tree of the next batch is built; the current one stays in use. -/
def prepareRotation : Stateful (KeyManager S) Bytes := fun k =>
  let seed := nextBatch k.currentBatchSeed
  let tree := TemporalAuthTree.init seed
  match tree.authRoot with
  | .error e => (.error e, k)
  | .ok root => (.ok root, { k with next := some ⟨seed, tree, root⟩ })

/-- The current tree is destroyed and dropped, and the prepared one takes its place. -/
def executeRotation : Stateful (KeyManager S) Unit := fun k =>
  match k.next with
  | none => (.error .valueError, k)
  | some prepared =>
    let destroyed := { k with authTree := k.authTree.destroy }
    (.ok (), { destroyed with
      currentBatchSeed := prepared.batchSeed
      authTree := prepared.authTree
      batchNumber := destroyed.batchNumber + 1
      next := none })

def getWotsKeypairForRegistration (k : KeyManager S) : Bytes × Bytes :=
  Wots.keygen (value (registration k.masterSeed))

def evolveToEpoch (targetEpoch : ℤ) : Stateful (KeyManager S) Unit :=
  modify fun k => { k with currentEpoch := targetEpoch }

def newKeyPair (epoch : ℤ) (k : KeyManager S) : KeyPair S :=
  let seed := legacy k.currentBatchSeed epoch k.keyIndex
  let keys := Wots.keygen (value seed)
  { epoch := epoch
    privateKey := keys.1
    publicKey := keys.2
    address := sha3_512 (ascii ['a', 'd', 'd', 'r', 'e', 's', 's'] ++ keys.2.take 64)
    keySeed := seed }

/-- An epoch or a counter that does not fit eight bytes raises before anything changes. -/
def generateKeypair (epoch : ℤ) : Stateful (KeyManager S) KeyRef := fun k =>
  match deriveLegacySeed (value k.currentBatchSeed) epoch k.keyIndex with
  | .error e => (.error e, k)
  | .ok _ =>
    let cached := k.keyCache.getD epoch []
    (.ok ⟨epoch, cached.length⟩, { k with
      keyIndex := k.keyIndex + 1
      keyCache := k.keyCache.set epoch (cached ++ [k.newKeyPair epoch]) })

/-- The first unused pair of the epoch, or a new one. -/
def getUnusedKeypair (epoch : ℤ) : Stateful (KeyManager S) KeyRef := do
  let unused ← reads fun k => (k.keyCache.getD epoch []).findIdx? fun pair => !pair.used
  match unused with
  | some position => return ⟨epoch, position⟩
  | none => generateKeypair epoch

def pairAt (k : KeyManager S) (ref : KeyRef) : Option (KeyPair S) :=
  (k.keyCache.getD ref.epoch [])[ref.position]?

def markUsed (ref : KeyRef) (k : KeyManager S) : KeyManager S :=
  { k with
    keyCache := k.keyCache.set ref.epoch
      ((k.keyCache.getD ref.epoch []).modify ref.position fun pair => { pair with used := true }) }

/-- A place of the cache without a pair stands for no object. -/
def sign (payload : Payload) (ref : KeyRef) : Stateful (KeyManager S) Bytes := fun k =>
  match k.pairAt ref with
  | none => (.error .attributeError, k)
  | some pair =>
    if pair.used then (.error .valueError, k)
    else
      (.ok (Wots.sign payload.bytes pair.privateKey),
        { k.markUsed ref with signed := k.signed ++ [⟨pair.keySeed, payload⟩] })

inductive Call where
  | markRegistered
  | temporalSign (message : Bytes)
  | temporalSignRotation (message : Bytes)
  | prepareRotation
  | executeRotation
  | evolveToEpoch (targetEpoch : ℤ)
  | generateKeypair (epoch : ℤ)
  | getUnusedKeypair (epoch : ℤ)
  | sign (message : Bytes) (ref : KeyRef)

/-- A call on the key manager, with its return value dropped. -/
def apply : Call → Stateful (KeyManager S) Unit
  | .markRegistered => markRegistered
  | .temporalSign message => do let _ ← temporalSign (.raw message)
  | .temporalSignRotation message => do let _ ← temporalSignRotation (.raw message)
  | .prepareRotation => do let _ ← prepareRotation
  | .executeRotation => executeRotation
  | .evolveToEpoch targetEpoch => evolveToEpoch targetEpoch
  | .generateKeypair epoch => do let _ ← generateKeypair epoch
  | .getUnusedKeypair epoch => do let _ ← getUnusedKeypair epoch
  | .sign message ref => do let _ ← sign (.raw message) ref

/-- A signature moves the tree on and is recorded; without one at most the tree moves. -/
theorem signOnTree_cases (sign : Bytes → Stateful (TemporalAuthTree S) TemporalSignature)
    (payload : Payload) (k : KeyManager S) :
    (signOnTree sign payload k).2 = k ∨
    (signOnTree sign payload k).2 = { k with authTree := (sign payload.bytes k.authTree).2 } ∨
    ∃ s, (sign payload.bytes k.authTree).1 = .ok s ∧
      (signOnTree sign payload k).2 =
        { k with
          authTree := (sign payload.bytes k.authTree).2
          signed := k.signed ++
            [⟨key (sign payload.bytes k.authTree).2.batchSeed s.keyIndex, payload⟩] } := by
  rw [signOnTree, reads_bind]
  split_ifs
  · exact Or.inl rfl
  · right
    cases h : (sign payload.bytes k.authTree).1 with
    | error e =>
      rw [bind_of_error (x := onTree (sign payload.bytes)) h]
      exact Or.inl rfl
    | ok s =>
      rw [bind_of_ok (x := onTree (sign payload.bytes)) h]
      exact Or.inr ⟨s, rfl, rfl⟩

theorem prepareRotation_eq (k : KeyManager S) :
    (prepareRotation k).2 =
      { k with
        next := some ⟨nextBatch k.currentBatchSeed, .init (nextBatch k.currentBatchSeed),
          batchRoot (value (nextBatch k.currentBatchSeed))⟩ } := rfl

theorem executeRotation_cases (k : KeyManager S) :
    (k.next = none ∧ executeRotation k = (.error .valueError, k)) ∨
    ∃ p, k.next = some p ∧ executeRotation k =
      (.ok (), { k with
        currentBatchSeed := p.batchSeed
        authTree := p.authTree
        batchNumber := k.batchNumber + 1
        next := none }) := by
  unfold executeRotation
  cases k.next with
  | none => exact Or.inl ⟨rfl, rfl⟩
  | some p => exact Or.inr ⟨p, rfl, rfl⟩

/-- The state after a new pair was put in the cache. -/
def generated (epoch : ℤ) (k : KeyManager S) : KeyManager S :=
  { k with
    keyIndex := k.keyIndex + 1
    keyCache := k.keyCache.set epoch (k.keyCache.getD epoch [] ++ [k.newKeyPair epoch]) }

theorem generateKeypair_cases (epoch : ℤ) (k : KeyManager S) :
    (generateKeypair epoch k).2 = k ∨ (generateKeypair epoch k).2 = k.generated epoch := by
  unfold generateKeypair
  cases deriveLegacySeed (value k.currentBatchSeed) epoch k.keyIndex with
  | error e => exact Or.inl rfl
  | ok seed => exact Or.inr rfl

theorem getUnusedKeypair_cases (epoch : ℤ) (k : KeyManager S) :
    (getUnusedKeypair epoch k).2 = k ∨ (getUnusedKeypair epoch k).2 = k.generated epoch := by
  rw [getUnusedKeypair, reads_bind]
  cases (k.keyCache.getD epoch []).findIdx? fun pair => !pair.used with
  | none => exact generateKeypair_cases epoch k
  | some position => exact Or.inl rfl

theorem preserves_generateKeypair {I : KeyManager S → Prop} {epoch : ℤ}
    (h : ∀ k, I k → I (k.generated epoch)) : Preserves I (generateKeypair epoch) := by
  intro k hk
  rcases generateKeypair_cases epoch k with hsame | hnew
  · rwa [hsame]
  · rw [hnew]
    exact h k hk

theorem preserves_getUnusedKeypair {I : KeyManager S → Prop} {epoch : ℤ}
    (h : ∀ k, I k → I (k.generated epoch)) : Preserves I (getUnusedKeypair epoch) := by
  intro k hk
  rcases getUnusedKeypair_cases epoch k with hsame | hnew
  · rwa [hsame]
  · rw [hnew]
    exact h k hk

omit [SeedSpace S] in
theorem sign_cases (payload : Payload) (ref : KeyRef) (k : KeyManager S) :
    (sign payload ref k).2 = k ∨
    ∃ pair, k.pairAt ref = some pair ∧ pair.used = false ∧
      (sign payload ref k).2 =
        { k.markUsed ref with signed := k.signed ++ [⟨pair.keySeed, payload⟩] } := by
  unfold sign
  cases h : k.pairAt ref with
  | none => exact Or.inl rfl
  | some pair =>
    cases hused : pair.used with
    | true => exact Or.inl (by simp [hused])
    | false => exact Or.inr ⟨pair, rfl, hused, by simp [hused]⟩

end KeyManager

section

variable {S : Type} [SeedSpace S]

open SeedSpace

/-- Replacing every seed by its bytes turns a run on any representation of seeds into the run of the
code on byte strings. -/
def TemporalAuthTree.forget (t : TemporalAuthTree S) : TemporalAuthTree Bytes where
  batchSeed := value t.batchSeed
  keyIndex := t.keyIndex
  rotationIndex := t.rotationIndex
  authTree := t.authTree

def Signing.forget (s : Signing S) : Signing Bytes := ⟨value s.seed, s.payload⟩

def KeyPair.forget (pair : KeyPair S) : KeyPair Bytes where
  epoch := pair.epoch
  privateKey := pair.privateKey
  publicKey := pair.publicKey
  address := pair.address
  used := pair.used
  keySeed := value pair.keySeed

def PreparedRotation.forget (prepared : PreparedRotation S) : PreparedRotation Bytes :=
  ⟨value prepared.batchSeed, prepared.authTree.forget, prepared.authRoot⟩

def KeyManager.forget (k : KeyManager S) : KeyManager Bytes where
  masterSeed := value k.masterSeed
  innerHash := k.innerHash
  address := k.address
  currentBatchSeed := value k.currentBatchSeed
  authTree := k.authTree.forget
  batchNumber := k.batchNumber
  next := k.next.map PreparedRotation.forget
  isRegistered := k.isRegistered
  keyCache := k.keyCache.map (List.map KeyPair.forget)
  currentEpoch := k.currentEpoch
  keyIndex := k.keyIndex
  signed := k.signed.map Signing.forget

theorem TemporalAuthTree.forget_init (seed : S) :
    (TemporalAuthTree.init seed).forget = .init (value seed) := rfl

theorem TemporalAuthTree.signWith_forget (idx : ℕ) (message : Bytes) (t : TemporalAuthTree S) :
    t.forget.signWith idx message = t.signWith idx message := by
  have hkey : value (key t.forget.batchSeed idx) = value (key t.batchSeed idx) :=
    (value_key t.batchSeed idx).symm
  rw [signWith, signWith, hkey]
  rfl

theorem TemporalAuthTree.simulates_sign (message : Bytes) :
    Simulates (TemporalAuthTree.forget (S := S)) (TemporalAuthTree.sign message)
      (TemporalAuthTree.sign message) := by
  intro t
  have hindex : t.forget.keyIndex = t.keyIndex := rfl
  rw [sign, sign, signWith_forget, hindex]
  split_ifs <;> rfl

theorem TemporalAuthTree.simulates_signRotation (message : Bytes) :
    Simulates (TemporalAuthTree.forget (S := S)) (TemporalAuthTree.signRotation message)
      (TemporalAuthTree.signRotation message) := by
  intro t
  have hindex : t.forget.rotationIndex = t.rotationIndex := rfl
  rw [signRotation, signRotation, signWith_forget, hindex]
  split_ifs <;> rfl

namespace KeyManager

theorem forget_init (masterSeed : S) : (init masterSeed).forget = init (value masterSeed) := by
  have hbatch := value_initialBatch masterSeed
  simp only [init, forget, TemporalAuthTree.forget_init, hbatch]
  rfl

theorem simulates_record {seed : KeyManager S → S} {seed' : KeyManager Bytes → Bytes}
    (h : ∀ k, seed' k.forget = value (seed k)) (payload : Payload) :
    Simulates forget (record seed payload) (record seed' payload) := by
  apply simulates_modify
  intro k
  simp only [forget, List.map_append, List.map_cons, List.map_nil, Signing.forget, ← h]

theorem simulates_onTree {α : Type} {x : Stateful (TemporalAuthTree S) α}
    {y : Stateful (TemporalAuthTree Bytes) α} (h : Simulates TemporalAuthTree.forget x y) :
    Simulates forget (onTree x) (onTree y) :=
  h.on (fun _ => rfl) fun _ _ => rfl

theorem simulates_signOnTree {sign : Bytes → Stateful (TemporalAuthTree S) TemporalSignature}
    {sign' : Bytes → Stateful (TemporalAuthTree Bytes) TemporalSignature}
    (h : ∀ message, Simulates TemporalAuthTree.forget (sign message) (sign' message))
    (payload : Payload) :
    Simulates forget (signOnTree sign payload) (signOnTree sign' payload) := by
  refine (simulates_reads fun _ => rfl).bind fun registered => ?_
  refine Simulates.ite (simulates_ofExcept _) ?_
  refine (simulates_onTree (h payload.bytes)).bind fun s => ?_
  refine (simulates_record ?_ payload).bind fun _ => simulates_pure s
  intro k
  exact (value_key k.authTree.batchSeed s.keyIndex).symm

theorem simulates_temporalSign (payload : Payload) :
    Simulates (forget (S := S)) (temporalSign payload) (temporalSign payload) :=
  simulates_signOnTree TemporalAuthTree.simulates_sign payload

theorem simulates_temporalSignRotation (payload : Payload) :
    Simulates (forget (S := S)) (temporalSignRotation payload) (temporalSignRotation payload) :=
  simulates_signOnTree TemporalAuthTree.simulates_signRotation payload

theorem simulates_prepareRotation :
    Simulates (forget (S := S)) prepareRotation prepareRotation := by
  intro k
  have hseed : nextBatch k.forget.currentBatchSeed = value (nextBatch k.currentBatchSeed) :=
    (value_nextBatch k.currentBatchSeed).symm
  rw [prepareRotation, hseed]
  rfl

theorem simulates_executeRotation :
    Simulates (forget (S := S)) executeRotation executeRotation := by
  intro k
  have hnext : k.forget.next = k.next.map PreparedRotation.forget := rfl
  rw [executeRotation, executeRotation, hnext]
  cases k.next <;> rfl

theorem getD_keyCache_forget (k : KeyManager S) (epoch : ℤ) :
    k.forget.keyCache.getD epoch [] = (k.keyCache.getD epoch []).map KeyPair.forget := by
  rw [OrderedDict.getD, OrderedDict.getD, forget, OrderedDict.get?_map]
  cases k.keyCache.get? epoch <;> rfl

theorem forget_newKeyPair {k : KeyManager S} {epoch : ℤ} {seed : Bytes}
    (h : deriveLegacySeed (value k.currentBatchSeed) epoch k.keyIndex = .ok seed) :
    k.forget.newKeyPair epoch = (k.newKeyPair epoch).forget := by
  have hseed : legacy k.forget.currentBatchSeed epoch k.forget.keyIndex =
      value (legacy k.currentBatchSeed epoch k.keyIndex) := by
    rw [value_legacy _ _ _ _ h]
    exact value_legacy k.forget.currentBatchSeed epoch k.keyIndex seed h
  rw [newKeyPair, hseed]
  rfl

theorem simulates_generateKeypair (epoch : ℤ) :
    Simulates (forget (S := S)) (generateKeypair epoch) (generateKeypair epoch) := by
  intro k
  have hseed : deriveLegacySeed (value k.forget.currentBatchSeed) epoch k.forget.keyIndex =
      deriveLegacySeed (value k.currentBatchSeed) epoch k.keyIndex := rfl
  rw [generateKeypair, generateKeypair, hseed]
  cases h : deriveLegacySeed (value k.currentBatchSeed) epoch k.keyIndex with
  | error e => rfl
  | ok seed =>
    have hcache : k.forget.keyCache.set epoch
        ((k.keyCache.getD epoch [] ++ [k.newKeyPair epoch]).map KeyPair.forget) =
        (k.keyCache.set epoch (k.keyCache.getD epoch [] ++ [k.newKeyPair epoch])).map
          (List.map KeyPair.forget) :=
      OrderedDict.set_map _ _ _ _
    simp only [getD_keyCache_forget, forget_newKeyPair h, List.length_map]
    rw [show [(k.newKeyPair epoch).forget] = [k.newKeyPair epoch].map KeyPair.forget from rfl,
      ← List.map_append, hcache]
    rfl

theorem simulates_getUnusedKeypair (epoch : ℤ) :
    Simulates (forget (S := S)) (getUnusedKeypair epoch) (getUnusedKeypair epoch) := by
  refine (simulates_reads ?_).bind ?_
  · intro k
    rw [getD_keyCache_forget, List.findIdx?_map]
    rfl
  · intro unused
    cases unused with
    | some position => exact simulates_pure _
    | none => exact simulates_generateKeypair epoch

theorem pairAt_forget (k : KeyManager S) (ref : KeyRef) :
    k.forget.pairAt ref = (k.pairAt ref).map KeyPair.forget := by
  rw [pairAt, pairAt, getD_keyCache_forget, List.getElem?_map]

theorem markUsed_forget (k : KeyManager S) (ref : KeyRef) :
    k.forget.markUsed ref = (k.markUsed ref).forget := by
  have hmodify : (k.forget.keyCache.getD ref.epoch []).modify ref.position
      (fun pair => { pair with used := true }) =
      ((k.keyCache.getD ref.epoch []).modify ref.position
        fun pair => { pair with used := true }).map KeyPair.forget := by
    rw [getD_keyCache_forget]
    apply List.ext_getElem?
    intro i
    simp only [List.getElem?_modify, List.getElem?_map]
    split_ifs <;> cases (k.keyCache.getD ref.epoch [])[i]? <;> rfl
  have hcache := OrderedDict.set_map (List.map KeyPair.forget) k.keyCache ref.epoch
    ((k.keyCache.getD ref.epoch []).modify ref.position fun pair => { pair with used := true })
  rw [markUsed, markUsed, hmodify, show k.forget.keyCache = k.keyCache.map (List.map KeyPair.forget)
    from rfl, hcache]
  rfl

theorem simulates_keySign (payload : Payload) (ref : KeyRef) :
    Simulates (forget (S := S)) (sign payload ref) (sign payload ref) := by
  intro k
  rw [sign, sign, pairAt_forget]
  cases k.pairAt ref with
  | none => rfl
  | some pair =>
    simp only [Option.map_some]
    have hused : pair.forget.used = pair.used := rfl
    rw [hused, markUsed_forget]
    split_ifs
    · rfl
    · simp only [forget, List.map_append]
      rfl

theorem simulates_apply (call : Call) : Simulates (forget (S := S)) (apply call) (apply call) := by
  cases call with
  | markRegistered => exact simulates_modify fun _ => rfl
  | temporalSign message => exact (simulates_temporalSign _).bind fun _ => simulates_pure ()
  | temporalSignRotation message =>
    exact (simulates_temporalSignRotation _).bind fun _ => simulates_pure ()
  | prepareRotation => exact simulates_prepareRotation.bind fun _ => simulates_pure ()
  | executeRotation => exact simulates_executeRotation
  | evolveToEpoch targetEpoch => exact simulates_modify fun _ => rfl
  | generateKeypair epoch => exact (simulates_generateKeypair epoch).bind fun _ => simulates_pure ()
  | getUnusedKeypair epoch =>
    exact (simulates_getUnusedKeypair epoch).bind fun _ => simulates_pure ()
  | sign message ref => exact (simulates_keySign _ _).bind fun _ => simulates_pure ()

/-- A master seed of the length the code draws. -/
def exampleSeed : Bytes := List.replicate 64 7

end KeyManager

end

end Qrtb
