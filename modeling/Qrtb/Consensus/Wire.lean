import Qrtb.Consensus.BFT

/-!
# Proposals on the wire (`src/node.py`)

A proposal is sent as six parts of fixed width. An empty root is sent as zeros,
and the reader takes what it finds for the root, so a proposal with a default
root arrives as another one. Detection results and signature are not sent.
-/

namespace Qrtb

open Keccak PyFloat

namespace Node

/-- `struct.pack(">QI", epoch, round)` and its inverse. -/
def packQI (epoch round : ℤ) : Except PyError Bytes := do
  let epoch ← structPack 8 epoch
  let round ← structPack 4 round
  return epoch ++ round

def unpackQI (data : Bytes) : Except PyError (ℕ × ℕ) :=
  if data.length = 12 then .ok (Bytes.toNat (data.slice 0 8), Bytes.toNat (data.slice 8 12))
  else .error .structError

/-- `root if root else b"\x00" * 32`. -/
def rootOrZeros (root : Bytes) : Bytes := if root = [] then List.replicate 32 0 else root

variable {F : Type}

/-- Packing a float as an unsigned integer raises. -/
def packTimestamp : Timestamp F → Except PyError Bytes
  | .int milliseconds => structPack 8 milliseconds
  | .float _ => .error .structError

def serializeProposal (p : ConsensusProposal F) : Except PyError Bytes := do
  let header ← packQI p.epoch p.round
  let timestamp ← packTimestamp p.timestamp
  return [p.proposerId, header, p.measurementRoot, rootOrZeros p.transactionRoot,
    rootOrZeros p.stateRoot, timestamp].flatten

/-- Every exception makes the reader return nothing. -/
def deserializeProposal (data : Bytes) : Option (ConsensusProposal F) := do
  let (epoch, rnd) ← (unpackQI (data.slice 32 44)).toOption
  let timestamp ← (structUnpack 8 (data.slice 140 148)).toOption
  return {
    proposerId := data.slice 0 32
    epoch := epoch
    round := rnd
    measurementRoot := data.slice 44 76
    transactionRoot := data.slice 76 108
    stateRoot := data.slice 108 140
    timestamp := .int timestamp }

theorem packQI_eq_ok {epoch round : ℤ} {data : Bytes} :
    packQI epoch round = .ok data ↔
      ((0 ≤ epoch ∧ epoch < 256 ^ 8) ∧ (0 ≤ round ∧ round < 256 ^ 4)) ∧
      data = Bytes.bigEndian 8 epoch.toNat ++ Bytes.bigEndian 4 round.toNat := by
  simp only [packQI, Except.bind_eq_ok, structPack_eq_ok]
  constructor
  · intro h
    obtain ⟨_, ⟨he, rfl⟩, _, ⟨hr, rfl⟩, hdata⟩ := h
    exact ⟨⟨he, hr⟩, (Except.ok.inj hdata).symm⟩
  · intro h
    obtain ⟨⟨he, hr⟩, rfl⟩ := h
    exact ⟨_, ⟨he, rfl⟩, _, ⟨hr, rfl⟩, rfl⟩

theorem unpackQI_of_packQI {epoch round : ℤ} {data : Bytes} (h : packQI epoch round = .ok data) :
    unpackQI data = .ok (epoch.toNat, round.toNat) := by
  obtain ⟨⟨he, hr⟩, rfl⟩ := packQI_eq_ok.mp h
  have hepoch : epoch.toNat < 256 ^ 8 := by omega
  have hround : round.toNat < 256 ^ 4 := by omega
  have hleft := Bytes.slice_flatten
    [Bytes.bigEndian 8 epoch.toNat, Bytes.bigEndian 4 round.toNat] 0 0 8 rfl rfl (by simp)
  have hright := Bytes.slice_flatten
    [Bytes.bigEndian 8 epoch.toNat, Bytes.bigEndian 4 round.toNat] 1 8 12 rfl (by simp) (by simp)
  simp only [List.flatten_cons, List.flatten_nil, List.append_nil] at hleft hright
  simp [unpackQI, hleft, hright, Bytes.toNat_bigEndian hepoch, Bytes.toNat_bigEndian hround]

theorem length_rootOrZeros {root : Bytes} (h : root = [] ∨ root.length = 32) :
    (rootOrZeros root).length = 32 := by
  unfold rootOrZeros
  split_ifs with hempty
  · simp
  · exact h.resolve_left hempty

/-- The proposal a reader gets: empty roots have become zeros, what is not sent is default. -/
def received (p : ConsensusProposal F) : ConsensusProposal F :=
  { proposerId := p.proposerId
    epoch := p.epoch
    round := p.round
    measurementRoot := p.measurementRoot
    transactionRoot := rootOrZeros p.transactionRoot
    stateRoot := rootOrZeros p.stateRoot
    timestamp := p.timestamp }

/-- Ids and roots of the width the format has room for. -/
structure FixedWidth (p : ConsensusProposal F) : Prop where
  proposerId : p.proposerId.length = 32
  measurementRoot : p.measurementRoot.length = 32
  transactionRoot : p.transactionRoot = [] ∨ p.transactionRoot.length = 32
  stateRoot : p.stateRoot = [] ∨ p.stateRoot.length = 32

theorem serializeProposal_eq_ok {p : ConsensusProposal F} {data : Bytes} :
    serializeProposal p = .ok data ↔
      ∃ header timestamp, packQI p.epoch p.round = .ok header ∧
        packTimestamp p.timestamp = .ok timestamp ∧
        data = [p.proposerId, header, p.measurementRoot, rootOrZeros p.transactionRoot,
          rootOrZeros p.stateRoot, timestamp].flatten := by
  rw [serializeProposal, Except.bind_eq_ok]
  simp only [pure, Except.pure, Except.bind_return_eq_ok, exists_and_left]

theorem deserializeProposal_of_serializeProposal {p : ConsensusProposal F} (hp : FixedWidth p)
    {data : Bytes} (h : serializeProposal p = .ok data) :
    deserializeProposal data = some (received p) := by
  obtain ⟨header, timestamp, hh, ht, rfl⟩ := serializeProposal_eq_ok.mp h
  obtain ⟨milliseconds, hms⟩ : ∃ ms, p.timestamp = .int ms := by
    cases hts : p.timestamp with
    | int ms => exact ⟨ms, rfl⟩
    | float seconds =>
      rw [hts] at ht
      cases ht
  rw [hms] at ht
  obtain ⟨htime, rfl⟩ := structPack_eq_ok.mp ht
  obtain ⟨⟨hepoch, hround⟩, rfl⟩ := packQI_eq_ok.mp hh
  have hid := hp.proposerId
  have hroot := hp.measurementRoot
  have htx := length_rootOrZeros hp.transactionRoot
  have hst := length_rootOrZeros hp.stateRoot
  unfold deserializeProposal
  rw [Bytes.slice_flatten _ 1 32 44 rfl (by simp [hid]) (by simp),
    Bytes.slice_flatten _ 5 140 148 rfl (by simp [hid, hroot, htx, hst]) (by simp),
    Bytes.slice_flatten _ 0 0 32 rfl rfl (by simp [hid]),
    Bytes.slice_flatten _ 2 44 76 rfl (by simp [hid]) (by simp [hroot]),
    Bytes.slice_flatten _ 3 76 108 rfl (by simp [hid, hroot]) (by simp [htx]),
    Bytes.slice_flatten _ 4 108 140 rfl (by simp [hid, hroot, htx]) (by simp [hst]),
    unpackQI_of_packQI hh, structUnpack_bigEndian (by omega)]
  simp [received, hms, Except.toOption, hepoch.1, hround.1, htime.1]

/-- The proposal arrives, and under the hash it was sent with. -/
def KeepsIdentity (p : ConsensusProposal F) : Prop :=
  ∃ (data : Bytes) (q : ConsensusProposal F) (hash : Bytes),
    serializeProposal p = .ok data ∧ deserializeProposal data = some q ∧
      p.proposalHash = .ok hash ∧ q.proposalHash = .ok hash

/-- The hashed bytes of the two sides differ, and their hashes do not. -/
def CollidesOnWire (p : ConsensusProposal F) : Prop :=
  ∃ m n, p.hashedBytes = .ok m ∧ (received p).hashedBytes = .ok n ∧ Collision m n

theorem received_of_roots {p : ConsensusProposal F} (htx : p.transactionRoot ≠ [])
    (hst : p.stateRoot ≠ []) : (received p).hashedBytes = p.hashedBytes := by
  simp [ConsensusProposal.hashedBytes, received, rootOrZeros, htx, hst]

theorem received_hashedBytes_returns {p : ConsensusProposal F} (h : p.hashedBytes.Returns) :
    (received p).hashedBytes.Returns := by
  obtain ⟨data, hdata⟩ := h
  have hrange := (p.hashedBytes_eq_ok.mp hdata).1
  exact ⟨_, (received p).hashedBytes_eq_ok.mpr ⟨hrange, rfl⟩⟩

/-- The bytes on both sides agree exactly when no root is empty: they have the same length
only then. -/
theorem hashedBytes_received_eq_iff {p : ConsensusProposal F} (hp : FixedWidth p) {m n : Bytes}
    (hm : p.hashedBytes = .ok m) (hn : (received p).hashedBytes = .ok n) :
    m = n ↔ p.transactionRoot ≠ [] ∧ p.stateRoot ≠ [] := by
  constructor
  · intro h
    obtain ⟨-, em⟩ := p.hashedBytes_eq_ok.mp hm
    obtain ⟨-, en⟩ := (received p).hashedBytes_eq_ok.mp hn
    have hlen := congrArg List.length (em.symm.trans (h.trans en))
    simp only [List.length_append, received, length_rootOrZeros hp.transactionRoot,
      length_rootOrZeros hp.stateRoot] at hlen
    have htx : p.transactionRoot.length ≤ 32 := by
      rcases hp.transactionRoot with h | h <;> simp [h]
    have hst : p.stateRoot.length ≤ 32 := by
      rcases hp.stateRoot with h | h <;> simp [h]
    constructor
    · intro hempty
      rw [hempty, List.length_nil] at hlen
      omega
    · intro hempty
      rw [hempty, List.length_nil] at hlen
      omega
  · intro h
    rw [received_of_roots h.1 h.2, hm] at hn
    exact Except.ok.inj hn

theorem keepsIdentity_iff_of_serializeProposal {p : ConsensusProposal F} (hp : FixedWidth p)
    {data : Bytes} (hdata : serializeProposal p = .ok data) (hhash : p.hashedBytes.Returns) :
    KeepsIdentity p ↔
      (p.transactionRoot ≠ [] ∧ p.stateRoot ≠ []) ∨ CollidesOnWire p := by
  obtain ⟨m, hm⟩ := hhash
  obtain ⟨n, hn⟩ := received_hashedBytes_returns ⟨m, hm⟩
  have hread := deserializeProposal_of_serializeProposal hp hdata
  have hkeeps : KeepsIdentity p ↔ sha3_256 m = sha3_256 n := by
    constructor
    · intro h
      obtain ⟨data', q, hash, hdata', hq, hp', hq'⟩ := h
      obtain rfl := Except.ok.inj (hdata.symm.trans hdata')
      obtain rfl := Option.some.inj (hread.symm.trans hq)
      obtain ⟨m', hm', rfl⟩ := p.proposalHash_eq_ok.mp hp'
      obtain ⟨n', hn', hsame⟩ := (received p).proposalHash_eq_ok.mp hq'
      rw [Except.ok.inj (hm.symm.trans hm'), Except.ok.inj (hn.symm.trans hn')]
      exact hsame
    · intro h
      refine ⟨data, received p, sha3_256 m, hdata, hread, ?_, ?_⟩
      · exact p.proposalHash_eq_ok.mpr ⟨m, hm, rfl⟩
      · exact (received p).proposalHash_eq_ok.mpr ⟨n, hn, h⟩
  have hcollides : CollidesOnWire p ↔ Collision m n := by
    simp [CollidesOnWire, hm, hn]
  rw [hkeeps, sha3_256_eq_iff, hashedBytes_received_eq_iff hp hm hn, hcollides]

variable [PyFloat F]

/-- A proposal of the engine has the widths of the format and can be sent. -/
theorem serializeProposal_of_createProposal {c : BFTConsensus F}
    {measurements : MeasurementGraph F} {transactionRoot stateRoot : Bytes} {time : F}
    {p : ConsensusProposal F}
    (h : (c.createProposal measurements transactionRoot stateRoot time).1 = .ok p)
    (hid : c.validatorId.length = 32)
    (htx : transactionRoot = [] ∨ transactionRoot.length = 32)
    (hst : stateRoot = [] ∨ stateRoot.length = 32) (hround : c.currentRound < 2 ^ 32)
    (htime : 0 ≤ milliseconds time ∧ milliseconds time < 2 ^ 64) :
    FixedWidth p ∧ p.hashedBytes.Returns ∧ ∃ data, serializeProposal p = .ok data := by
  obtain ⟨root, hash, hroot, rfl, hhash⟩ := BFTConsensus.createProposal_eq_ok.mp h
  obtain ⟨m, hm, -⟩ := (ConsensusProposal.proposalHash_eq_ok _).mp hhash
  obtain ⟨⟨hepoch, hnonneg⟩, -⟩ := (ConsensusProposal.hashedBytes_eq_ok _).mp hm
  refine ⟨⟨hid, BFTConsensus.length_measurementRoot hroot, htx, hst⟩, ⟨m, hm⟩, _,
    serializeProposal_eq_ok.mpr ⟨_, _, packQI_eq_ok.mpr ⟨⟨hepoch, hnonneg.1, hround⟩, rfl⟩,
      structPack_eq_ok.mpr ⟨htime, rfl⟩, rfl⟩⟩

/-- A proposal of the engine keeps its hash on the wire exactly when both roots were given. -/
theorem createProposal_keepsIdentity_iff {c : BFTConsensus F} {measurements : MeasurementGraph F}
    {transactionRoot stateRoot : Bytes} {time : F} {p : ConsensusProposal F}
    (h : (c.createProposal measurements transactionRoot stateRoot time).1 = .ok p)
    (hid : c.validatorId.length = 32)
    (htx : transactionRoot = [] ∨ transactionRoot.length = 32)
    (hst : stateRoot = [] ∨ stateRoot.length = 32) (hround : c.currentRound < 2 ^ 32)
    (htime : 0 ≤ milliseconds time ∧ milliseconds time < 2 ^ 64) :
    KeepsIdentity p ↔ (transactionRoot ≠ [] ∧ stateRoot ≠ []) ∨ CollidesOnWire p := by
  obtain ⟨hp, hhash, data, hdata⟩ :=
    serializeProposal_of_createProposal h hid htx hst hround htime
  rw [keepsIdentity_iff_of_serializeProposal hp hdata hhash]
  obtain ⟨root, hash, -, rfl, -⟩ := BFTConsensus.createProposal_eq_ok.mp h
  rfl

open BFTConsensus

theorem createProposal_keepsIdentity_of_roots :
    ∃ (c : BFTConsensus ℚ) (p : ConsensusProposal ℚ),
      (c.createProposal ∅ (List.replicate 32 1) (List.replicate 32 2) 0).1 = .ok p ∧
      KeepsIdentity p := by
  obtain ⟨p, data, hp, -⟩ := createProposal_init (F := ℚ) (List.replicate 32 7) 100 ∅
    (List.replicate 32 1) (List.replicate 32 2) rfl 0
  refine ⟨_, p, hp, ?_⟩
  rw [createProposal_keepsIdentity_iff hp (List.length_replicate ..)
    (Or.inr (List.length_replicate ..)) (Or.inr (List.length_replicate ..)) (by decide)
    (by decide +kernel)]
  exact Or.inl ⟨by decide, by decide⟩

/-- The hashes of a default proposal of a new engine, before and after the wire. -/
theorem default_proposal_hashes_differ :
    sha3_256 (List.replicate 32 7 ++ (Bytes.bigEndian 8 0 ++ (Bytes.bigEndian 8 0 ++
      (sha3_256 (ascii ['e', 'm', 'p', 't', 'y']) ++ ([] ++ []))))) ≠
    sha3_256 (List.replicate 32 7 ++ (Bytes.bigEndian 8 0 ++ (Bytes.bigEndian 8 0 ++
      (sha3_256 (ascii ['e', 'm', 'p', 't', 'y']) ++
        (List.replicate 32 0 ++ List.replicate 32 0))))) := by
  decide +kernel

/-- With both roots left at their default. -/
theorem createProposal_default_changes_hash :
    ∃ (c : BFTConsensus ℚ) (p q : ConsensusProposal ℚ) (data hash hash' : Bytes),
      c.Reachable ∧ c.validatorId.length = 32 ∧ (c.createProposal ∅ [] [] 0).1 = .ok p ∧
      serializeProposal p = .ok data ∧ deserializeProposal data = some q ∧
      p.proposalHash = .ok hash ∧ q.proposalHash = .ok hash' ∧ hash ≠ hash' := by
  obtain ⟨p, m, hp, hover, hm, rfl⟩ :=
    createProposal_init (F := ℚ) (List.replicate 32 7) 100 ∅ [] [] rfl 0
  obtain ⟨hwidth, -, data, hdata⟩ := serializeProposal_of_createProposal hp
    (List.length_replicate ..) (Or.inl rfl) (Or.inl rfl) (by decide) (by decide +kernel)
  have hn := (received p).hashedBytes_eq_ok.mpr ⟨(p.hashedBytes_eq_ok.mp hm).1, rfl⟩
  refine ⟨_, p, received p, data, _, _, reachable_init _ _, List.length_replicate .., hp, hdata,
    deserializeProposal_of_serializeProposal hwidth hdata, p.proposalHash_eq_ok.mpr ⟨_, hm, rfl⟩,
    (received p).proposalHash_eq_ok.mpr ⟨_, hn, rfl⟩, ?_⟩
  rw [hover]
  exact default_proposal_hashes_differ

end Node

end Qrtb
