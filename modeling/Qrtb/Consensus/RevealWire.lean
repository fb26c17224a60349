import Qrtb.Consensus.CommitmentWire

/-!
# Reveals on the wire (`src/node.py`)

A reveal is sent as its measurements and its commitment, each behind its length. The
reader skips the measurements, as their class has no reader, drops the commitment, and
calls the constructor of the reveal with an argument that it does not have. The call
raises, every exception makes the reader return nothing, and so no reveal arrives.
-/

namespace Qrtb

open Bytes Keccak PyFloat

variable {F : Type} [PyFloat F]

namespace RTTMeasurement

def toBytes (m : RTTMeasurement F) : Except PyError Bytes :=
  concat [.bytes m.sourceId, .bytes m.targetId, .float (ieee m.rttMs), .int m.timestamp,
    .float (ieee m.theoreticalRttMs), .bytes m.nonce]

omit [PyFloat F] in
/-- `RTTMeasurement.from_bytes`, if the class has it. It does not. -/
def fromBytes? : Option (Bytes → Except PyError (RTTMeasurement F)) := none

/-- The parts of fixed width have it, and the time stamp fits. -/
structure Fits (m : RTTMeasurement F) : Prop where
  sourceId : m.sourceId.length = 32
  targetId : m.targetId.length = 32
  nonce : m.nonce.length = 32
  timestamp : 0 ≤ m.timestamp ∧ m.timestamp < 256 ^ 8

theorem toBytes_of_fits {m : RTTMeasurement F} (h : m.Fits) :
    ∃ data, m.toBytes = .ok data ∧ data.length = 120 := by
  refine ⟨[m.sourceId, m.targetId, bigEndian 8 (ieee m.rttMs).toNat,
    bigEndian 8 m.timestamp.toNat, bigEndian 8 (ieee m.theoreticalRttMs).toNat,
    m.nonce].flatten, ?_, ?_⟩
  · simp only [toBytes, concat_bytes_cons_eq_ok, concat_int_cons_eq_ok, concat_float_cons_eq_ok]
    exact ⟨_, ⟨_, ⟨_, ⟨h.timestamp, _, ⟨_, ⟨_, rfl, rfl⟩, rfl⟩, rfl⟩, rfl⟩, rfl⟩, by simp⟩
  · simp [h.sourceId, h.targetId, h.nonce]

end RTTMeasurement

/-- `MeasurementReveal(...)` with keyword arguments: a missing one raises, and so does one that
the class does not have. -/
def MeasurementReveal.ofKeywords (validatorId : Option Bytes) (epoch : Option ℤ)
    (measurements : Option (List (RTTMeasurement F)))
    (commitment : Option (Option MeasurementCommitment)) (unexpected : List String) :
    Except PyError (MeasurementReveal F) :=
  match validatorId, epoch, measurements, commitment, unexpected with
  | some validatorId, some epoch, some measurements, some commitment, [] =>
    .ok { validatorId, epoch, measurements, commitment }
  | _, _, _, _, _ => .error .typeError

namespace Node

def withLength (data : Bytes) : Except PyError Bytes := do
  let length ← structPack 4 data.length
  return length ++ data

def serializeReveal (r : MeasurementReveal F) : Except PyError Bytes := do
  let epoch ← structPack 8 r.epoch
  let count ← structPack 4 r.measurements.length
  let measurements ← r.measurements.mapM fun m => do withLength (← m.toBytes)
  let cdata ← match r.commitment with
    | none => .error .attributeError
    | some commitment => serializeCommitment commitment
  let commitment ← withLength cdata
  return ([r.validatorId, epoch, count] ++ measurements ++ [commitment]).flatten

/-- So many measurements behind their lengths, and the offset behind them. -/
def readMeasurements (data : Bytes) :
    ℕ → ℕ → Except PyError (List (RTTMeasurement F) × ℕ)
  | 0, offset => .ok ([], offset)
  | n + 1, offset => do
    let mLen ← structUnpack 4 (data.slice offset (offset + 4))
    let mBytes := data.slice (offset + 4) (offset + 4 + mLen)
    let m : Option (RTTMeasurement F) ← match RTTMeasurement.fromBytes? with
      | none => .ok none
      | some fromBytes => (fromBytes mBytes).map some
    let (rest, stop) ← readMeasurements data n (offset + 4 + mLen)
    return (m.toList ++ rest, stop)

/-- The body of the reader. The commitment it reads and the hash it computes are not used by the
call at the end. -/
def readReveal (data : Bytes) : Except PyError (Option (MeasurementReveal F)) :=
  if data.length < 44 then .ok none
  else do
    let validatorId := data.slice 0 32
    let epoch ← structUnpack 8 (data.slice 32 40)
    let mCount ← structUnpack 4 (data.slice 40 44)
    let (measurements, offset) ← readMeasurements data mCount 44
    let cLen ← structUnpack 4 (data.slice offset (offset + 4))
    let _commitment := deserializeCommitment (data.slice (offset + 4) (offset + 4 + cLen))
    let _commitmentHash ← combinedHash measurements
    let reveal ← MeasurementReveal.ofKeywords (some validatorId) (some epoch) (some measurements)
      none ["commitment_hash"]
    return some reveal

/-- Every exception makes the reader return nothing. -/
def deserializeReveal (data : Bytes) : Option (MeasurementReveal F) :=
  match readReveal data with
  | .ok reveal => reveal
  | .error _ => none

/-- The branch of the message handler for reveals. -/
def handleReveal (payload : Bytes) (p : MeasurementProtocol F) : MeasurementProtocol F :=
  match deserializeReveal payload with
  | none => p
  | some reveal => (p.receiveReveal reveal).2

structure RevealFits (r : MeasurementReveal F) (c : MeasurementCommitment) : Prop where
  validatorId : r.validatorId.length = 32
  epoch : 0 ≤ r.epoch ∧ r.epoch < 256 ^ 8
  measurementCount : r.measurements.length < 256 ^ 4
  measurements : ∀ m ∈ r.measurements, m.Fits
  commitment : r.commitment = some c
  widths : CommitmentWidths c
  inRange : CommitmentInRange c
  commitmentLength : 84 + 32 * c.targetIds.length < 256 ^ 4

omit [PyFloat F] in
theorem withLength_of_lt {data : Bytes} (h : data.length < 256 ^ 4) :
    withLength data = .ok (bigEndian 4 data.length ++ data) := by
  have hpack : structPack 4 data.length = .ok (bigEndian 4 data.length) :=
    structPack_eq_ok.mpr ⟨⟨by omega, by exact_mod_cast h⟩, rfl⟩
  rw [withLength, hpack]
  rfl

theorem serializeReveal_returns {r : MeasurementReveal F} {c : MeasurementCommitment}
    (h : RevealFits r c) : (serializeReveal r).Returns := by
  have hepoch : (structPack 8 r.epoch).Returns := structPack_returns.mpr h.epoch
  have hcount : (structPack 4 r.measurements.length).Returns :=
    structPack_returns.mpr ⟨by omega, by exact_mod_cast h.measurementCount⟩
  have hmeasurements :
      (r.measurements.mapM fun m : RTTMeasurement F => do
        withLength (← m.toBytes)).Returns := by
    refine Except.returns_mapM.mpr fun m hm => ?_
    obtain ⟨data, hdata, hlength⟩ := RTTMeasurement.toBytes_of_fits (h.measurements m hm)
    exact Except.returns_bind.mpr ⟨data, hdata, _, withLength_of_lt (by omega)⟩
  obtain ⟨epoch, hepoch⟩ := hepoch
  obtain ⟨count, hcount⟩ := hcount
  obtain ⟨parts, hparts⟩ := hmeasurements
  obtain ⟨cdata, hcdata⟩ : ∃ cdata, serializeCommitment c = .ok cdata :=
    ⟨_, serializeCommitment_eq_ok.mpr ⟨h.inRange, rfl⟩⟩
  have hcommitment : cdata.length < 256 ^ 4 := by
    have := length_of_serializeCommitment h.widths hcdata
    have := h.commitmentLength
    omega
  rw [serializeReveal, h.commitment]
  simp only [Except.returns_bind]
  exact ⟨epoch, hepoch, count, hcount, parts, hparts, cdata, hcdata, _,
    withLength_of_lt hcommitment, _, rfl⟩

theorem deserializeReveal_eq_none (data : Bytes) :
    (deserializeReveal data : Option (MeasurementReveal F)) = none := by
  rw [deserializeReveal]
  split
  next reveal h =>
    unfold readReveal at h
    split_ifs at h with hlength
    · exact (Except.ok.inj h).symm
    · simp only [Except.bind_eq_ok, MeasurementReveal.ofKeywords] at h
      obtain ⟨_, -, _, -, _, -, _, -, _, -, _, hcall, -⟩ := h
      cases hcall
  next => rfl

theorem handleReveal_eq (payload : Bytes) (p : MeasurementProtocol F) :
    handleReveal payload p = p := by
  rw [handleReveal, deserializeReveal_eq_none]

/-- Every reveal can be sent and none arrives. -/
theorem reveal_lost (r : MeasurementReveal F) (c : MeasurementCommitment) (h : RevealFits r c) :
    ∃ data, serializeReveal r = .ok data ∧
      ¬ ∃ r' : MeasurementReveal F, deserializeReveal data = some r' ∧
        r'.validatorId = r.validatorId ∧ r'.epoch = r.epoch ∧
        r'.measurements = r.measurements ∧ r'.commitment = r.commitment := by
  obtain ⟨data, hdata⟩ := serializeReveal_returns h
  refine ⟨data, hdata, ?_⟩
  rintro ⟨r', hread, -⟩
  rw [deserializeReveal_eq_none] at hread
  cases hread

theorem reveal_lost_one :
    ∃ (r : MeasurementReveal ℚ) (c : MeasurementCommitment) (data : Bytes),
      RevealFits r c ∧ r.measurements.length = 1 ∧ serializeReveal r = .ok data ∧
      ¬ ∃ r' : MeasurementReveal ℚ, deserializeReveal data = some r' ∧
        r'.validatorId = r.validatorId ∧ r'.epoch = r.epoch ∧
        r'.measurements = r.measurements ∧ r'.commitment = r.commitment := by
  obtain ⟨c, hc⟩ : ∃ c : MeasurementCommitment, c =
      { validatorId := List.replicate 32 1, epoch := 3, targetIds := [List.replicate 32 2],
        commitmentHash := List.replicate 32 3, timestamp := 1000 } := ⟨_, rfl⟩
  obtain ⟨r, hr⟩ : ∃ r : MeasurementReveal ℚ, r =
      { validatorId := List.replicate 32 1, epoch := 3, commitment := some c,
        measurements := [{ sourceId := List.replicate 32 1, targetId := List.replicate 32 2,
                           rttMs := 20, timestamp := 1000, theoreticalRttMs := 15,
                           nonce := List.replicate 32 4 }] } := ⟨_, rfl⟩
  have h : RevealFits r c := by
    subst hr hc
    refine ⟨by decide, by decide, by decide, ?_, rfl, ⟨by decide, by decide, by decide, rfl⟩,
      ⟨by decide, by decide, by decide⟩, by decide⟩
    rw [List.forall_mem_singleton]
    exact ⟨by decide, by decide, by decide, by decide⟩
  obtain ⟨data, hdata, hlost⟩ := reveal_lost r c h
  exact ⟨r, c, data, h, by rw [hr]; rfl, hdata, hlost⟩

/-- A reveal that passes its check at the sender, and is nothing at the receiver. -/
theorem verified_reveal_dropped :
    ∃ (r : MeasurementReveal ℚ) (data : Bytes), r.verifyCommitment = .ok true ∧
      serializeReveal r = .ok data ∧
      (deserializeReveal data : Option (MeasurementReveal ℚ)) = none := by
  obtain ⟨c, hc⟩ : ∃ c : MeasurementCommitment, c =
      { validatorId := List.replicate 32 1, epoch := 3, targetIds := [],
        commitmentHash := sha3_256 [], timestamp := 1000 } := ⟨_, rfl⟩
  have hhash : c.commitmentHash = sha3_256 [] := by rw [hc]
  have hfits : RevealFits (F := ℚ)
      { validatorId := List.replicate 32 1, epoch := 3, measurements := [],
        commitment := some c } c := by
    refine ⟨by simp, by simp, by simp, List.forall_mem_nil _, rfl, ?_, ?_, ?_⟩
    · refine ⟨by rw [hc]; decide, by rw [hc]; exact List.forall_mem_nil _, ?_, by rw [hc]⟩
      rw [hhash, length_sha3_256]
    · refine ⟨by rw [hc]; decide, by rw [hc]; decide, by rw [hc]; decide⟩
    · rw [hc]
      decide
  obtain ⟨data, hdata⟩ := serializeReveal_returns hfits
  refine ⟨_, data, ?_, hdata, deserializeReveal_eq_none data⟩
  rw [MeasurementReveal.verifyCommitment_eq_ok_true]
  refine ⟨c, rfl, ?_⟩
  rw [hhash]
  rfl

end Node

end Qrtb
