import Qrtb.Consensus.CommitReveal
import Qrtb.Consensus.BFT
import Qrtb.Lib.SortedBlocks

/-!
# What the measurement digests are taken of (`src/measurement.py`, `src/consensus.py`)

The hashes of the measurements are sorted and joined, and the digest is the hash of
that: of the measurements of one validator in a commitment, of all of them in a
proposal, where a word of its own stands for no measurement. So the hashed bytes
determine the hashes with their multiplicities and do not depend on any order.
-/

namespace Qrtb

open Keccak PyFloat SortedBlocks

variable {F : Type} [PyFloat F]

/-- The bytes under the hash of a commitment. -/
def combinedData (measurements : List (RTTMeasurement F)) : Except PyError Bytes := do
  let hashes ← measurements.mapM RTTMeasurement.commitment
  return join (· ≤ ·) hashes

/-- The bytes under the measurement root of a proposal. -/
def BFTConsensus.rootData (measurements : MeasurementGraph F) : Except PyError Bytes := do
  let hashes ← measurements.values.flatten.mapM RTTMeasurement.commitment
  return if hashes.isEmpty then ascii ['e', 'm', 'p', 't', 'y'] else join (· ≤ ·) hashes

theorem combinedHash_eq (measurements : List (RTTMeasurement F)) :
    combinedHash measurements = (combinedData measurements).map sha3_256 := by
  rw [combinedHash, combinedData]
  cases measurements.mapM RTTMeasurement.commitment <;> rfl

theorem BFTConsensus.measurementRoot_eq (measurements : MeasurementGraph F) :
    measurementRoot measurements = (rootData measurements).map sha3_256 := by
  rw [measurementRoot, rootData]
  cases measurements.values.flatten.mapM RTTMeasurement.commitment with
  | error e => rfl
  | ok hashes =>
    simp only [bind, Except.bind, pure, Except.pure, Except.map]
    split_ifs <;> rfl

/-- The hash in a commitment. -/
theorem MeasurementProtocol.createCommitment_eq_ok {p : MeasurementProtocol F} {time : F}
    {c : MeasurementCommitment} (h : (p.createCommitment time).1 = .ok c) :
    ∃ data, combinedData p.measurements = .ok data ∧ c.commitmentHash = sha3_256 data := by
  rw [createCommitment, combinedHash_eq] at h
  cases hdata : combinedData p.measurements with
  | error e =>
    rw [hdata] at h
    cases h
  | ok data =>
    rw [hdata] at h
    obtain rfl := Except.ok.inj h
    exact ⟨data, rfl, rfl⟩

/-- The hash a reveal is compared by. -/
theorem MeasurementReveal.verifyCommitment_eq (r : MeasurementReveal F) :
    r.verifyCommitment = do
      let data ← combinedData r.measurements
      match r.commitment with
      | none => .error .attributeError
      | some commitment => return sha3_256 data == commitment.commitmentHash := by
  rw [verifyCommitment, combinedHash_eq]
  cases combinedData r.measurements <;> rfl

theorem length_of_commitment {m : RTTMeasurement F} {hash : Bytes} (h : m.commitment = .ok hash) :
    hash.length = 32 := by
  obtain ⟨data, -, hdata⟩ := Except.bind_eq_ok.mp h
  obtain rfl := Except.ok.inj hdata
  exact length_sha3_256 data

/-- The hash of a measurement, where it has one. -/
def hashOf (m : RTTMeasurement F) : Bytes := m.commitment.toOption.getD []

theorem commitment_eq_ok_iff (m : RTTMeasurement F) (hash : Bytes) :
    m.commitment = .ok hash ↔ m.commitment.Returns ∧ hash = hashOf m := by
  rw [Except.Returns, hashOf]
  cases m.commitment <;> simp [Except.toOption, eq_comm]

theorem mapM_commitment_eq_ok {ms : List (RTTMeasurement F)} {hashes : List Bytes} :
    ms.mapM RTTMeasurement.commitment = .ok hashes ↔
      (∀ m ∈ ms, m.commitment.Returns) ∧ hashes = ms.map hashOf :=
  Except.mapM_eq_ok_iff commitment_eq_ok_iff

theorem length_of_mem_hashes {ms : List (RTTMeasurement F)} {hashes : List Bytes}
    (h : ms.mapM RTTMeasurement.commitment = .ok hashes) : ∀ a ∈ hashes, a.length = 32 := by
  obtain ⟨hreturns, rfl⟩ := mapM_commitment_eq_ok.mp h
  intro a ha
  obtain ⟨m, hm, rfl⟩ := List.mem_map.mp ha
  exact length_of_commitment ((commitment_eq_ok_iff m _).mpr ⟨hreturns m hm, rfl⟩)

theorem rootBytes_eq_iff {as bs : List Bytes} (ha : ∀ a ∈ as, a.length = 32)
    (hb : ∀ b ∈ bs, b.length = 32) :
    ((if as.isEmpty then ascii ['e', 'm', 'p', 't', 'y'] else join (· ≤ ·) as) =
      if bs.isEmpty then ascii ['e', 'm', 'p', 't', 'y'] else join (· ≤ ·) bs) ↔ as.Perm bs := by
  have hword : ∀ {cs : List Bytes}, (∀ c ∈ cs, c.length = 32) →
      ascii ['e', 'm', 'p', 't', 'y'] ≠ join (· ≤ ·) cs := by
    intro cs hcs h
    have hlength := congrArg List.length h
    rw [length_join _ hcs, show (ascii ['e', 'm', 'p', 't', 'y']).length = 5 from rfl] at hlength
    omega
  cases as with
  | nil =>
    cases bs with
    | nil => simp
    | cons b bs => simpa using hword hb
  | cons a as =>
    cases bs with
    | nil => simpa using (hword ha).symm
    | cons b bs => simpa using join_eq_iff (· ≤ ·) (by decide) ha hb

theorem combinedData_of_hashes {ms : List (RTTMeasurement F)} {hashes : List Bytes}
    (h : ms.mapM RTTMeasurement.commitment = .ok hashes) :
    combinedData ms = .ok (join (· ≤ ·) hashes) := by
  rw [combinedData, h]
  rfl

theorem combinedHash_of_hashes {ms : List (RTTMeasurement F)} {hashes : List Bytes}
    (h : ms.mapM RTTMeasurement.commitment = .ok hashes) :
    combinedHash ms = .ok (sha3_256 (join (· ≤ ·) hashes)) := by
  rw [combinedHash_eq, combinedData_of_hashes h]
  rfl

theorem BFTConsensus.rootData_of_hashes {g : MeasurementGraph F} {hashes : List Bytes}
    (h : g.values.flatten.mapM RTTMeasurement.commitment = .ok hashes) :
    ∃ data, rootData g = .ok data ∧ measurementRoot g = .ok (sha3_256 data) ∧
      data = if hashes.isEmpty then ascii ['e', 'm', 'p', 't', 'y']
        else join (· ≤ ·) hashes := by
  refine ⟨_, ?_, ?_, rfl⟩
  · rw [rootData, h]
    rfl
  · rw [measurementRoot_eq, rootData, h]
    rfl

/-- Two lists of measurements have the same bytes under a commitment, and two graphs under a
proposal, exactly when they have the same hashes with the same multiplicities; and these bytes are
what is hashed. -/
theorem digests_exact (ms ms' : List (RTTMeasurement F)) (g g' : MeasurementGraph F)
    {hashes hashes' all all' : List Bytes}
    (h : ms.mapM RTTMeasurement.commitment = .ok hashes)
    (h' : ms'.mapM RTTMeasurement.commitment = .ok hashes')
    (hg : g.values.flatten.mapM RTTMeasurement.commitment = .ok all)
    (hg' : g'.values.flatten.mapM RTTMeasurement.commitment = .ok all') :
    (∃ data data', combinedData ms = .ok data ∧ combinedHash ms = .ok (sha3_256 data) ∧
      combinedData ms' = .ok data' ∧ combinedHash ms' = .ok (sha3_256 data') ∧
      (data = data' ↔ hashes.Perm hashes')) ∧
    (∃ data data', BFTConsensus.rootData g = .ok data ∧
      BFTConsensus.measurementRoot g = .ok (sha3_256 data) ∧ BFTConsensus.rootData g' = .ok data' ∧
      BFTConsensus.measurementRoot g' = .ok (sha3_256 data') ∧ (data = data' ↔ all.Perm all')) ∧
    (g.values.flatten.Perm g'.values.flatten →
      BFTConsensus.measurementRoot g = BFTConsensus.measurementRoot g') := by
  obtain ⟨data, hdata, hdigest, heq⟩ := BFTConsensus.rootData_of_hashes hg
  obtain ⟨data', hdata', hdigest', heq'⟩ := BFTConsensus.rootData_of_hashes hg'
  have hroot : data = data' ↔ all.Perm all' := by
    rw [heq, heq']
    exact rootBytes_eq_iff (length_of_mem_hashes hg) (length_of_mem_hashes hg')
  have hcombined : join (· ≤ ·) hashes = join (· ≤ ·) hashes' ↔ hashes.Perm hashes' :=
    join_eq_iff (· ≤ ·) (by decide) (length_of_mem_hashes h) (length_of_mem_hashes h')
  refine ⟨⟨_, _, combinedData_of_hashes h, combinedHash_of_hashes h, combinedData_of_hashes h',
    combinedHash_of_hashes h', hcombined⟩,
    ⟨data, data', hdata, hdigest, hdata', hdigest', hroot⟩, fun hperm => ?_⟩
  have hsame : data = data' := by
    rw [hroot, (mapM_commitment_eq_ok.mp hg).2, (mapM_commitment_eq_ok.mp hg').2]
    exact hperm.map hashOf
  rw [hdigest, hdigest', hsame]

theorem digests_exact_swapped :
    ∃ (m m' : RTTMeasurement ℚ) (data data' : Bytes), m.rttMs ≠ m'.rttMs ∧
      combinedData [m, m'] = .ok data ∧ combinedData [m', m] = .ok data' ∧ data = data' ∧
      BFTConsensus.measurementRoot (OrderedDict.set ∅ [1] [m, m']) =
        BFTConsensus.measurementRoot (OrderedDict.set ∅ [1] [m', m]) := by
  have hreturns : ∀ rtt : ℚ, (RTTMeasurement.commitment
      { sourceId := [1], targetId := [2], rttMs := rtt, timestamp := 1000,
        theoreticalRttMs := 15, nonce := [] }).Returns := by
    intro rtt
    refine Except.returns_bind.mpr ?_
    obtain ⟨data, hdata⟩ := (@concat_returns [.bytes [1], .bytes [2], .float (ieee rtt),
      .int 1000, .bytes []]).mpr (by simp [Arg.encode, Except.Returns, structPack_eq_ok])
    exact ⟨data, hdata, _, rfl⟩
  obtain ⟨m, hm⟩ : ∃ m : RTTMeasurement ℚ, m =
      { sourceId := [1], targetId := [2], rttMs := 20, timestamp := 1000,
        theoreticalRttMs := 15, nonce := [] } := ⟨_, rfl⟩
  obtain ⟨m', hm'⟩ : ∃ m : RTTMeasurement ℚ, m =
      { sourceId := [1], targetId := [2], rttMs := 30, timestamp := 1000,
        theoreticalRttMs := 15, nonce := [] } := ⟨_, rfl⟩
  obtain ⟨hash, hhash⟩ : m.commitment.Returns := hm ▸ hreturns 20
  obtain ⟨hash', hhash'⟩ : m'.commitment.Returns := hm' ▸ hreturns 30
  have hfirst : [m, m'].mapM RTTMeasurement.commitment = .ok [hash, hash'] := by
    simp [hhash, hhash', bind, Except.bind, pure, Except.pure]
  have hsecond : [m', m].mapM RTTMeasurement.commitment = .ok [hash', hash] := by
    simp [hhash, hhash', bind, Except.bind, pure, Except.pure]
  obtain ⟨⟨data, data', hdata, -, hdata', -, hiff⟩, -, hroot⟩ := digests_exact [m, m'] [m', m]
    (OrderedDict.set ∅ [1] [m, m']) (OrderedDict.set ∅ [1] [m', m]) hfirst hsecond hfirst hsecond
  exact ⟨m, m', data, data', by rw [hm, hm']; decide, hdata, hdata',
    hiff.mpr (List.Perm.swap _ _ _), hroot (List.Perm.swap _ _ _)⟩

end Qrtb
