import Qrtb.Simulation.Voting

/-!
# The measurement of an epoch in the network

Whatever is measured, a node that gets through its commitment holds measurements
that can be hashed, and keeps them while commitments and reveals go round. What can
stop it is a number that does not fit its eight bytes: its count of epochs, the
epoch itself or the time of a measurement.
-/

namespace Qrtb.Testnet

open PyFloat Stateful OrderedDict

variable {F : Type} [PyFloat F] {registry : OrderedDict Bytes ℤ} {epoch : ℤ} {vid : Bytes}
  {fits : Prop}

theorem commitment_returns (m : RTTMeasurement F) :
    m.commitment.Returns ↔ 0 ≤ m.timestamp ∧ m.timestamp < 256 ^ 8 := by
  have hfloat : (Arg.encode (.float (ieee m.rttMs))).Returns := ⟨_, rfl⟩
  have hconcat : (concat [.bytes m.sourceId, .bytes m.targetId, .float (ieee m.rttMs),
      .int m.timestamp, .bytes m.nonce]).Returns ↔ 0 ≤ m.timestamp ∧ m.timestamp < 256 ^ 8 := by
    simp [concat_returns, hfloat]
  rw [← hconcat, RTTMeasurement.commitment, Except.returns_bind]
  simp [Except.Returns, pure, Except.pure]

theorem combinedHash_returns (measurements : List (RTTMeasurement F)) :
    (combinedHash measurements).Returns ↔ ∀ m ∈ measurements, m.commitment.Returns := by
  rw [← Except.returns_mapM, combinedHash, Except.returns_bind]
  simp [Except.Returns, pure, Except.pure]

theorem measurementRoot_returns (measurements : MeasurementGraph F) :
    (BFTConsensus.measurementRoot measurements).Returns ↔
      ∀ ms ∈ measurements.values, (combinedHash ms).Returns := by
  have hall : (∀ ms ∈ measurements.values, (combinedHash ms).Returns) ↔
      ∀ m ∈ measurements.values.flatten, m.commitment.Returns := by
    simp only [combinedHash_returns, List.mem_flatten]
    grind
  rw [hall, ← Except.returns_mapM, BFTConsensus.measurementRoot, Except.returns_bind]
  simp [Except.Returns, pure, Except.pure]

/-- A node at the start of an epoch. -/
structure Started (registry : OrderedDict Bytes ℤ) (epoch : ℤ) (vid : Bytes) (n : ValidatorNode F) :
    Prop where
  validatorId : n.validatorId = vid
  consensus : Ready registry epoch vid n.consensus
  epoch : n.measurementProtocol.currentEpoch = epoch

theorem contract_startEpoch (time : F) :
    Contract fits (fun n : ValidatorNode F => Registered registry vid n ∧
        (fits → n.epochManager.currentEpoch + 1 < 256 ^ 8))
      (ValidatorNode.startEpoch epoch time) fun _ n => Started registry epoch vid n := by
  rintro n ⟨hn, hcount⟩
  have hstep : ValidatorNode.startEpoch epoch time n =
      ((Epochs.ValidatorNode.startEpoch epoch time n.toValidatorNode).1,
        { n with
          toValidatorNode := (Epochs.ValidatorNode.startEpoch epoch time n.toValidatorNode).2 }) :=
    rfl
  rw [hstep, Epochs.ValidatorNode.startEpoch]
  rcases n.epochManager.advanceEpoch_cases time with
    ⟨entropy, m', -, -, heq, -, -⟩ | ⟨hout, e, heq⟩
  · simp only [heq]
    refine ⟨fun _ => ⟨(), trivial⟩, fun _ _ => ?_⟩
    exact ⟨hn.validatorId, ⟨hn.consensus.congr rfl rfl rfl, rfl, rfl, fun _ => heard_empty _,
      fun _ => heard_empty _⟩, rfl⟩
  · simp only [heq]
    constructor
    · intro hfits
      have hpos := hn.epochs
      exact absurd ⟨by omega, hcount hfits⟩ hout
    · intro _ h
      cases h

/-- A node whose measurements are all of one time. -/
structure Timed (registry : OrderedDict Bytes ℤ) (epoch : ℤ) (time : F) (vid : Bytes)
    (n : ValidatorNode F) : Prop where
  started : Started registry epoch vid n
  current : n.currentMeasurements = n.measurementProtocol.measurements
  timestamp : ∀ m ∈ n.measurementProtocol.measurements, m.timestamp = milliseconds time

/-- Measurements that can be hashed, with a commitment. -/
structure Committed (measurements : List (RTTMeasurement F))
    (commitment : Option MeasurementCommitment) : Prop where
  measurements : (combinedHash measurements).Returns
  commitment : commitment.isSome

/-- A node that has committed to its measurements. -/
structure Measured (registry : OrderedDict Bytes ℤ) (epoch : ℤ) (vid : Bytes)
    (n : ValidatorNode F) : Prop where
  consensus : Ready registry epoch vid n.consensus
  committed : Committed n.measurementProtocol.measurements n.measurementProtocol.commitment
  current : (combinedHash n.currentMeasurements).Returns

omit [PyFloat F] in
theorem contract_selectTargets (r : Readings F) (hepoch : fits → 0 ≤ epoch ∧ epoch < 256 ^ 8) :
    Contract fits (Started registry epoch vid) (ValidatorNode.selectTargets r)
      fun _ n => (0 ≤ epoch ∧ epoch < 256 ^ 8) ∧ Started registry epoch vid n := by
  refine contract_at fun n hn => ?_
  have hread : Contract fits (fun t => t = n) (reads id) fun a t => a = n ∧ t = n :=
    contract_reads fun s hs => ⟨hs, hs⟩
  have hpack : (concat [.bytes n.measurementProtocol.validatorId,
      .int n.measurementProtocol.currentEpoch]).Returns ↔ 0 ≤ epoch ∧ epoch < 256 ^ 8 := by
    simp [concat_returns, hn.epoch]
  have hdata : Contract fits (fun t => t = n) (ofExcept (concat
      [.bytes n.measurementProtocol.validatorId, .int n.measurementProtocol.currentEpoch]))
      fun _ t => (0 ≤ epoch ∧ epoch < 256 ^ 8) ∧ t = n :=
    contract_ofExcept (fun h => hpack.mpr (hepoch h)) fun data s hdata hs =>
      ⟨hpack.mp ⟨data, hdata⟩, hs⟩
  refine hread.bind fun a => contract_of_fact ?_
  rintro rfl
  refine hdata.bind fun data => contract_of_returns (fun _ _ => rfl) ?_
  rintro t ⟨hrange, rfl⟩
  exact ⟨hrange, hn.validatorId, hn.consensus, hn.epoch⟩

theorem contract_executeMeasurements (r : Readings F) :
    Contract fits (Started registry epoch vid) (ValidatorNode.executeMeasurements r)
      fun ms n => Started registry epoch vid n ∧ n.measurementProtocol.measurements = ms ∧
        ∀ m ∈ ms, m.timestamp = milliseconds (r.measureTime vid) := by
  refine contract_of_returns (fun _ _ => rfl) ?_
  intro n hn
  refine ⟨⟨hn.validatorId, hn.consensus, hn.epoch⟩, rfl, ?_⟩
  intro m hm
  obtain ⟨target, -, hm⟩ := List.mem_filterMap.mp hm
  obtain ⟨peer, -, rfl⟩ := Option.map_eq_some_iff.mp hm
  change milliseconds (r.measureTime n.validatorId) = _
  rw [hn.validatorId]

theorem contract_runMeasurementPhase (r : Readings F)
    (hepoch : fits → 0 ≤ epoch ∧ epoch < 256 ^ 8) :
    Contract fits (Started registry epoch vid) (ValidatorNode.runMeasurementPhase r)
      fun _ n => (0 ≤ epoch ∧ epoch < 256 ^ 8) ∧
        Timed registry epoch (r.measureTime vid) vid n := by
  have hstate : Contract fits (Started registry epoch vid)
      (Stateful.modify fun n : ValidatorNode F => { n with state := .measuring })
      fun _ n => Started registry epoch vid n :=
    contract_modify fun n hn => ⟨hn.validatorId, hn.consensus, hn.epoch⟩
  refine hstate.bind fun _ => (contract_selectTargets r hepoch).bind fun _ =>
    contract_of_fact fun hrange => (contract_executeMeasurements r).bind fun ms => ?_
  refine contract_modify fun n hn => ?_
  obtain ⟨hstarted, rfl, htime⟩ := hn
  exact ⟨hrange, ⟨hstarted.validatorId, hstarted.consensus, hstarted.epoch⟩, rfl, htime⟩

theorem contract_createMeasurementCommitment {measureTime : F}
    (htime : fits → 0 ≤ milliseconds measureTime ∧ milliseconds measureTime < 256 ^ 8) (time : F) :
    Contract fits (Timed registry epoch measureTime vid)
      (ValidatorNode.createMeasurementCommitment time) fun _ n => Measured registry epoch vid n := by
  have hcommit : Contract fits (Timed registry epoch measureTime vid)
      (ValidatorNode.onMeasurement (MeasurementProtocol.createCommitment time))
      fun _ n => Measured registry epoch vid n := by
    intro n hn
    have hstep : ValidatorNode.onMeasurement (MeasurementProtocol.createCommitment time) n =
        ((n.measurementProtocol.createCommitment time).1,
          { n with measurementProtocol := (n.measurementProtocol.createCommitment time).2 }) := rfl
    rw [hstep, MeasurementProtocol.createCommitment]
    cases hcombined : combinedHash n.measurementProtocol.measurements with
    | error e =>
      refine ⟨fun hfits => ?_, nofun⟩
      have hreturns : (combinedHash n.measurementProtocol.measurements).Returns := by
        rw [combinedHash_returns]
        intro m hm
        rw [commitment_returns, hn.timestamp m hm]
        exact htime hfits
      obtain ⟨combined, hok⟩ := hreturns
      rw [hcombined] at hok
      cases hok
    | ok combined =>
      have hreturns : (combinedHash n.measurementProtocol.measurements).Returns := ⟨_, hcombined⟩
      refine ⟨fun _ => ⟨_, rfl⟩, fun _ _ => ⟨hn.started.consensus, ⟨hreturns, rfl⟩, ?_⟩⟩
      change (combinedHash n.currentMeasurements).Returns
      rwa [hn.current]
  refine hcommit.bind fun commitment => contract_modify fun n hn => ?_
  exact ⟨hn.consensus, hn.committed, hn.current⟩

theorem contract_onMeasurement {α : Type} {x : Stateful (MeasurementProtocol F) α} {R : α → Prop}
    (hx : Contract fits (fun p => Committed p.measurements p.commitment) x
      fun a p => R a ∧ Committed p.measurements p.commitment) :
    Contract fits (Measured registry epoch vid) (ValidatorNode.onMeasurement x)
      fun a n => R a ∧ Measured registry epoch vid n := by
  have hframe : ∀ (p : MeasurementProtocol F) (n : ValidatorNode F),
      Ready registry epoch vid n.consensus ∧ (combinedHash n.currentMeasurements).Returns →
      Ready registry epoch vid n.consensus ∧ (combinedHash n.currentMeasurements).Returns :=
    fun _ _ h => h
  rw [ValidatorNode.onMeasurement]
  refine Contract.mono (hx.on (fun _ _ => rfl) hframe) ?_ ?_
  · exact fun n hn => ⟨⟨hn.consensus, hn.current⟩, hn.committed⟩
  · exact fun a n hn => ⟨hn.2.1, hn.1.1, hn.2.2, hn.1.2⟩

theorem contract_receiveCommitment (commitment : MeasurementCommitment) :
    Contract fits (Measured registry epoch vid : ValidatorNode F → Prop)
      (ValidatorNode.receiveCommitment commitment) fun _ n => Measured registry epoch vid n := by
  refine (contract_onMeasurement (R := fun _ => True) (contract_total ?_)).weaken fun _ _ h => h.2
  intro p hp
  refine ⟨trivial, ?_⟩
  rcases MeasurementProtocol.receiveCommitment_cases commitment p with ⟨-, h⟩ | ⟨-, h⟩
  · rwa [h]
  · rwa [h]

theorem contract_createReveal :
    Contract fits (Measured registry epoch vid : ValidatorNode F → Prop)
      ValidatorNode.createReveal fun reveal n =>
        Committed reveal.measurements reveal.commitment ∧ Measured registry epoch vid n :=
  contract_onMeasurement (contract_total fun _ hp => ⟨hp, hp⟩)

theorem checkReveal_ne_raised {reveal : MeasurementReveal F}
    (hreveal : Committed reveal.measurements reveal.commitment) (p : MeasurementProtocol F)
    (e : PyError) : p.checkReveal reveal ≠ .error (.raised e) := by
  obtain ⟨combined, hcombined⟩ := hreveal.measurements
  obtain ⟨commitment, hcommitment⟩ := Option.isSome_iff_exists.mp hreveal.commitment
  have hverify : reveal.verifyCommitment = .ok (combined == commitment.commitmentHash) := by
    simp [MeasurementReveal.verifyCommitment, hcombined, hcommitment, bind, Except.bind, pure,
      Except.pure]
  simp only [MeasurementProtocol.checkReveal, hverify, Check.rejectIf, Check.lift, bind, Except.bind,
    Except.mapError]
  split_ifs <;> simp

theorem contract_receiveReveal {reveal : MeasurementReveal F}
    (hreveal : Committed reveal.measurements reveal.commitment) :
    Contract fits (Measured registry epoch vid : ValidatorNode F → Prop)
      (ValidatorNode.receiveReveal reveal) fun _ n => Measured registry epoch vid n := by
  refine (contract_onMeasurement (R := fun _ => True) ((contract_checking ?_ ?_).weaken
    fun _ _ h => ⟨trivial, h⟩)).weaken fun _ _ h => h.2
  · intro p hp e h
    rw [MeasurementProtocol.receiveReveal] at h
    split at h
    next e' hcheck =>
      refine checkReveal_ne_raised hreveal p e ?_
      rw [hcheck, Except.error.inj h]
    next => cases h
  · intro p hp
    rcases MeasurementProtocol.receiveReveal_cases reveal p with ⟨-, h⟩ | ⟨-, h⟩
    · rwa [h]
    · rwa [h]

end Qrtb.Testnet
