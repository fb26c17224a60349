import Qrtb.Simulation.Epoch

/-!
# Every epoch finalizes

What an earlier epoch left behind does not matter: starting the next one empties the
tables of votes, and the registry never changes. So an epoch of the network that is
not stopped by a number without a packed form ends with a block that has all the
stake behind it.
-/

namespace Qrtb.Testnet

open PyFloat Stateful OrderedDict

variable {F : Type} [PyFloat F] {registry : OrderedDict Bytes ℤ} {epoch : ℤ} {fits : Prop}

/-- The numbers that an epoch over a registry packs fit the eight bytes each of them gets. -/
structure PackedOver (registry : OrderedDict Bytes ℤ) (epoch : ℤ) (r : Readings F) : Prop where
  epoch : 0 ≤ epoch ∧ epoch < 256 ^ 8
  totalStake : registry.values.sum < 256 ^ 8
  measureTime : ∀ vid ∈ registry.keys,
    0 ≤ milliseconds (r.measureTime vid) ∧ milliseconds (r.measureTime vid) < 256 ^ 8
  finalizeTime : ∀ vid ∈ registry.keys,
    0 ≤ milliseconds (r.finalizeTime vid) ∧ milliseconds (r.finalizeTime vid) < 256 ^ 8

theorem contract_startEpochs (time : Bytes → F) :
    Contract fits
      (fun d : Validators F => Members registry d ∧
        (fits → ∀ n ∈ d.values, n.epochManager.currentEpoch + 1 < 256 ^ 8))
      (forValues fun vid => ValidatorNode.startEpoch epoch (time vid))
      fun _ => Populated registry.keys (Started registry epoch) := by
  have hloop : Contract fits
      (Populated registry.keys fun vid (n : ValidatorNode F) => Registered registry vid n ∧
        (fits → n.epochManager.currentEpoch + 1 < 256 ^ 8))
      (forValues fun vid => ValidatorNode.startEpoch epoch (time vid))
      fun done d => List.Forall₂ (fun _ _ => True) registry.keys done ∧
        Populated registry.keys (Started registry epoch) d :=
    contract_forValues fun vid _ =>
      (contract_startEpoch (time vid)).weaken fun _ _ h => ⟨trivial, h⟩
  refine hloop.mono (fun d hd => ⟨hd.1.keys, fun p hp => ⟨hd.1.each p hp, ?_⟩⟩) fun _ _ h => h.2
  exact fun h => hd.2 h p.2 (List.mem_map_of_mem (f := Prod.snd) hp)

/-- Everybody measures and commits; that this returns shows that the epoch is in range. -/
theorem contract_measure (r : Readings F) (hpacked : fits → PackedOver registry epoch r) :
    Contract fits (Populated registry.keys (Started registry epoch))
      (forValues fun vid => do
        ValidatorNode.runMeasurementPhase r
        ValidatorNode.createMeasurementCommitment (r.commitTime vid))
      fun done d => List.Forall₂ (fun _ _ => 0 ≤ epoch ∧ epoch < 256 ^ 8) registry.keys done ∧
        Populated registry.keys (Measured registry epoch) d := by
  refine contract_forValues fun vid hvid => ?_
  refine (contract_runMeasurementPhase r fun h => (hpacked h).epoch).bind fun _ =>
    contract_of_fact fun hrange => ?_
  refine (contract_createMeasurementCommitment (fun h => ?_) _).weaken fun _ _ h => ⟨hrange, h⟩
  exact (hpacked h).measureTime vid hvid

theorem contract_runPhases (hfull : FullQuorum F) (r : Readings F)
    (hnonneg : ∀ vid stake, registry.get? vid = some stake → 0 ≤ stake)
    (htotal : 0 < registry.values.sum) (hpacked : fits → PackedOver registry epoch r) :
    Contract fits
      (fun d : Validators F => Members registry d ∧
        (fits → ∀ n ∈ d.values, n.epochManager.currentEpoch + 1 < 256 ^ 8))
      (runPhases epoch r)
      fun block _ => ∃ b, block = some b ∧ b.supportingStake = registry.values.sum := by
  obtain ⟨proposer, stake, hproposer, -, hselected⟩ :=
    BFTConsensus.exists_selected hnonneg htotal (BFTConsensus.selectionValue epoch 0)
  have hknown : proposer ∈ registry.keys := (mem_keys_iff registry proposer).mpr ⟨stake, hproposer⟩
  refine (contract_startEpochs r.advanceTime).bind fun _ => (contract_measure r hpacked).bind
    fun done => contract_of_fact fun hdone => ?_
  have hrange : 0 ≤ epoch ∧ epoch < 256 ^ 8 := by
    obtain ⟨first, rest, hkeys⟩ := List.exists_cons_of_ne_nil (List.ne_nil_of_mem hknown)
    rw [hkeys] at hdone
    cases hdone with
    | cons h _ => exact h
  refine (contract_forSenders contract_broadcastCommitment).bind fun _ => ?_
  refine (contract_forSenders contract_broadcastReveal).bind fun _ => ?_
  refine contract_runConsensus hfull r htotal hrange hselected hknown fun h => ?_
  exact ⟨(hpacked h).totalStake, (hpacked h).finalizeTime⟩

namespace QRTBTestnet

theorem contract_runEpoch (hfull : FullQuorum F) (r : Readings F)
    (hnonneg : ∀ vid stake, registry.get? vid = some stake → 0 ≤ stake)
    (htotal : 0 < registry.values.sum) (hpacked : fits → PackedOver registry epoch r) :
    Contract fits
      (fun t : QRTBTestnet F => Members registry t.validators ∧
        (fits → ∀ n ∈ t.validators.values, n.epochManager.currentEpoch + 1 < 256 ^ 8))
      (runEpoch epoch r)
      fun stats _ => stats.finalized = true ∧ stats.supportingStake = stats.totalStake := by
  have hphases : Contract fits
      (fun d : Validators F => Members registry d ∧
        (fits → ∀ n ∈ d.values, n.epochManager.currentEpoch + 1 < 256 ^ 8))
      (runPhases epoch r)
      fun block d => Members registry d ∧
        ∃ b, block = some b ∧ b.supportingStake = registry.values.sum :=
    (contract_runPhases hfull r hnonneg htotal hpacked).frame (preserves_runPhases epoch r)
  have hblock : Contract fits
      (fun t : QRTBTestnet F => Members registry t.validators ∧
        (fits → ∀ n ∈ t.validators.values, n.epochManager.currentEpoch + 1 < 256 ^ 8))
      (onValidators (runPhases epoch r))
      fun block t => (∃ b, block = some b ∧ b.supportingStake = registry.values.sum) ∧
        Members registry t.validators := by
    rw [onValidators]
    exact Contract.weaken (hphases.on_part fun _ _ => rfl) fun block t ht => ⟨ht.2, ht.1⟩
  refine hblock.bind fun block => contract_of_fact ?_
  rintro ⟨b, rfl, hb⟩
  have hfile : Contract fits (fun t : QRTBTestnet F => Members registry t.validators)
      (Stateful.modify fun t => { t with finalizedBlocks := t.finalizedBlocks.set epoch b })
      fun _ t => Members registry t.validators := contract_modify fun t ht => ht
  refine hfile.bind fun _ => ?_
  have hstats : Contract fits (fun t : QRTBTestnet F => Members registry t.validators)
      (reads fun t => collectEpochStats epoch (some b) (sub r.endTime r.beginTime) t.validators)
      fun stats _ => stats.finalized = true ∧ stats.supportingStake = stats.totalStake :=
    contract_reads fun t ht => ⟨rfl, hb.trans (sum_stake ht).symm⟩
  refine hstats.bind fun stats => ?_
  exact Contract.bind (contract_modify fun _ h => h) fun _ => contract_pure fun _ h => h

/-- A network as it is set up, whatever is drawn for it. -/
def Initialized (network : QRTBTestnet F) : Prop :=
  ∃ config genesisTime adversaryIndices draw connectTime,
    network = initializeNetwork config genesisTime adversaryIndices draw connectTime

/-- The network after calls of `run_epoch`, some of which may have raised. -/
def afterEpochs (calls : List (ℤ × Readings F)) : QRTBTestnet F → QRTBTestnet F :=
  Stateful.after (fun call => runEpoch call.1 call.2) calls

/-- The numbers an epoch packs fit the eight bytes each of them gets. -/
structure Packed (epoch : ℤ) (r : Readings F) (validators : Validators F) : Prop where
  epoch : 0 ≤ epoch ∧ epoch < 256 ^ 8
  epochs : ∀ n ∈ validators.values, n.epochManager.currentEpoch + 1 < 256 ^ 8
  totalStake : (validators.values.map fun n => n.config.stake).sum < 256 ^ 8
  measureTime : ∀ vid ∈ validators.keys,
    0 ≤ milliseconds (r.measureTime vid) ∧ milliseconds (r.measureTime vid) < 256 ^ 8
  finalizeTime : ∀ vid ∈ validators.keys,
    0 ≤ milliseconds (r.finalizeTime vid) ∧ milliseconds (r.finalizeTime vid) < 256 ^ 8

theorem Packed.over {r : Readings F} {validators : Validators F}
    (h : Packed epoch r validators) (hmembers : Members registry validators) :
    PackedOver registry epoch r := by
  have hkeys : ∀ vid ∈ registry.keys, vid ∈ validators.keys := by
    rw [hmembers.keys]
    exact fun _ hvid => hvid
  refine ⟨h.epoch, ?_, fun vid hvid => h.measureTime vid (hkeys vid hvid),
    fun vid hvid => h.finalizeTime vid (hkeys vid hvid)⟩
  rw [← sum_stake hmembers]
  exact h.totalStake

/-- An epoch whose numbers can be packed returns, and one that returns has finalized a block with
the total stake behind it. -/
theorem runEpoch_finalizes (hfull : FullQuorum F) (network : QRTBTestnet F)
    (hnetwork : Initialized network)
    (hnonneg : ∀ n ∈ network.validators.values, 0 ≤ n.config.stake)
    (htotal : 0 < (network.validators.values.map fun n => n.config.stake).sum)
    (calls : List (ℤ × Readings F)) (epoch : ℤ) (r : Readings F) :
    (Packed epoch r (network.afterEpochs calls).validators →
      (runEpoch epoch r (network.afterEpochs calls)).1.Returns) ∧
    ∀ stats, (runEpoch epoch r (network.afterEpochs calls)).1 = .ok stats →
      stats.finalized = true ∧ stats.supportingStake = stats.totalStake := by
  obtain ⟨config, genesisTime, adversaryIndices, draw, connectTime, rfl⟩ := hnetwork
  obtain ⟨registry, hstart⟩ := exists_members_initializeNetwork config genesisTime adversaryIndices
    draw connectTime
  have hstakes : ∀ vid stake, registry.get? vid = some stake → 0 ≤ stake := by
    intro vid stake hstake
    rw [← get?_map_stake hstart, get?_map, Option.map_eq_some_iff] at hstake
    obtain ⟨n, hn, rfl⟩ := hstake
    exact hnonneg n ((mem_values_iff _ n).mpr ⟨vid, hn⟩)
  rw [sum_stake hstart] at htotal
  have hkept : ∀ call : ℤ × Readings F,
      Preserves (fun t : QRTBTestnet F => Members registry t.validators)
        (runEpoch call.1 call.2) :=
    fun call => preserves_runEpoch call.1 call.2
  have hafter := Preserves.after hkept calls hstart
  exact contract_runEpoch hfull r hstakes htotal (fun h => h.over hafter) _
    ⟨hafter, fun h => h.epochs⟩

/-- A clock that stands still, and draws that are all alike. -/
def standing : Readings F where
  beginTime := literal 0
  advanceTime _ := literal 0
  shuffle _ peers := peers
  measureTime _ := literal 0
  haversineDistanceKm _ _ := literal 0
  gauss _ _ mean _ := mean
  nonce _ _ := []
  commitTime _ := literal 0
  proposeTime := literal 0
  preVoteTime _ := literal 0
  preCommitTime _ := literal 0
  finalizeTime _ := literal 0
  endTime := literal 0

/-- Two validators, of which the first is an adversary. -/
def two : QRTBTestnet Float.Model :=
  initializeNetwork { numZones := 2, validatorsPerZone := 1 } (literal 0) [0]
    (fun i =>
      { validatorId := [UInt8.ofNat i]
        keySeed := []
        historicalChain := []
        stakeOffset := 0
        location := (literal 0, literal 0) })
    fun _ _ => literal 0

theorem runEpoch_finalizes_two : (runEpoch 1 standing two).1.Returns ∧
    ∀ stats, (runEpoch 1 standing two).1 = .ok stats →
      stats.finalized = true ∧ stats.supportingStake = stats.totalStake := by
  have hepoch := runEpoch_finalizes fullQuorum_double two ⟨_, _, _, _, _, rfl⟩
    (by decide +kernel) (by decide +kernel) [] 1 standing
  refine ⟨hepoch.1 ⟨by decide, by decide +kernel, by decide +kernel, ?_, ?_⟩, hepoch.2⟩
  · decide +kernel
  · decide +kernel

/-- An epoch below zero has no packed form, so the network raises. -/
theorem runEpoch_negative : Initialized two ∧
    (∀ n ∈ two.validators.values, 0 ≤ n.config.stake) ∧
    0 < (two.validators.values.map fun n => n.config.stake).sum ∧
    ¬ ∃ stats, (runEpoch (-1) standing two).1 = .ok stats := by
  refine ⟨⟨_, _, _, _, _, rfl⟩, by decide +kernel, by decide +kernel, ?_⟩
  rintro ⟨stats, h⟩
  have hraised : (runEpoch (-1) standing two).1.isOk = false := by decide +kernel
  rw [h] at hraised
  cases hraised

end QRTBTestnet

end Qrtb.Testnet
