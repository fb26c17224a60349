import Qrtb.Consensus.CommitReveal
import Qrtb.Consensus.Epochs

/-!
# Starting an epoch (`src/validator.py`)

A node that starts an epoch has its manager advance, evolves its key with the
entropy the manager drew, and gives the number it was called with to the measurement
protocol and to the engine. The manager is not given the number: it counts. The
three agree after every call exactly when the calls count too, from one upwards.
-/

namespace Qrtb.Epochs

open Keccak PyFloat Transition

structure TemporalKey where
  currentKey : Bytes
  epoch : ℤ
  address : Bytes
  deriving DecidableEq

namespace TemporalKey

def create (seed : Bytes) : TemporalKey where
  currentKey := seed
  epoch := 0
  address :=
    let inner := sha3_512
      (ascii ['a', 'd', 'd', 'r', 'e', 's', 's', '_', 'i', 'n', 'n', 'e', 'r'] ++ seed)
    sha3_512 (ascii ['a', 'd', 'd', 'r', 'e', 's', 's', '_', 'o', 'u', 't', 'e', 'r'] ++ inner)

def evolve (epochEntropy : Bytes) (k : TemporalKey) : TemporalKey :=
  { k with currentKey := sha3_512 (k.currentKey ++ epochEntropy), epoch := k.epoch + 1 }

end TemporalKey

/-- The parts of a node that starting an epoch touches. -/
structure ValidatorNode (F : Type) where
  state : ValidatorState := .initializing
  temporalKey : TemporalKey
  epochManager : EpochManager F
  measurementProtocol : MeasurementProtocol F
  consensus : BFTConsensus F
  currentMeasurements : List (RTTMeasurement F) := []
  currentCommitment : Option MeasurementCommitment := none
  epochsParticipated : ℕ := 0

variable {F : Type} [PyFloat F]

namespace ValidatorNode

/-- A new node; its id, its key and the entropy chain start with random bytes. -/
def init (validatorId keySeed historicalChain : Bytes) (stake : ℤ) (genesisTime : F) :
    ValidatorNode F where
  temporalKey := .create keySeed
  epochManager := .init genesisTime historicalChain
  measurementProtocol := { validatorId := validatorId }
  consensus := .init validatorId stake

def startEpoch (epoch : ℤ) (time : F) (n : ValidatorNode F) :
    Except PyError Unit × ValidatorNode F :=
  let n := { n with state := .active }
  match n.epochManager.advanceEpoch time with
  | (.error e, m) => (.error e, { n with epochManager := m })
  | (.ok (_, entropy), m) =>
    (.ok (), { n with
      epochManager := m
      temporalKey := n.temporalKey.evolve entropy.combinedEntropy
      measurementProtocol := n.measurementProtocol.startEpoch epoch
      consensus := n.consensus.startRound epoch 0
      currentMeasurements := []
      currentCommitment := none
      epochsParticipated := n.epochsParticipated + 1 })

/-- The number a call was given and the reading of the clock in it. -/
structure Start (F : Type) where
  epoch : ℤ
  time : F

def Start.act (c : Start F) (n : ValidatorNode F) : ValidatorNode F :=
  (n.startEpoch c.epoch c.time).2

/-- After the call everything is in its epoch: the counters agree, and finalizing the epoch marks
the record with the entropy that the key was evolved with. -/
structure Started (epoch : ℤ) (n n' : ValidatorNode F) : Prop where
  manager : n'.epochManager.currentEpoch = epoch
  measurement : n'.measurementProtocol.currentEpoch = epoch
  consensus : n'.consensus.currentEpoch = epoch
  marks : ∀ blockRoot, ∃ state entropy,
    (n'.epochManager.finalizeEpoch epoch blockRoot).epochs.get? epoch = some state ∧
      state.finalized = true ∧ state.blockRoot = some blockRoot ∧
      state.entropy = some entropy ∧ entropy.epoch = epoch ∧
      n'.temporalKey = n.temporalKey.evolve entropy.combinedEntropy

section

variable {n : ValidatorNode F} {c : Start F}

theorem currentEpoch_act (c : Start F) (n : ValidatorNode F) :
    (c.act n).epochManager.currentEpoch = n.epochManager.currentEpoch + 1 := by
  rw [Start.act, startEpoch]
  rcases n.epochManager.advanceEpoch_cases c.time with
    ⟨entropy, m', -, -, heq, hepoch, -⟩ | ⟨-, e, heq⟩
  · simp only [heq]
    exact hepoch
  · simp only [heq]

theorem currentEpoch_runs (cs : List (Start F)) (n : ValidatorNode F) :
    (runs Start.act cs n).epochManager.currentEpoch = n.epochManager.currentEpoch + cs.length := by
  induction cs using List.reverseRecOn with
  | nil => simp
  | append_singleton cs c ih =>
    rw [runs_append_singleton, currentEpoch_act, ih, List.length_append, List.length_singleton]
    push_cast
    omega

theorem started_act (hepoch : c.epoch = n.epochManager.currentEpoch + 1)
    (hlow : 0 ≤ c.epoch) (hhigh : c.epoch < 256 ^ 8) : Started c.epoch n (c.act n) := by
  rw [Start.act, startEpoch]
  rcases n.epochManager.advanceEpoch_cases c.time with
    ⟨entropy, m', -, hentropy, heq, hcount, hrecords⟩ | ⟨hout, -⟩
  · simp only [heq]
    refine ⟨hcount.trans hepoch.symm, rfl, rfl, ?_⟩
    intro blockRoot
    obtain ⟨state, hstate, hrecord⟩ : ∃ state : EpochState F, state.entropy = some entropy ∧
        m'.epochs.get? c.epoch = some state := by
      rw [hrecords, if_pos hepoch]
      exact ⟨_, rfl, rfl⟩
    refine ⟨{ state with finalized := true, blockRoot := some blockRoot }, entropy, ?_, rfl, rfl,
      hstate, hentropy.trans hepoch.symm, rfl⟩
    rw [EpochManager.finalizeEpoch, hrecord, Option.isSome_some, if_pos rfl,
      EpochManager.get?_updateEpoch, if_pos rfl, hrecord]
    rfl
  · rw [hepoch] at hlow hhigh
    exact absurd ⟨hlow, hhigh⟩ hout

/-- Out of the range of an epoch number the other counters are left alone. -/
theorem measurement_act (hout : ¬ n.epochManager.currentEpoch + 1 < 256 ^ 8) :
    (c.act n).measurementProtocol = n.measurementProtocol := by
  rw [Start.act, startEpoch]
  rcases n.epochManager.advanceEpoch_cases c.time with ⟨_, _, ⟨-, hhigh⟩, -⟩ | ⟨-, e, heq⟩
  · exact absurd hhigh hout
  · simp only [heq]

end

/-- On a new node, everything is in its epoch after every call exactly when the calls number the
epochs from one upwards, within eight bytes. -/
theorem epochs_in_step_iff (validatorId keySeed historicalChain : Bytes) (stake : ℤ)
    (genesisTime : F) (cs : List (Start F)) :
    let n := init validatorId keySeed historicalChain stake genesisTime
    (∀ pre c post, cs = pre ++ c :: post →
        Started c.epoch (runs Start.act pre n) (runs Start.act (pre ++ [c]) n)) ↔
      ∀ pre c post, cs = pre ++ c :: post → c.epoch = (pre.length : ℤ) + 1 ∧ c.epoch < 256 ^ 8 := by
  intro n
  have hcount : ∀ pre, (runs Start.act pre n).epochManager.currentEpoch = pre.length := by
    intro pre
    rw [currentEpoch_runs]
    exact zero_add _
  constructor
  · intro h pre c post hcs
    have hepoch : c.epoch = (pre.length : ℤ) + 1 := by
      rw [← (h pre c post hcs).manager, hcount, List.length_append, List.length_singleton]
      push_cast
      rfl
    refine ⟨hepoch, ?_⟩
    by_contra hout
    -- the call raised, so the protocol is where the call before left it
    have hmeasured := (h pre c post hcs).measurement
    rw [runs_append_singleton, measurement_act (by rw [hcount]; omega)] at hmeasured
    rcases pre.eq_nil_or_concat' with rfl | ⟨pre, b, rfl⟩
    · have hzero : (0 : ℤ) = c.epoch := hmeasured
      simp [hepoch] at hzero
    · have hlast := h pre b (c :: post) (by simpa using hcs)
      rw [hlast.measurement, ← hlast.manager, hcount] at hmeasured
      omega
  · intro h pre c post hcs
    obtain ⟨hepoch, hhigh⟩ := h pre c post hcs
    rw [runs_append_singleton]
    exact started_act (by rw [hcount, hepoch]) (by omega) hhigh

theorem epochs_not_in_step :
    ¬ ∀ (validatorId keySeed historicalChain : Bytes) (stake : ℤ) (genesisTime : ℚ)
      (cs : List (Start ℚ)) (pre : List (Start ℚ)) (c : Start ℚ) (post : List (Start ℚ)),
      cs = pre ++ c :: post →
        let n := init validatorId keySeed historicalChain stake genesisTime
        let n' := runs Start.act (pre ++ [c]) n
        n'.epochManager.currentEpoch = c.epoch ∧
          n'.measurementProtocol.currentEpoch = c.epoch ∧ n'.consensus.currentEpoch = c.epoch := by
  intro h
  have hfive := (h [1] [2] [3] 100 0 [⟨5, 4500⟩] [] ⟨5, 4500⟩ [] rfl).1
  revert hfive
  decide +kernel

end ValidatorNode

end Qrtb.Epochs
