import Qrtb.Consensus.Detection
import Mathlib.Data.List.Sort

/-!
# The commit-reveal protocol (`src/measurement.py`)

A validator first sends a hash over its measurements and later the measurements.
The receiver checks a reveal against the commitment that travels inside it. The
one it has stored is looked up and not compared, and a later commitment replaces
an earlier one. So a reveal is bound to the first commitment exactly when it
carries the hash of it.
-/

namespace Qrtb

open Keccak PyFloat

inductive MeasurementPhase where
  | idle
  | commit
  | measure
  | reveal
  | verify
  | finalize
  deriving DecidableEq, Repr

structure MeasurementCommitment where
  validatorId : Bytes
  epoch : ℤ
  targetIds : List Bytes
  commitmentHash : Bytes
  timestamp : ℤ
  signature : Bytes := []

/-- The commitment is missing when a node reveals without having committed. -/
structure MeasurementReveal (F : Type) where
  validatorId : Bytes
  epoch : ℤ
  measurements : List (RTTMeasurement F)
  commitment : Option MeasurementCommitment
  signature : Bytes := []

variable {F : Type} [PyFloat F]

/-- The hash over the sorted commitments of a list of measurements. -/
def combinedHash (measurements : List (RTTMeasurement F)) : Except PyError Bytes := do
  let hashes ← measurements.mapM RTTMeasurement.commitment
  return sha3_256 (hashes.insertionSort (· ≤ ·)).flatten

def MeasurementReveal.verifyCommitment (r : MeasurementReveal F) : Except PyError Bool := do
  let combined ← combinedHash r.measurements
  match r.commitment with
  | none => .error .attributeError
  | some commitment => return combined == commitment.commitmentHash

theorem MeasurementReveal.verifyCommitment_eq_ok_true {r : MeasurementReveal F} :
    r.verifyCommitment = .ok true ↔
      ∃ commitment, r.commitment = some commitment ∧
        combinedHash r.measurements = .ok commitment.commitmentHash := by
  rw [verifyCommitment, Except.bind_eq_ok]
  cases r.commitment with
  | none => simp
  | some commitment =>
    constructor
    · intro h
      obtain ⟨combined, hcombined, h⟩ := h
      exact ⟨commitment, rfl, by rw [hcombined, beq_iff_eq.mp (Except.ok.inj h)]⟩
    · intro h
      obtain ⟨commitment', hcommitment, h⟩ := h
      obtain rfl := Option.some.inj hcommitment
      exact ⟨_, h, by simp [pure, Except.pure]⟩

structure MeasurementProtocol (F : Type) where
  validatorId : Bytes
  currentEpoch : ℤ := 0
  phase : MeasurementPhase := .idle
  selectedTargets : List Bytes := []
  measurements : List (RTTMeasurement F) := []
  commitment : Option MeasurementCommitment := none
  receivedCommitments : OrderedDict Bytes MeasurementCommitment := ∅
  receivedReveals : OrderedDict Bytes (MeasurementReveal F) := ∅

namespace MeasurementProtocol

def startEpoch (epoch : ℤ) (p : MeasurementProtocol F) : MeasurementProtocol F :=
  { p with
    currentEpoch := epoch
    phase := .idle
    selectedTargets := []
    measurements := []
    commitment := none
    receivedCommitments := ∅
    receivedReveals := ∅ }

def createCommitment (time : F) (p : MeasurementProtocol F) :
    Except PyError MeasurementCommitment × MeasurementProtocol F :=
  match combinedHash p.measurements with
  | .error e => (.error e, p)
  | .ok combined =>
    let commitment :=
      { validatorId := p.validatorId, epoch := p.currentEpoch, targetIds := p.selectedTargets,
        commitmentHash := combined, timestamp := milliseconds time }
    (.ok commitment, { p with commitment := some commitment, phase := .commit })

def receiveCommitment (commitment : MeasurementCommitment) (p : MeasurementProtocol F) :
    Bool × MeasurementProtocol F :=
  if commitment.epoch ≠ p.currentEpoch then (false, p)
  else
    (true, { p with
      receivedCommitments := p.receivedCommitments.set commitment.validatorId commitment })

def createReveal (p : MeasurementProtocol F) : MeasurementReveal F × MeasurementProtocol F :=
  ({ validatorId := p.validatorId, epoch := p.currentEpoch, measurements := p.measurements,
     commitment := p.commitment },
    { p with phase := .reveal })

def checkReveal (reveal : MeasurementReveal F) (p : MeasurementProtocol F) : Check Unit := do
  Check.rejectIf (reveal.epoch ≠ p.currentEpoch) "wrong epoch"
  Check.rejectIf ((p.receivedCommitments.get? reveal.validatorId).isNone) "no commitment found"
  let verified ← Check.lift reveal.verifyCommitment
  Check.rejectIf (verified = false) "commitment mismatch"

def receiveReveal (reveal : MeasurementReveal F) (p : MeasurementProtocol F) :
    Check Unit × MeasurementProtocol F :=
  match p.checkReveal reveal with
  | .error e => (.error e, p)
  | .ok () =>
    (.ok (), { p with receivedReveals := p.receivedReveals.set reveal.validatorId reveal })

def getAllMeasurements (p : MeasurementProtocol F) : MeasurementGraph F :=
  p.receivedReveals.items.foldl (fun result entry => result.set entry.1 entry.2.measurements)
    (OrderedDict.set ∅ p.validatorId p.measurements)

/-- A reveal of the epoch by a validator with a stored commitment, which matches the commitment
inside it. -/
structure Accepts (reveal : MeasurementReveal F) (p : MeasurementProtocol F) : Prop where
  epoch : reveal.epoch = p.currentEpoch
  stored : (p.receivedCommitments.get? reveal.validatorId).isSome
  verified : reveal.verifyCommitment = .ok true

theorem checkReveal_eq_ok {reveal : MeasurementReveal F} {p : MeasurementProtocol F} :
    p.checkReveal reveal = .ok () ↔ p.Accepts reveal := by
  simp only [checkReveal, Except.bind_eq_ok, Check.rejectIf_eq_ok, exists_const, Check.lift_eq_ok,
    not_not, Bool.not_eq_true, Bool.not_eq_false, Option.isNone_eq_false_iff]
  constructor
  · intro h
    obtain ⟨hepoch, hstored, verified, hverified, rfl⟩ := h
    exact ⟨hepoch, hstored, hverified⟩
  · intro h
    exact ⟨h.epoch, h.stored, true, h.verified, rfl⟩

omit [PyFloat F] in
theorem receiveCommitment_cases (c : MeasurementCommitment) (p : MeasurementProtocol F) :
    (c.epoch ≠ p.currentEpoch ∧ p.receiveCommitment c = (false, p)) ∨
    (c.epoch = p.currentEpoch ∧ p.receiveCommitment c =
      (true, { p with receivedCommitments := p.receivedCommitments.set c.validatorId c })) := by
  by_cases h : c.epoch = p.currentEpoch
  · exact Or.inr ⟨h, by simp [receiveCommitment, h]⟩
  · exact Or.inl ⟨h, by simp [receiveCommitment, h]⟩

theorem receiveReveal_cases (reveal : MeasurementReveal F) (p : MeasurementProtocol F) :
    (¬ p.Accepts reveal ∧ (p.receiveReveal reveal).2 = p) ∨
    (p.Accepts reveal ∧ (p.receiveReveal reveal).2 =
      { p with receivedReveals := p.receivedReveals.set reveal.validatorId reveal }) := by
  rw [← checkReveal_eq_ok]
  unfold receiveReveal
  split
  next e h => exact Or.inl ⟨by simp [h], rfl⟩
  next h => exact Or.inr ⟨h, rfl⟩

inductive Call (F : Type) where
  | commitment (commitment : MeasurementCommitment)
  | reveal (reveal : MeasurementReveal F)

def next (p : MeasurementProtocol F) : Call F → MeasurementProtocol F
  | .commitment c => (p.receiveCommitment c).2
  | .reveal r => (p.receiveReveal r).2

def after (p : MeasurementProtocol F) (calls : List (Call F)) : MeasurementProtocol F :=
  calls.foldl next p

/-- The commitments of a validator that are accepted in an epoch. -/
def Call.commits (epoch : ℤ) (v : Bytes) : Call F → Option MeasurementCommitment
  | .commitment c => if c.epoch = epoch ∧ c.validatorId = v then some c else none
  | .reveal _ => none

/-- The first accepted commitment of a validator. -/
def firstCommitment (epoch : ℤ) (v : Bytes) (calls : List (Call F)) :
    Option MeasurementCommitment :=
  (calls.filterMap (Call.commits epoch v)).head?

omit [PyFloat F] in
theorem firstCommitment_append {epoch : ℤ} {v : Bytes} {calls : List (Call F)}
    {c : MeasurementCommitment} (h : firstCommitment epoch v calls = some c)
    (calls' : List (Call F)) : firstCommitment epoch v (calls ++ calls') = some c := by
  rw [firstCommitment, List.filterMap_append, List.head?_append]
  exact Option.or_eq_some_iff.mpr (Or.inl h)

omit [PyFloat F] in
theorem firstCommitment_append_reveal (epoch : ℤ) (v : Bytes) (calls : List (Call F))
    (r : MeasurementReveal F) :
    firstCommitment epoch v (calls ++ [.reveal r]) = firstCommitment epoch v calls := by
  simp [firstCommitment, Call.commits]

theorem after_append_singleton (p : MeasurementProtocol F) (calls : List (Call F)) (call : Call F) :
    p.after (calls ++ [call]) = (p.after calls).next call := by
  rw [after, List.foldl_append]
  rfl

theorem currentEpoch_after (p : MeasurementProtocol F) (epoch : ℤ) (calls : List (Call F)) :
    ((p.startEpoch epoch).after calls).currentEpoch = epoch := by
  induction calls using List.reverseRecOn with
  | nil => rfl
  | append_singleton calls call ih =>
    rw [after_append_singleton]
    cases call with
    | commitment c =>
      rcases receiveCommitment_cases c ((p.startEpoch epoch).after calls) with ⟨-, h⟩ | ⟨-, h⟩
      · rw [next, h]
        exact ih
      · rw [next, h]
        exact ih
    | reveal r =>
      rcases receiveReveal_cases r ((p.startEpoch epoch).after calls) with ⟨-, h⟩ | ⟨-, h⟩
      · rw [next, h]
        exact ih
      · rw [next, h]
        exact ih

/-- The commitments counted for an epoch are the ones `receive_commitment` accepts. -/
theorem receiveCommitment_iff (p : MeasurementProtocol F) (epoch : ℤ) (calls : List (Call F))
    (c : MeasurementCommitment) :
    (((p.startEpoch epoch).after calls).receiveCommitment c).1 = true ↔
      Call.commits epoch c.validatorId (.commitment c : Call F) = some c := by
  rw [receiveCommitment, currentEpoch_after]
  by_cases h : c.epoch = epoch
  · simp [h, Call.commits]
  · simp [h, Call.commits]

/-- Every stored reveal hashes to the first accepted commitment of its validator. -/
def Bound (epoch : ℤ) (calls : List (Call F)) (p : MeasurementProtocol F) : Prop :=
  ∀ v reveal, p.receivedReveals.get? v = some reveal →
    ∃ c, firstCommitment epoch v calls = some c ∧
      combinedHash reveal.measurements = .ok c.commitmentHash

/-- The reveal carries a commitment with the hash of the first accepted one. -/
def CarriesFirst (epoch : ℤ) (calls : List (Call F)) (reveal : MeasurementReveal F) : Prop :=
  ∃ inner c, reveal.commitment = some inner ∧
    firstCommitment epoch reveal.validatorId calls = some c ∧
    inner.commitmentHash = c.commitmentHash

/-- The stored reveals are bound to the first commitments in every state of a run exactly when every
accepted reveal carries the hash of the first commitment. -/
theorem commitReveal_binding_iff (p : MeasurementProtocol F) (epoch : ℤ) (calls : List (Call F)) :
    (∀ earlier later, calls = earlier ++ later →
        Bound epoch earlier ((p.startEpoch epoch).after earlier)) ↔
      ∀ earlier reveal later, calls = earlier ++ .reveal reveal :: later →
        ((p.startEpoch epoch).after earlier).Accepts reveal → CarriesFirst epoch earlier reveal := by
  constructor
  · intro h earlier reveal later hcalls haccepts
    obtain ⟨inner, hinner, hcombined⟩ :=
      MeasurementReveal.verifyCommitment_eq_ok_true.mp haccepts.verified
    have hbound := h (earlier ++ [.reveal reveal]) later (by simp [hcalls])
    rcases receiveReveal_cases reveal ((p.startEpoch epoch).after earlier) with
      ⟨hnot, -⟩ | ⟨-, hnext⟩
    · exact absurd haccepts hnot
    · rw [after_append_singleton, next, hnext] at hbound
      obtain ⟨c, hfirst, hhash⟩ := hbound reveal.validatorId reveal (OrderedDict.get?_set_self ..)
      rw [firstCommitment_append_reveal] at hfirst
      exact ⟨inner, c, hinner, hfirst, Except.ok.inj (hcombined.symm.trans hhash)⟩
  · intro h earlier
    -- call after call: the last one stores a reveal, or leaves the stored ones
    induction earlier using List.reverseRecOn with
    | nil =>
      intro later _ v reveal hget
      cases hget
    | append_singleton earlier call ih =>
      intro later hcalls
      have hbound := ih (call :: later) (by simp [hcalls])
      have hkeep : Bound epoch (earlier ++ [call]) ((p.startEpoch epoch).after earlier) := by
        intro v reveal hget
        obtain ⟨c, hfirst, hhash⟩ := hbound v reveal hget
        exact ⟨c, firstCommitment_append hfirst _, hhash⟩
      rw [after_append_singleton]
      cases call with
      | commitment c =>
        rcases receiveCommitment_cases c ((p.startEpoch epoch).after earlier) with
          ⟨-, hnext⟩ | ⟨-, hnext⟩
        · rw [next, hnext]
          exact hkeep
        · rw [next, hnext]
          exact hkeep
      | reveal r =>
        rcases receiveReveal_cases r ((p.startEpoch epoch).after earlier) with
          ⟨-, hnext⟩ | ⟨haccepts, hnext⟩
        · rw [next, hnext]
          exact hkeep
        · rw [next, hnext]
          intro v reveal hget
          rcases OrderedDict.get?_set_eq_some.mp hget with ⟨rfl, rfl⟩ | ⟨-, hold⟩
          · obtain ⟨inner, c, hinner, hfirst, hsame⟩ := h earlier reveal later (by simp [hcalls])
              haccepts
            obtain ⟨inner', hinner', hcombined⟩ :=
              MeasurementReveal.verifyCommitment_eq_ok_true.mp haccepts.verified
            obtain rfl := Option.some.inj (hinner.symm.trans hinner')
            exact ⟨c, firstCommitment_append hfirst _, hsame ▸ hcombined⟩
          · exact hkeep v reveal hold

/-- A validator that commits to thirty-two zero bytes. -/
def zeroCommitment : MeasurementCommitment where
  validatorId := []
  epoch := 0
  targetIds := []
  commitmentHash := List.replicate 32 0
  timestamp := 0

/-- It reveals no measurements, with the commitment to none inside. -/
def emptyReveal : MeasurementReveal ℚ where
  validatorId := []
  epoch := 0
  measurements := []
  commitment := some { zeroCommitment with commitmentHash := sha3_256 [] }

def emptyCalls : List (Call ℚ) := [.commitment zeroCommitment, .reveal emptyReveal]

def emptyProtocol : MeasurementProtocol ℚ where
  validatorId := [1]

theorem sha3_256_nil_ne : sha3_256 [] ≠ List.replicate 32 0 := by decide +kernel

/-- The reveal is stored although its hash is not the committed one. -/
theorem emptyReveal_unbound :
    ((emptyProtocol.startEpoch 0).after emptyCalls).receivedReveals.get? [] = some emptyReveal ∧
      ¬ Bound 0 emptyCalls ((emptyProtocol.startEpoch 0).after emptyCalls) := by
  have hcombined : combinedHash emptyReveal.measurements = .ok (sha3_256 []) := by
    simp [combinedHash, emptyReveal, pure, Except.pure, bind, Except.bind]
  have haccepts :
      ((emptyProtocol.startEpoch 0).after [.commitment zeroCommitment]).Accepts emptyReveal :=
    ⟨rfl, rfl, MeasurementReveal.verifyCommitment_eq_ok_true.mpr ⟨_, rfl, hcombined⟩⟩
  have hstored :
      ((emptyProtocol.startEpoch 0).after emptyCalls).receivedReveals.get? [] = some emptyReveal := by
    rcases receiveReveal_cases emptyReveal
      ((emptyProtocol.startEpoch 0).after [.commitment zeroCommitment]) with ⟨hnot, -⟩ | ⟨-, h⟩
    · exact absurd haccepts hnot
    · change ((((emptyProtocol.startEpoch 0).after [.commitment zeroCommitment]).next
        (.reveal emptyReveal))).receivedReveals.get? [] = _
      rw [next, h]
      exact OrderedDict.get?_set_self ..
  refine ⟨hstored, ?_⟩
  intro hbound
  obtain ⟨c, hfirst, hhash⟩ := hbound [] emptyReveal hstored
  obtain rfl : zeroCommitment = c := Option.some.inj hfirst
  exact sha3_256_nil_ne (Except.ok.inj (hcombined.symm.trans hhash))

end MeasurementProtocol

end Qrtb
