import Mathlib.Logic.Basic
import Mathlib.Tactic.Use

/-!
# Commands that answer, and their simulation

A command answers and changes a state, or fails. An implementation simulates a
specification, whose commands never fail, when related states answer alike and stay
related; it may rely on a condition on the command and the state of the specification.
Where the specification meets the conditions along a run, the implementation goes
through it with the same answers.
-/

namespace Simulation

variable {ι ω σ α : Type*}

/-- The answers of a list of commands, unless one fails. -/
def run (step : ι → σ → Option (ω × σ)) : List ι → σ → Option (List ω × σ)
  | [], s => some ([], s)
  | i :: is, s =>
    match step i s with
    | none => none
    | some (answer, s') =>
      match run step is s' with
      | none => none
      | some (answers, t) => some (answer :: answers, t)

def runSpec (spec : ι → α → ω × α) : List ι → α → List ω × α
  | [], a => ([], a)
  | i :: is, a =>
    ((spec i a).1 :: (runSpec spec is (spec i a).2).1, (runSpec spec is (spec i a).2).2)

/-- Every command of a run meets a condition on the state before it. -/
def Along (spec : ι → α → ω × α) (guard : ι → α → Prop) : List ι → α → Prop
  | [], _ => True
  | i :: is, a => guard i a ∧ Along spec guard is (spec i a).2

/-- Related states answer alike and stay related. -/
def Simulates (step : ι → σ → Option (ω × σ)) (spec : ι → α → ω × α) (guard : ι → α → Prop)
    (R : σ → α → Prop) : Prop :=
  ∀ i s a, guard i a → R s a → ∃ s', step i s = some ((spec i a).1, s') ∧ R s' (spec i a).2

variable {step : ι → σ → Option (ω × σ)} {spec : ι → α → ω × α} {guard : ι → α → Prop}
  {R : σ → α → Prop}

theorem Simulates.run (h : Simulates step spec guard R) {is : List ι} {s : σ} {a : α}
    (hguard : Along spec guard is a) (hR : R s a) :
    ∃ t, Simulation.run step is s = some ((runSpec spec is a).1, t) ∧
      R t (runSpec spec is a).2 := by
  induction is generalizing s a with
  | nil => exact ⟨s, rfl, hR⟩
  | cons i is ih =>
    obtain ⟨hi, hrest⟩ := hguard
    obtain ⟨s', hstep, hR'⟩ := h i s a hi hR
    obtain ⟨t, hrun, ht⟩ := ih hrest hR'
    exact ⟨t, by simp only [Simulation.run, hstep, hrun, runSpec], ht⟩

/-- A condition that follows from an invariant holds along, if each step keeps the invariant. The
invariant may speak of the commands still to come. -/
theorem along_of_invariant {I : List ι → α → Prop}
    (hguard : ∀ i is a, I (i :: is) a → guard i a)
    (hstep : ∀ i is a, I (i :: is) a → I is (spec i a).2) {is : List ι} {a : α} (h : I is a) :
    Along spec guard is a := by
  induction is generalizing a with
  | nil => exact True.intro
  | cons i is ih => exact ⟨hguard i is a h, ih (hstep i is a h)⟩

end Simulation
