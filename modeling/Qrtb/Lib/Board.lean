import Qrtb.Lib.Transition
import Mathlib.Data.Finset.Basic
import Mathlib.Logic.Function.Basic

/-!
# Parties that read what the others have written

Each party has a state of its own and a growing list of what it has written. In a step one
party does something, maybe with a message that some party has written at any earlier time.
So messages are delayed, repeated, reordered and lost, and never forged. What holds of each
party, given what all have written so far, is an invariant of the whole once every step of a
single party keeps it.
-/

namespace Board

open Transition

structure Rules (ι σ ε M : Type) where
  step : ε → σ → σ
  written : σ → List M
  /-- The message that is read in the step, if there is one. -/
  reads : ε → Option M
  allowed : ι → ε → Prop

variable {ι σ ε M : Type} [DecidableEq ι] (S : Rules ι σ ε M) (members : Finset ι)

/-- What the members have written, each message with its writer. -/
def board (N : ι → σ) : Set (ι × M) := {p | p.1 ∈ members ∧ p.2 ∈ S.written (N p.1)}

structure Step (N : ι → σ) (label : ι × ε) (N' : ι → σ) : Prop where
  member : label.1 ∈ members
  allowed : S.allowed label.1 label.2
  read : ∀ m, S.reads label.2 = some m → ∃ k, (k, m) ∈ board S members N
  moves : N' = Function.update N label.1 (S.step label.2 (N label.1))

/-- What holds of a party by what is on the board: writing more on the board keeps it, and so does
a step of the party that reads what a party of which it holds has written. -/
structure Keeps (I : Set (ι × M) → ι → σ → Prop) : Prop where
  grows : ∀ e s, S.written s ⊆ S.written (S.step e s)
  mono : ∀ {B B' : Set (ι × M)} {i s}, B ⊆ B' → I B i s → I B' i s
  step : ∀ {B B' : Set (ι × M)} {i s e}, i ∈ members → I B i s → S.allowed i e →
    (∀ m, S.reads e = some m →
      ∃ k t, k ∈ members ∧ (k, m) ∈ B ∧ I B k t ∧ m ∈ S.written t) →
    B ⊆ B' → (∀ m ∈ S.written (S.step e s), (i, m) ∈ B') → I B' i (S.step e s)

variable {S members} {N N' : ι → σ} {label : ι × ε} {I : Set (ι × M) → ι → σ → Prop}

theorem Step.written (hI : Keeps S members I) (h : Step S members N label N') (i : ι) :
    S.written (N i) ⊆ S.written (N' i) := by
  rw [h.moves]
  by_cases hi : i = label.1
  · subst hi
    rw [Function.update_self]
    exact hI.grows _ _
  · rw [Function.update_of_ne hi]
    exact List.Subset.refl _

theorem Step.board_subset (hI : Keeps S members I) (h : Step S members N label N') :
    board S members N ⊆ board S members N' :=
  fun p hp => ⟨hp.1, h.written hI p.1 hp.2⟩

theorem Keeps.of_step (hI : Keeps S members I) (h : Step S members N label N')
    (hN : ∀ i ∈ members, I (board S members N) i (N i)) :
    ∀ i ∈ members, I (board S members N') i (N' i) := by
  have hsub := h.board_subset hI
  intro i hi
  by_cases hmoved : i = label.1
  · subst hmoved
    have hself : N' label.1 = S.step label.2 (N label.1) := by rw [h.moves, Function.update_self]
    rw [hself]
    refine hI.step hi (hN _ hi) h.allowed (fun m hm => ?_) hsub fun m hm => ?_
    · obtain ⟨k, hk⟩ := h.read m hm
      exact ⟨k, N k, hk.1, hk, hN k hk.1, hk.2⟩
    · exact ⟨hi, hself ▸ hm⟩
  · have hsame : N' i = N i := by rw [h.moves, Function.update_of_ne hmoved]
    rw [hsame]
    exact hI.mono hsub (hN i hi)

theorem Keeps.of_run (hI : Keeps S members I) {labels : List (ι × ε)}
    (h : Run (Step S members) N labels N')
    (hN : ∀ i ∈ members, I (board S members N) i (N i)) :
    ∀ i ∈ members, I (board S members N') i (N' i) :=
  h.invariant (I := fun N => ∀ i ∈ members, I (board S members N) i (N i))
    (fun _ _ _ hN hstep => hI.of_step hstep hN) hN

theorem run_hearing {i : ι} (hi : i ∈ members) {N : ι → σ} {es : List ε}
    (h : ∀ e ∈ es, S.allowed i e ∧ ∀ m, S.reads e = some m →
      ∃ k, k ≠ i ∧ (k, m) ∈ board S members N) :
    Run (Step S members) N (es.map fun e => (i, e))
      (Function.update N i (runs S.step es (N i))) := by
  induction es generalizing N with
  | nil =>
    rw [runs, List.foldl_nil, Function.update_eq_self]
    exact .nil N
  | cons e es ih =>
    obtain ⟨hallowed, hreads⟩ := h e List.mem_cons_self
    have hlater : ∀ e' ∈ es, S.allowed i e' ∧ ∀ m, S.reads e' = some m →
        ∃ k, k ≠ i ∧ (k, m) ∈ board S members (Function.update N i (S.step e (N i))) := by
      intro e' he'
      obtain ⟨hallowed', hreads'⟩ := h e' (List.mem_cons_of_mem _ he')
      refine ⟨hallowed', fun m hm => ?_⟩
      obtain ⟨k, hk, hmember, hwritten⟩ := hreads' m hm
      exact ⟨k, hk, hmember, by rwa [Function.update_of_ne hk]⟩
    have hrest := ih hlater
    rw [Function.update_self, Function.update_idem] at hrest
    refine .cons ⟨hi, hallowed, fun m hm => ?_, rfl⟩ hrest
    obtain ⟨k, -, hk⟩ := hreads m hm
    exact ⟨k, hk⟩

end Board
